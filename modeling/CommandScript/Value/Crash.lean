/-!
# CommandScript — crashes

What can stop an evaluation besides a failure of the script: a few conditions
that the evaluator does not turn into failures, and errors of the host. Inside a
command of the host a crash becomes a failure of the command, with the message
given here.
-/

namespace CommandScript

/-- Why a tuple does not answer a question. -/
inductive TupleFault where
  /-- A count is of exactly one value. -/
  | countOf (given : Nat)
  /-- A place is asked for with no value. -/
  | placeOfNothing
  /-- Behind the value stand two positions at most. -/
  | placeOf (given : Nat)
  /-- A position is no whole number. -/
  | position
  /-- The value is not there. -/
  | absent
  deriving DecidableEq, Repr

namespace TupleFault

def message : TupleFault → String
  | .countOf given =>
    "tuple.count() takes exactly one argument (" ++ toString given ++ " given)"
  | .placeOfNothing => "index expected at least 1 argument, got 0"
  | .placeOf given => "index expected at most 3 arguments, got " ++ toString given
  | .position => "slice indices must be integers or have an __index__ method"
  | .absent => "tuple.index(x): x not in tuple"

end TupleFault

/-- Why an evaluation stopped short. -/
inductive Crash where
  /-- Zero was raised to a negative power. -/
  | zeroToNegativePower
  /-- A whole number with too many digits was written out. -/
  | tooManyDigits
  /-- A whole number beyond the largest `Float` was treated as one. -/
  | beyondFloat
  /-- A container that contains itself was followed without end. -/
  | endless
  /-- A command of the host gave up. -/
  | host (text : String)
  /-- Something else was given where a shape belongs. -/
  | noShape (text : String)
  /-- Something of a class that cannot be called was to be called. -/
  | notCallable (className : String)
  /-- A tuple does not answer. -/
  | tuple (fault : TupleFault)
  deriving DecidableEq, Repr

namespace Crash

def message : Crash → String
  | .zeroToNegativePower => "0.0 cannot be raised to a negative power"
  | .tooManyDigits =>
    "Exceeds the limit (4300 digits) for integer string conversion; " ++
      "use sys.set_int_max_str_digits() to increase the limit"
  | .beyondFloat => "int too large to convert to float"
  | .endless => "maximum recursion depth exceeded"
  | .host text => text
  | .noShape text => "Not an analysis type: " ++ text
  | .notCallable className => "'" ++ className ++ "' object is not callable"
  | .tuple fault => fault.message

end Crash

end CommandScript
