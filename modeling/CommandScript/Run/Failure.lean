import CommandScript.Value.Operator
import CommandScript.Text.Span
/-!
# CommandScript — failures of a script

A failure has a cause, the place it is about, and the calls that were open when
it arose, outermost first. The place is missing only where the evaluation as a
whole went on without end.
-/

namespace CommandScript

/-- Who provides what was called. -/
inductive Origin where
  | host
  | script
  deriving DecidableEq, Repr

namespace Origin

def name : Origin → String
  | .host => "host"
  | .script => "script"

end Origin

/-- An open call. -/
structure TraceEntry where
  origin : Origin
  /-- What was called, as it is written. -/
  name : String
  /-- The line of the call; unknown where the text is not at hand. -/
  line : Option Nat
  deriving DecidableEq, Repr

/-- Why a script failed. Values are held as they are shown. -/
inductive Cause where
  /-- Skipped tokens were reached. -/
  | invalidSyntax (text : String)
  | missingExpression
  | missingCommand
  | missingVariable
  | missingField
  | missingBranchBlock
  | missingElseBlock
  | incompleteCondition
  | incompleteWhile
  | incompleteFor
  /-- `break` or `continue` reached the end of a run. -/
  | outsideLoop (word : String)
  /-- `break` or `continue` reached the end of a lambda. -/
  | leavesLambda (word : String)
  | loopBody (kind : ValueKind)
  | notIterable (what : String)
  | variableName (kind : ValueKind)
  | indexNil (key : String)
  | indexOutOfRange (index : String)
  | notIndexable (kind : ValueKind)
  | notWritable (kind : ValueKind)
  | objectKey (kind : ValueKind)
  | privateField (name : String)
  | vectorKey (key : String)
  | nilKey
  | tableKey (kind : ValueKind)
  | notCallable (name : String) (kind : ValueKind)
  | unknownCommand (name : String)
  | commandFailed (name text : String)
  | callDepth
  | endless
  | literalDigits
  | refused (refusal : Refusal)
  deriving DecidableEq, Repr

namespace Cause

/-- The wording of a cause. -/
def message : Cause → String
  | invalidSyntax text => "Cannot execute invalid syntax `" ++ text ++ "`"
  | missingExpression => "Missing expression"
  | missingCommand => "Missing command after `&`"
  | missingVariable => "Missing variable name after `$`"
  | missingField => "Missing field name after `.`"
  | missingBranchBlock => "Missing block for `if` branch"
  | missingElseBlock => "Missing block for `else`"
  | incompleteCondition => "Incomplete `if` condition"
  | incompleteWhile => "Incomplete `while` loop"
  | incompleteFor => "Incomplete `for` loop"
  | outsideLoop word => "`" ++ word ++ "` used outside of a loop"
  | leavesLambda word => "`" ++ word ++ "` cannot escape a lambda"
  | loopBody kind => "`for` body must be a lambda, got " ++ kind.name
  | notIterable what => "Cannot iterate over " ++ what
  | variableName kind => "Variable name must be a string, got " ++ kind.name
  | indexNil key => "Attempt to index nil with " ++ key
  | indexOutOfRange index => "Vector index " ++ index ++ " out of range"
  | notIndexable kind => "Cannot index " ++ kind.name
  | notWritable kind => "Cannot set a field on " ++ kind.name
  | objectKey kind => "Cannot index an object with " ++ kind.name
  | privateField name => "Cannot access private field `" ++ name ++ "`"
  | vectorKey key => "Vectors are indexed by whole numbers, got " ++ key
  | nilKey => "Table key cannot be nil"
  | tableKey kind => "Table key must be a string, number or boolean, got " ++ kind.name
  | notCallable name kind => "`" ++ name ++ "` is not callable (got " ++ kind.name ++ ")"
  | unknownCommand name => "Unknown command `" ++ name ++ "`"
  | commandFailed name text => "Command `" ++ name ++ "` failed: " ++ text
  | callDepth => "Maximum call depth exceeded"
  | endless => "Maximum recursion depth exceeded"
  | literalDigits => "Number literal has too many digits"
  | refused refusal => refusal.message

end Cause

/-- A failure of a script. -/
structure Failure where
  cause : Cause
  span : Option Span := none
  /-- The open calls, outermost first. -/
  trace : List TraceEntry := []
  deriving DecidableEq, Repr

namespace Failure

def message (f : Failure) : String := f.cause.message

/-- The message with the place, where there is one. -/
def describe (f : Failure) : String :=
  match f.span with
  | none => f.message
  | some s => f.message ++ " " ++ s.halfOpen

end Failure

end CommandScript
