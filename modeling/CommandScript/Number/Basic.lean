import CommandScript.Number.Decimal
/-!
# CommandScript — numbers of a script

A script has two sorts of numbers under one name: whole numbers of any size and
floating-point numbers. They are compared by what they stand for, exactly, so
`1` and `1.0` are one number wherever numbers are told apart.
-/

namespace CommandScript

/-- A whole number of any size, or a floating-point number. -/
inductive Number where
  | int (n : Int)
  | float (x : Float)
  deriving Repr, Inhabited

namespace Number

/-- The number that is stood for. -/
def exact : Number → Binary
  | .int n => .ofInt n
  | .float x => .ofFloat x

/-- The order of two numbers, if both stand for one. -/
def compare? (a b : Number) : Option Ordering := Binary.compare? a.exact b.exact

/-- Both stand for the same number. -/
def equal (a b : Number) : Bool := compare? a b == some .eq

/-- The number stands for zero. -/
def isZero (a : Number) : Bool := equal a (.int 0)

/-- The nearest `Float`, unless that is beyond the largest one. -/
def toFloat? : Number → Option Float
  | .int n => Binary.nearest? (n < 0) n.natAbs 1
  | .float x => some x

/-- The whole number that is stood for, if it is one. -/
def toInt? : Number → Option Int
  | .int n => some n
  | .float x => (Binary.ofFloat x).toInt?

/-- How scripts write the number: a floating-point number that is whole is
written as a whole number. None past the limit on digits. -/
def text? : Number → Option String
  | .int n => Decimal.ofInt? n
  | .float x =>
    match (Binary.ofFloat x).toInt? with
    | some n => Decimal.ofInt? n
    | none => some (Decimal.ofFloat x)

/-- How the number is written where its sort shows. None past the limit on
digits. -/
def exactText? : Number → Option String
  | .int n => Decimal.ofInt? n
  | .float x => some (Decimal.ofFloat x)

/-- The negative of a number. -/
def neg : Number → Number
  | .int n => .int (-n)
  | .float x => .float (-x)

end Number

end CommandScript
