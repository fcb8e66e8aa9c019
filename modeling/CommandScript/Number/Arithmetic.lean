import CommandScript.Number.Basic
/-!
# CommandScript — arithmetic

The arithmetic of script numbers. Two whole numbers stay whole except under
division and under a negative power; where sorts are mixed, the whole number is
first rounded to a `Float`, which fails for one that is too large. Quotients and
remainders round to the floor, so a remainder has the sign of the divisor.
-/

namespace CommandScript.Number

/-- Why an operation has no result. -/
inductive Fault where
  /-- The result, or an operand, is beyond the largest `Float`. -/
  | tooLarge
  /-- The result is no real number. -/
  | notReal
  /-- Zero was raised to a negative power. -/
  | zeroToNegativePower
  deriving DecidableEq, Repr

/-- An operation given for both sorts. -/
def lift (onInts : Int → Int → Except Fault Number) (onFloats : Float → Float → Except Fault Number) :
    Number → Number → Except Fault Number
  | .int a, .int b => onInts a b
  | a, b =>
    match a.toFloat?, b.toFloat? with
    | some x, some y => onFloats x y
    | _, _ => .error .tooLarge

def add : Number → Number → Except Fault Number :=
  lift (fun a b => .ok (.int (a + b))) (fun x y => .ok (.float (x + y)))

def sub : Number → Number → Except Fault Number :=
  lift (fun a b => .ok (.int (a - b))) (fun x y => .ok (.float (x - y)))

def mul : Number → Number → Except Fault Number :=
  lift (fun a b => .ok (.int (a * b))) (fun x y => .ok (.float (x * y)))

/-- Division; the divisor is not zero. The quotient of whole numbers is rounded
once, from the exact quotient. -/
def div : Number → Number → Except Fault Number :=
  lift
    (fun a b =>
      match Binary.nearest? ((a < 0) != (b < 0)) a.natAbs b.natAbs with
      | some x => .ok (.float x)
      | none => .error .tooLarge)
    (fun x y => .ok (.float (x / y)))

/-- The magnitude of a `Float` with the sign of another. -/
def copySign (magnitude sign : Float) : Float :=
  if (Binary.ofFloat sign).isNegative then -magnitude.abs else magnitude.abs

/-- The remainder with the sign of the divisor, which is not zero. -/
def modFloat (x y : Float) : Float :=
  let r := Binary.remainder x y
  if r == 0.0 then copySign 0.0 y
  else if (y < 0.0) != (r < 0.0) then r + y else r

/-- The quotient rounded to the floor; the divisor is not zero. -/
def floorDivFloat (x y : Float) : Float :=
  let r := Binary.remainder x y
  let q := (x - r) / y
  let q := if r != 0.0 && (y < 0.0) != (r < 0.0) then q - 1.0 else q
  if q == 0.0 then copySign 0.0 (x / y)
  else
    let f := q.floor
    if q - f > 0.5 then f + 1.0 else f

/-- The quotient rounded to the floor; the divisor is not zero. -/
def floorDiv : Number → Number → Except Fault Number :=
  lift (fun a b => .ok (.int (a.fdiv b))) (fun x y => .ok (.float (floorDivFloat x y)))

/-- The remainder of `floorDiv`; the divisor is not zero. -/
def mod : Number → Number → Except Fault Number :=
  lift (fun a b => .ok (.int (a.fmod b))) (fun x y => .ok (.float (modFloat x y)))

/-- A whole number to a natural power. -/
def powNat (a : Int) (n : Nat) : Int :=
  let magnitude := if a.natAbs ≤ 1 then (if n = 0 then 1 else a.natAbs) else Nat.pow a.natAbs n
  if a < 0 ∧ n % 2 = 1 then -(magnitude : Int) else magnitude

/-- The number is whole and odd. -/
def isOdd (x : Float) : Bool :=
  match (Binary.ofFloat x).toInt? with
  | some n => n % 2 != 0
  | none => false

/-- A power of a finite positive base; beyond the largest `Float` it has no
result. -/
def powPositive (base exponent : Float) (negative : Bool) : Except Fault Number :=
  let p := base.pow exponent
  if p.isInf then .error .tooLarge else .ok (.float (if negative then -p else p))

/-- Powers of floating-point numbers. Infinite and absent operands are decided
first, then a zero base, then a negative one. -/
def powFloat (x y : Float) : Except Fault Number :=
  if y == 0.0 then .ok (.float 1.0)
  else if x.isNaN then .ok (.float x)
  else if y.isNaN then .ok (.float (if x == 1.0 then 1.0 else y))
  else if y.isInf then
    let m := x.abs
    .ok (.float (if m == 1.0 then 1.0 else if (y > 0.0) == (m > 1.0) then y.abs else 0.0))
  else if x.isInf then
    .ok (.float (if y > 0.0 then (if isOdd y then x else x.abs)
      else if isOdd y then copySign 0.0 x else 0.0))
  else if x == 0.0 then
    if y < 0.0 then .error .zeroToNegativePower else .ok (.float (if isOdd y then x else 0.0))
  else if x < 0.0 then
    if (Binary.ofFloat y).toInt?.isNone then
      if (x.abs.pow y).isInf then .error .tooLarge else .error .notReal
    else if x == -1.0 then .ok (.float (if isOdd y then -1.0 else 1.0))
    else powPositive x.abs y (isOdd y)
  else if x == 1.0 then .ok (.float 1.0)
  else powPositive x y false

/-- Powers; a whole base with a negative whole exponent becomes a `Float`. -/
def pow : Number → Number → Except Fault Number :=
  lift
    (fun m n =>
      if 0 ≤ n then .ok (.int (powNat m n.toNat))
      else match (Number.int m).toFloat?, (Number.int n).toFloat? with
        | some x, some y => powFloat x y
        | _, _ => .error .tooLarge)
    powFloat

end CommandScript.Number
