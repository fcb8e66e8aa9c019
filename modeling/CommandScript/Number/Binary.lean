/-!
# CommandScript — what a floating-point number stands for

A `Float` is read as the number it stands for: nothing, an infinity, or
`± mantissa · 2 ^ exponent` exactly. Comparison, remainder and the way back from
a quotient to the nearest `Float` are then questions about natural numbers.
-/

namespace CommandScript

/-- The number a `Float` stands for. -/
inductive Binary where
  | nan
  | infinite (negative : Bool)
  | finite (negative : Bool) (mantissa : Nat) (exponent : Int)
  deriving DecidableEq, Repr

namespace Binary

/-- A power of two. -/
def twoTo (n : Nat) : Nat := Nat.pow 2 n

/-- The least exponent of a `Float`. -/
def leastExponent : Int := -1074

/-- The fields of a bit pattern of 64 bits. -/
def ofBits (bits : Nat) : Binary :=
  let negative := bits / twoTo 63 % 2 == 1
  let biased : Nat := bits / twoTo 52 % 2048
  let fraction := bits % twoTo 52
  if biased = 2047 then if fraction = 0 then .infinite negative else .nan
  else if biased = 0 then .finite negative fraction leastExponent
  else .finite negative (fraction + twoTo 52) ((biased : Int) - 1075)

/-- The number a `Float` stands for. -/
def ofFloat (x : Float) : Binary := ofBits x.toBits.toNat

/-- A whole number. -/
def ofInt (n : Int) : Binary := .finite (n < 0) n.natAbs 0

/-- The sign bit. -/
def isNegative : Binary → Bool
  | .nan => false
  | .infinite s => s
  | .finite s _ _ => s

/-- The signed count of units `2 ^ unit` in `± mantissa · 2 ^ exponent`, for a
unit at most the exponent. -/
def unitsOf (negative : Bool) (mantissa : Nat) (exponent unit : Int) : Int :=
  let magnitude : Int := ((mantissa * twoTo (exponent - unit).toNat : Nat) : Int)
  if negative then -magnitude else magnitude

/-- The order of two numbers; nothing is comparable with what stands for no
number. -/
def compare? : Binary → Binary → Option Ordering
  | .nan, _ | _, .nan => none
  | .infinite a, .infinite b => some (Ord.compare (!a) (!b))
  | .infinite a, .finite .. => some (if a then .lt else .gt)
  | .finite .., .infinite b => some (if b then .gt else .lt)
  | .finite s m e, .finite t n f =>
    let unit := min e f
    some (Ord.compare (unitsOf s m e unit) (unitsOf t n f unit))

/-- The whole number that `± mantissa · 2 ^ exponent` is, if it is one. -/
def toInt? : Binary → Option Int
  | .finite s m e =>
    if 0 ≤ e then some (unitsOf s m e 0)
    else if m % twoTo (-e).toNat = 0 then some (unitsOf s (m / twoTo (-e).toNat) 0 0)
    else none
  | _ => none

/-- The whole number next to a finite number in the direction of zero. -/
def truncate? : Binary → Option Int
  | .finite s m e =>
    if 0 ≤ e then some (unitsOf s m e 0) else some (unitsOf s (m / twoTo (-e).toNat) 0 0)
  | _ => none

/-- The quotient rounded to the nearest whole number, a half to the even
neighbour. -/
def roundHalfEven (num den : Nat) : Nat :=
  let q := num / den
  let r := num % den
  if 2 * r < den then q else if den < 2 * r then q + 1 else if q % 2 = 0 then q else q + 1

/-- The bit pattern of `mantissa · 2 ^ exponent`, for a mantissa of at most
`2 ^ 53` that is below `2 ^ 52` only at the least exponent. -/
def magnitudeBits (mantissa : Nat) (exponent : Int) : Nat :=
  if mantissa < twoTo 52 then mantissa else (exponent + 1074).toNat * twoTo 52 + mantissa

/-- The nearest `Float` to `± num / den`, a tie to the even neighbour; none where
that is beyond the largest one. -/
def nearest? (negative : Bool) (num den : Nat) : Option Float :=
  let guess : Int := (num.log2 : Int) - den.log2 - 53
  let atLeast := fun (e : Int) => max e leastExponent
  let scaled := fun (e : Int) => (num * twoTo (-e).toNat, den * twoTo e.toNat)
  let low := scaled (atLeast guess)
  let exponent := if low.1 / low.2 < twoTo 53 then atLeast guess else atLeast (guess + 1)
  let (n, d) := scaled exponent
  let bits := magnitudeBits (roundHalfEven n d) exponent
  if num = 0 then some (if negative then -0.0 else 0.0)
  else if 2047 * twoTo 52 ≤ bits then none
  else some (Float.ofBits (UInt64.ofNat (bits + if negative then twoTo 63 else 0)))

/-- A positive or negative infinity. -/
def infinity (negative : Bool) : Float :=
  Float.ofBits (if negative then 0xFFF0000000000000 else 0x7FF0000000000000)

/-- The nearest `Float`, an infinity where the number is beyond the largest one. -/
def nearest (negative : Bool) (num den : Nat) : Float :=
  (nearest? negative num den).getD (infinity negative)

/-- What is left of `a` after taking away whole multiples of `b`, with the sign
of `a`; exact, so no rounding enters. `b` is not zero. -/
def remainder (a b : Float) : Float :=
  match ofFloat a, ofFloat b with
  | .finite s m e, .finite _ n f =>
    let unit := min e f
    let rest := (unitsOf false m e unit).natAbs % (unitsOf false n f unit).natAbs
    nearest s (rest * twoTo unit.toNat) (twoTo (-unit).toNat)
  | .finite .., .infinite _ => a
  | _, _ => 0.0 / 0.0

end Binary

end CommandScript
