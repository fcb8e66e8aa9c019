import CommandScript.Number.Binary
/-!
# CommandScript — decimal text of numbers

A `Float` is written with the fewest significant digits that read back as the
same `Float`. `Decimal.shortest` finds them: on the decimal grids of one, two, …
seventeen digits it looks at the two neighbours of the number, and the first
grid that has one inside the interval of reals which round to the number gives
the digits. How digits are laid out — when the point is placed among them and
when an exponent is written — is one record, `Decimal.Layout`.

Whole numbers have no such choice, only a limit: past `Decimal.digitLimit`
digits they have no decimal text.
-/

namespace CommandScript

/-- The number `digits · 10 ^ exponent`. -/
structure Decimal where
  digits : Nat
  exponent : Int
  deriving DecidableEq, Repr

namespace Decimal

/-- A power of ten. -/
def tenTo (n : Nat) : Nat := Nat.pow 10 n

theorem tenTo_pos (n : Nat) : 0 < tenTo n := Nat.pow_pos (by decide)

/-- No whole number of more digits is written out or read in. -/
def digitLimit : Nat := 4300

/-- Remove zeros at the end, at most `fuel` of them. -/
def strip : Nat → Decimal → Decimal
  | 0, d => d
  | fuel + 1, d =>
    if d.digits ≠ 0 ∧ d.digits % 10 = 0 then strip fuel ⟨d.digits / 10, d.exponent + 1⟩ else d

/-- The exponent of the leading digit of `num / den`, both positive. -/
def leadingExponent (num den : Nat) : Int :=
  if den ≤ num then ((Nat.toDigits 10 (num / den)).length : Int) - 1
  else -((((List.range 400).find? fun j => den ≤ num * tenTo (j + 1)).getD 0 : Nat) + 1 : Int)

/-- An interval of reals around `value`, all over the common denominator
`scale`. -/
structure Window where
  low : Nat
  value : Nat
  high : Nat
  scale : Nat
  closed : Bool

namespace Window

/-- The reals that round to `mantissa · 2 ^ exponent`. The gap below is half as
wide where the mantissa is the least of its exponent, and the ends belong to the
even neighbour. -/
def around (mantissa : Nat) (exponent : Int) : Window :=
  let up := Binary.twoTo (exponent - 2).toNat
  let below := if mantissa = Binary.twoTo 52 ∧ Binary.leastExponent < exponent then 1 else 2
  { low := (4 * mantissa - below) * up
    value := 4 * mantissa * up
    high := (4 * mantissa + 2) * up
    scale := Binary.twoTo (2 - exponent).toNat
    closed := mantissa % 2 == 0 }

/-- `candidate · 10 ^ exponent` lies in the window. -/
def holds (w : Window) (exponent : Int) (candidate : Nat) : Bool :=
  let c := candidate * tenTo exponent.toNat * w.scale
  let p := tenTo (-exponent).toNat
  if w.closed then w.low * p ≤ c && c ≤ w.high * p else w.low * p < c && c < w.high * p

/-- The better neighbour of the value on the grid of multiples of
`10 ^ exponent`, if one lies in the window: the nearer, and of two equally near
the even one. -/
def neighbour? (w : Window) (exponent : Int) : Option Nat :=
  let unit := tenTo exponent.toNat * w.scale
  let target := w.value * tenTo (-exponent).toNat
  let below := target / unit
  match w.holds exponent below && below ≠ 0, w.holds exponent (below + 1) with
  | false, false => none
  | true, false => some below
  | false, true => some (below + 1)
  | true, true => some (Binary.roundHalfEven target unit)

end Window

/-- The decimal with the fewest digits that reads back as
`mantissa · 2 ^ exponent`, a positive number. -/
def shortest (mantissa : Nat) (exponent : Int) : Decimal :=
  let w := Window.around mantissa exponent
  let top := leadingExponent w.value w.scale
  let grids := (List.range 17).map fun n : Nat => top - (n : Int)
  let found := grids.findSome? fun e => (w.neighbour? e).map fun d => (⟨d, e⟩ : Decimal)
  strip 20 (found.getD ⟨0, 0⟩)

/-- How the digits of a decimal are set. -/
structure Layout where
  /-- The least exponent of the leading digit at which no exponent is written. -/
  leastPositional : Int
  /-- The first exponent from which on an exponent is written. -/
  firstScientific : Int
  /-- The least number of digits of an exponent. -/
  exponentDigits : Nat
  /-- What follows a whole number. -/
  wholeMark : String

/-- Exponents from -4 to 15 are written positionally, whole numbers keep `.0`,
and an exponent has a sign and at least two digits. -/
def Layout.standard : Layout := ⟨-4, 16, 2, ".0"⟩

/-- The text of a positive decimal. -/
def text (l : Layout) (d : Decimal) : String :=
  let cs := Nat.toDigits 10 d.digits
  let lead : Int := d.exponent + cs.length - 1
  if l.leastPositional ≤ lead && lead < l.firstScientific then
    if 0 ≤ d.exponent then
      String.ofList (cs ++ List.replicate d.exponent.toNat '0') ++ l.wholeMark
    else if 0 ≤ lead then
      String.ofList (cs.take (lead.toNat + 1)) ++ "." ++ String.ofList (cs.drop (lead.toNat + 1))
    else
      "0." ++ String.ofList (List.replicate ((-lead).toNat - 1) '0' ++ cs)
  else
    let mantissa := match cs with
      | [c] => String.ofList [c]
      | c :: rest => String.ofList (c :: '.' :: rest)
      | [] => ""
    let power := Nat.toDigits 10 lead.natAbs
    mantissa ++ "e" ++ (if lead < 0 then "-" else "+") ++
      String.ofList (List.replicate (l.exponentDigits - power.length) '0' ++ power)

/-- The text of a `Float`. -/
def ofFloat (x : Float) : String :=
  match Binary.ofFloat x with
  | .nan => "nan"
  | .infinite s => if s then "-inf" else "inf"
  | .finite s m e =>
    (if s then "-" else "") ++
      if m = 0 then "0" ++ Layout.standard.wholeMark else text .standard (shortest m e)

/-- The text of a whole number, unless it has too many digits. -/
def ofInt? (n : Int) : Option String :=
  if n.natAbs < tenTo digitLimit then some (toString n) else none

/-- How many binary digits a number has. -/
def bitLength (n : Nat) : Nat := if n = 0 then 0 else n.log2 + 1

/-- The number that decimal digits denote. -/
def natOfDigits (cs : List Char) : Nat :=
  cs.foldl (fun n c => 10 * n + (c.toNat - '0'.toNat)) 0

/-- The `Float` nearest to digits, a point, and more digits. -/
def readFloat (whole fraction : List Char) : Float :=
  Binary.nearest false (natOfDigits (whole ++ fraction)) (tenTo fraction.length)

end Decimal

end CommandScript
