import CommandScript.Text.Letter
import CommandScript.Text.Table.LowerCase
import CommandScript.Text.Table.UpperCase
import CommandScript.Text.Table.Sigma
/-!
# CommandScript — lower and upper case

Case is a mapping of texts, not of characters: some characters map to a
sequence, and the capital sigma is written differently at the end of a word.
`lower` and `upper` follow the full mappings of Unicode 14.
-/

namespace CommandScript.Text

/-- The distance to the partner of a code point, if a run lists the code point. -/
def shiftIn (runs : List (Nat × Nat × Nat × Int)) (n : Nat) : Option Int :=
  (runs.find? fun r => r.1 ≤ n && n ≤ r.2.1 && (n - r.1) % r.2.2.1 == 0).map (·.2.2.2)

/-- The code point moved by what its run says. -/
def shiftBy (runs : List (Nat × Nat × Nat × Int)) (c : Char) : Char :=
  match shiftIn runs c.toNat with
  | some d => Char.ofNat ((c.toNat : Int) + d).toNat
  | none => c

/-- The character is skipped when the surroundings of a sigma are looked at. -/
def isCaseIgnorable (c : Char) : Bool :=
  if c.val < 128 then [39, 46, 58, 94, 96].contains c.toNat
  else inRanges Table.caseIgnorable c.toNat

/-- The character is a cased letter. -/
def isCased (c : Char) : Bool :=
  if c.val < 128 then c.isAlpha else inRanges Table.cased c.toNat

/-- The first character that is not skipped is a cased letter. -/
def meetsCased (cs : List Char) : Bool :=
  ((cs.dropWhile isCaseIgnorable).head?.map isCased).getD false

/-- The lower case of one character, given the characters before it, nearest
first, and those after it. -/
def lowerAt (before : List Char) (c : Char) (after : List Char) : List Char :=
  if c.val < 128 then [if c.isUpper then Char.ofNat (c.toNat + 32) else c]
  else if c.toNat = 0x3A3 then
    [if meetsCased before && !meetsCased after then Char.ofNat 0x3C2 else Char.ofNat 0x3C3]
  else if c.toNat = 0x130 then ['i', Char.ofNat 0x307]
  else [shiftBy Table.lowerRuns c]

/-- The lower case of what is left of a text, given what went before, nearest
first. -/
def lowerAfter (before : List Char) : List Char → List Char
  | [] => []
  | c :: rest => lowerAt before c rest ++ lowerAfter (c :: before) rest

/-- The lower case of a text. -/
def lower (s : String) : String := String.ofList (lowerAfter [] s.toList)

/-- The upper case of one character. -/
def upperOf (c : Char) : List Char :=
  if c.val < 128 then [if c.isLower then Char.ofNat (c.toNat - 32) else c]
  else match Table.upperSequences.find? (·.1 == c.toNat) with
    | some (_, cs) => cs.map Char.ofNat
    | none => [shiftBy Table.upperRuns c]

/-- The upper case of a text. -/
def upper (s : String) : String := String.ofList (s.toList.flatMap upperOf)

end CommandScript.Text
