import CommandScript.Text.Table.Letters
import CommandScript.Text.Table.Numerals
import CommandScript.Text.Table.Words
import CommandScript.Text.Table.Unprintable
/-!
# CommandScript — classes of characters

Which characters are letters, numerals, parts of a word, or have a printed form.
Each class is decided by a rule of two lines below code point 128 and by a table
of Unicode 14 from there on, so what the tables hold never touches a statement
about ASCII text.
-/

namespace CommandScript.Text

/-- The code point lies in one of the ranges, both ends included. -/
def inRanges (ranges : List (Nat × Nat)) (n : Nat) : Bool :=
  ranges.any fun r => r.1 ≤ n && n ≤ r.2

/-- A letter of any script. -/
def isLetter (c : Char) : Bool :=
  if c.val < 128 then c.isAlpha else inRanges Table.letters c.toNat

/-- A letter, or a character with a numeric value. -/
def isLetterOrNumeral (c : Char) : Bool :=
  isLetter c || if c.val < 128 then c.isDigit else inRanges Table.numerals c.toNat

/-- The character may begin a word in the sense of Unicode's identifiers; the
underscore counts. -/
def startsWord (c : Char) : Bool :=
  if c.val < 128 then c.isAlpha || c == '_'
  else inRanges Table.startsBeyondLetters c.toNat ||
    (inRanges Table.letters c.toNat && !inRanges Table.lettersNotStarting c.toNat)

/-- The character may stand in a word after its first. -/
def continuesWord (c : Char) : Bool :=
  startsWord c || if c.val < 128 then c.isDigit else inRanges Table.continuations c.toNat

/-- The text is one word of Unicode's identifier syntax. -/
def isWord : List Char → Bool
  | [] => false
  | c :: rest => startsWord c && rest.all continuesWord

/-- The character has a printed form of its own; a blank is the only separator
that has one. -/
def isPrintable (c : Char) : Bool :=
  if c.val < 128 then 32 ≤ c.val && c.val < 127 else !inRanges Table.unprintable c.toNat

theorem isLetterOrNumeral_of_isLetter {c : Char} (h : isLetter c = true) :
    isLetterOrNumeral c = true := by simp [isLetterOrNumeral, h]

theorem continuesWord_of_startsWord {c : Char} (h : startsWord c = true) :
    continuesWord c = true := by simp [continuesWord, h]

end CommandScript.Text
