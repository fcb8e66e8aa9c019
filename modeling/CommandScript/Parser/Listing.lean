import CommandScript.Parser.Cursor
/-!
# CommandScript — lists with separators

One loop reads every list of the grammar: the items of a vector, the fields of a
table, parameters, and returned values. Each element keeps the comma behind it.
A comma without an element before it makes an item without a value, and a missing
comma between two elements is reported and read over.
-/

namespace CommandScript

/-- What a list is made of, and where it begins and ends. -/
structure Listing (α : Type) where
  element : Parse (Option α)
  /-- An element begins here. -/
  starts : Cursor → Bool
  /-- The list is over here. -/
  ends : Cursor → Bool
  /-- What an element is called in messages. -/
  what : String := "expression"

namespace Listing

/-- Read a list, in at most the given number of rounds. The end of the text ends
any list. -/
def rounds (l : Listing α) (before : Option Nat) : Nat → Parse (Separated α)
  | 0 => do Parse.stall; pure []
  | n + 1 => do
    let c ← get
    if c.atEnd || l.ends c then return []
    if !(← Parse.progressed before) then return []
    let value ← if l.starts c then l.element else pure none
    if value.isNone then
      if !(← get).sees .comma then return []
      Parse.reportHere .expectedExpression ("Expected " ++ l.what)
    let separator ← Parse.eat .comma
    let item : SeparatedItem α := ⟨value, separator, ← Parse.spanFrom c.offset⟩
    let now ← get
    if separator.isNone && !l.ends now then
      if !l.starts now then return [item]
      Parse.report (.of .missingSeparator now.token.span)
    return item :: (← rounds l (some c.offset) n)

/-- Read a list. Every round reads a token, so there are no more rounds than
tokens. -/
def read (l : Listing α) : Parse (Separated α) := do
  l.rounds none ((← get).upcoming.length + 1)

end Listing

end CommandScript
