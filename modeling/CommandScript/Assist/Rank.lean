import CommandScript.Shape.Basic
import CommandScript.Text.Case
/-!
# CommandScript — ranking what is offered

Of the candidates for a place, those are offered whose text begins with what was
typed, case aside; each text once. Those that begin with it as it was typed come
first, and otherwise the order is alphabetical.
-/

namespace CommandScript

/-- What is known about the place of the caret. -/
structure PlaceInfo where
  name : String
  description : Option String
  type : String
  deriving DecidableEq, Repr

/-- What could stand at the caret. -/
structure Completion where
  /-- What an offer replaces, unless it says so itself. -/
  replace : Span
  candidates : List Suggestion
  /-- What was typed so far. -/
  typed : String
  info : Option PlaceInfo := none

namespace Completion

/-- The text begins with another one. -/
def beginsWith (text start : String) : Bool := start.toList.isPrefixOf text.toList

/-- The order of offers: exact case before other, then the text in lower case,
then the text. -/
def precedes (typed : String) (a b : Suggestion) : Bool :=
  let exactA := beginsWith a.text typed
  let exactB := beginsWith b.text typed
  if exactA != exactB then exactA
  else
    let (x, y) := (Text.lower a.text, Text.lower b.text)
    if x != y then decide (x < y) else decide (a.text ≤ b.text)

/-- The first candidate of each text that begins with what was typed, with the
span it replaces filled in. -/
def chosen (c : Completion) (seen : List String) : List Suggestion → List Suggestion
  | [] => []
  | s :: rest =>
    if seen.contains s.text || !beginsWith (Text.lower s.text) (Text.lower c.typed) then
      chosen c seen rest
    else { s with replace := some (s.replace.getD c.replace) } :: chosen c (s.text :: seen) rest

/-- The part of a list up to a place, which counts from the end if it is
negative. -/
def takeUpTo (limit : Int) (l : List α) : List α :=
  l.take (if limit < 0 then (l.length + limit).toNat else limit.toNat)

/-- What is offered, no more than the limit. -/
def rank (c : Completion) (limit : Int) : List Suggestion :=
  takeUpTo limit ((c.chosen [] c.candidates).mergeSort (precedes c.typed))

end Completion

end CommandScript
