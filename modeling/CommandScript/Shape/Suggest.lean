import CommandScript.Shape.Describe
import CommandScript.Token.Lexeme
/-!
# CommandScript — what to offer for a shape

The texts worth offering where a value of a shape is expected. Only literals, and
shapes of the host's own, say what they would like; unions and intersections offer
what their members offer.
-/

namespace CommandScript.Shape

/-- A literal value as it is typed: a word where that is possible. -/
def literalText (h : Heap) : Value → Except Crash String
  | .string s => if isIdentifier s.toList then .ok s else h.format (.string s)
  | v => h.format v

mutual

/-- What to offer for a shape, where `text` was typed. -/
def suggest (h : Heap) (text : String) : Shape → Except Crash (List Suggestion)
  | .literal v => do return [.plain (← literalText h v)]
  | .union members | .intersection members => suggestAll h text members
  | .strange _ _ _ offers => suggestOffers h text offers
  | _ => .ok []

def suggestAll (h : Heap) (text : String) : List Shape → Except Crash (List Suggestion)
  | [] => .ok []
  | s :: rest => do return (← suggest h text s) ++ (← suggestAll h text rest)

def suggestOffers (h : Heap) (text : String) : Option Offers → Except Crash (List Suggestion)
  | none => .ok []
  | some (.shape s) => if s.isShape then suggest h text s else .error (refuseCall s)
  | some (.callback offer) => .ok (offer text)

end

end CommandScript.Shape
