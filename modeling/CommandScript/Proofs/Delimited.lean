import CommandScript.Proofs.Parts
import CommandScript.Proofs.Phrases
/-!
# CommandScript — spans of what stands between brackets

There are two ways to say how far a vector, a table or a pair of parentheses reaches. The
parser goes by what it read last. The brackets go by the closing token, or where that is
missing by what stands behind the opening one. The two agree in every tree that is read,
whatever is missing in it: whether an expression, a field or a list is complete or not,
what was read last is where its own span ends (`Cursor.StopsAt`).
-/

namespace CommandScript

open Outline

/-- **The parts of a tree hang together**, each by the tokens that the grammar reads. -/
theorem Built.eachOf_coheres {c d : Cursor} {os : List Outline} {ts : List Token}
    (h : Built c os d) (hts : c.trail <:+: ts) : EachOf (Node.Coheres ts) os := by
  induction h with
  | passed => exact eachOf_nil
  | token => exact eachOf_cons.2 ⟨each_token _, eachOf_nil⟩
  | append hos _ ih ih' =>
    obtain ⟨us, hmoved⟩ := hos.moved
    exact eachOf_append.2 ⟨ih hts, ih' (hmoved.trail.isInfix.trans hts)⟩
  | node _ _ _ _ _ _ hcoheres ih =>
    exact eachOf_cons.2 ⟨(each_node _).2 ⟨hcoheres.mono hts, ih hts⟩, eachOf_nil⟩
  | block _ _ _ ih => exact eachOf_cons.2 ⟨(each_node _).2 ⟨trivial, ih hts⟩, eachOf_nil⟩
  | left hos _ _ _ _ _ _ ih ih' =>
    obtain ⟨us, hmoved⟩ := hos.moved
    have hall := eachOf_append.2 ⟨ih hts, ih' (hmoved.trail.isInfix.trans hts)⟩
    exact eachOf_cons.2 ⟨(each_node _).2 ⟨trivial, hall⟩, eachOf_nil⟩

/-- The parts of the tree of a text hang together by the tokens that the grammar sees. -/
theorem each_coheres_of_parse {text : String} {limit : Nat} {b : Block}
    (h : (parse text limit).block = some b) :
    (ofBlock b).Each (Node.Coheres (Cursor.ofTokens (Token.tokenize text)).upcoming) := by
  obtain ⟨d, hbuilt, -, -⟩ := exists_built_of_parse h
  exact (eachOf_cons.1 (hbuilt.eachOf_coheres List.infix_rfl)).1

/-- **The two spans of what stands between brackets agree**, in the tree of every text: for
vectors, tables and parentheses, the span that was recorded while reading is the one that
the brackets and what is in them give. -/
theorem span_eq_of_brackets {text : String} {limit : Nat} {b : Block}
    (h : (parse text limit).block = some b) :
    (∀ brackets items s, .expression (.vector brackets items s) ∈ (ofBlock b).parts →
      s = brackets.listSpan items) ∧
    (∀ brackets fields s, .expression (.table brackets fields s) ∈ (ofBlock b).parts →
      s = brackets.listSpan fields) ∧
    ∀ brackets inner s, .expression (.group brackets inner s) ∈ (ofBlock b).parts →
      s = brackets.expressionSpan inner := by
  have hall := each_coheres_of_parse h
  exact ⟨fun _ _ _ => hall _, fun _ _ _ => hall _, fun _ _ _ => hall _⟩

/-- A vector is not closed, nor is the table or the parenthesis in it; a comma has no item
before it, and the sum lacks its second operand. -/
theorem span_eq_of_brackets_open :
    let text := "x = [1,, \x7ba = (2 + -- y"
    ∃ b brackets items s, (parse text).block = some b ∧
      .expression (.vector brackets items s) ∈ (ofBlock b).parts ∧
      brackets.right = none ∧ s = ⟨4, 18⟩ ∧ s = brackets.listSpan items := by
  intro text
  have hread : (parse text).block.any (fun b => (ofBlock b).parts.any fun
      | .expression (.vector brackets _ s) => brackets.right.isNone && s == ⟨4, 18⟩
      | _ => false) = true := by decide +kernel
  obtain ⟨b, hb, hread⟩ := (Option.any_eq_true ..).1 hread
  obtain ⟨p, hp, hread⟩ := List.any_eq_true.1 hread
  split at hread
  · next brackets items s =>
    rw [Bool.and_eq_true, Option.isNone_iff_eq_none, beq_iff_eq] at hread
    exact ⟨b, brackets, items, s, hb, hp, hread.1, hread.2, (span_eq_of_brackets hb).1 _ _ _ hp⟩
  · cases hread

end CommandScript
