import CommandScript.Proofs.Enclosing
import CommandScript.Proofs.Whole
/-!
# CommandScript — spans that are tight

In a text without issues every part but a block begins where its first token begins and
ends where its last token ends. A rule takes the beginning of its part from the cursor, from
a token it has read or from the part it goes on with, and the end from the token that was
read last. That these are the first and the last token of the part itself is so because
semicolons and what stands behind a statement that leaves its block are read by blocks only,
and the brace behind them closes the part around (`Flush`).
-/

namespace CommandScript

open Outline

/-- The span reaches from where the first of some tokens begins to where the last one ends. -/
def Span.IsTight (s : Span) (ts : List Token) : Prop :=
  ∃ first last, ts.head? = some first ∧ ts.getLast? = some last ∧
    s = ⟨first.span.start, last.span.stop⟩

/-- The part spans its own tokens, unless it is a block. -/
def Outline.IsTight : Outline → Prop
  | .token _ => True
  | .node p cs => p.isBlock = false → p.span.IsTight (tokensOfAll cs)

namespace Built

variable {c d : Cursor} {os : List Outline} {p : Node}

/-- Where tokens reach from end to end of what was read, a span of what was read is tight. -/
theorem isTight_of_fits (h : Built c os d) (hc : c.Sound) (hfits : c.Fits os d)
    (hspan : p.span = d.spanFrom c.offset) : p.span.IsTight (tokensOfAll os) := by
  obtain ⟨⟨first, hfirst, hstart⟩, hlast⟩ := hfits
  have hmem := List.mem_of_head? hfirst
  -- with a token among them, something was read
  have hpos := List.length_pos_of_mem hmem
  have hlength := h.length_tokens_add_le
  obtain ⟨ts, hmoved⟩ := h.moved
  have hforward := hc.offset_le_lastStop hmoved (by omega)
  have hend := List.getLast?_eq_some_getLast (List.ne_nil_of_mem hmem)
  refine ⟨first, _, hfirst, hend, ?_⟩
  rw [hspan, Cursor.spanFrom, Nat.max_eq_right hforward, hstart, Cursor.lastStop, hlast, hend]
  rfl

/-- **What is built without a report spans its own tokens.** -/
theorem isTight (h : Built c os d) (hc : c.Sound) (hquiet : ¬ d.Told) : AllOf IsTight os := by
  induction h with
  | passed => exact allOf_nil
  | token => exact allOf_cons.2 ⟨all_token _, allOf_nil⟩
  | append hfirst hsecond ih ih' =>
    obtain ⟨ts, hmoved⟩ := hfirst.moved
    exact allOf_append.2 ⟨ih hc (mt hsecond.told hquiet), ih' (hmoved.sound hc) hquiet⟩
  | node hos hspan _ _ _ hfits _ ih =>
    refine allOf_cons.2 ⟨all_node.2 ⟨fun _ => ?_, ih hc hquiet⟩, allOf_nil⟩
    exact hos.isTight_of_fits hc (hfits.resolve_left hquiet) hspan
  | block _ _ _ ih => exact allOf_cons.2 ⟨all_node.2 ⟨nofun, ih hc hquiet⟩, allOf_nil⟩
  | left hos hos' _ _ hpassed _ _ ih ih' =>
    have hbefore := mt hpassed.told hquiet
    obtain ⟨ts, hmoved⟩ := hos.moved
    have hall := allOf_append.2
      ⟨ih hc (mt hos'.told hbefore), ih' (hmoved.sound hc) hbefore⟩
    exact allOf_cons.2 ⟨all_node.2 ⟨nofun, hall⟩, allOf_nil⟩

end Built

/-- **In a text without issues, every part but a block begins exactly where its first token
begins and ends exactly where its last token ends.** -/
theorem span_isTight {text : String} {limit : Nat} {b : Block}
    (h : (parse text limit).block = some b) (hclean : (parse text limit).issues = []) :
    ∀ p cs, (p, cs) ∈ (ofBlock b).nodes → p.isBlock = false →
      p.span.IsTight (tokensOfAll cs) := by
  obtain ⟨⟨d, hbuilt, -, hquiet⟩, -⟩ := exists_quiet_of_no_issues h hclean
  obtain ⟨-, -, -, -, -, -, hsound⟩ := Cursor.ofTokens_tokenize text
  intro p cs hp
  exact (allOf_cons.1 (hbuilt.isTight hsound hquiet)).1 (p, cs) hp

/-- Semicolons stand before the assignment, behind it and in the block, a comma stands behind
the last item, and a comment behind everything. -/
theorem span_isTight_semicolons :
    let text := " ; x = [1, ] ; if (x) \x7b ; print 2 ; \x7d -- y"
    ∃ b, (parse text).block = some b ∧ (parse text).issues = [] ∧
      (∃ p cs, (p, cs) ∈ (ofBlock b).nodes ∧ p.isBlock = false ∧ p.span = ⟨15, 37⟩) ∧
      ∀ p cs, (p, cs) ∈ (ofBlock b).nodes → p.isBlock = false →
        p.span.IsTight (tokensOfAll cs) := by
  intro text
  have hread : (parse text).block.any (fun b => (ofBlock b).nodes.any fun q =>
      !q.1.isBlock && q.1.span == ⟨15, 37⟩) = true := by decide +kernel
  have hclean : (parse text).issues = [] := by decide +kernel
  obtain ⟨b, hb, hread⟩ := (Option.any_eq_true ..).1 hread
  obtain ⟨⟨p, cs⟩, hp, hread⟩ := List.any_eq_true.1 hread
  rw [Bool.and_eq_true, Bool.not_eq_true', beq_iff_eq] at hread
  exact ⟨b, hb, hclean, ⟨p, cs, hp, hread⟩, span_isTight hb hclean⟩

end CommandScript
