import CommandScript.Proofs.Lexed
import Mathlib.Logic.ExistsUnique
/-!
# CommandScript — nothing of a text is lost

Cut into tokens, a text can be put together again: the texts of its tokens, one
behind the other, are the text. Each token's text is what stands under its span, and
each character of the text belongs to one token alone.

The walk remembers how many characters the token before it still covers, so what it
has yet to give is the text without them: this is what its steps keep.
-/

namespace CommandScript

namespace Token

/-- The text that the tokens make up, one behind the other. -/
def joined (ts : List Token) : String := String.join (ts.map (·.text))

@[simp] theorem toList_joined (ts : List Token) :
    (joined ts).toList = ts.flatMap (·.text.toList) := by
  rw [joined, String.toList_join, List.flatMap_map]

/-- **The tokens make up what the walk has yet to cut**, which is the text without what is
covered already. -/
theorem walk_joined (cs : List Char) (offset covered : Nat) (around : Surroundings) :
    (walk offset around covered cs).flatMap (·.text.toList) = cs.drop covered := by
  induction cs generalizing offset covered around with
  | nil => rw [walk, List.drop_nil]; rfl
  | cons c rest ih =>
    cases covered with
    | succ covered => rw [walk, ih, List.drop_succ_cons]
    | zero =>
      have htail : (Lexeme.scan c rest).tail ++ rest.drop (Lexeme.scan c rest).tail.length = rest :=
        List.prefix_iff_eq_append.1 (Lexeme.scan_tail_isPrefix c rest)
      rw [walk, List.flatMap_cons, ih, String.toList_ofList, List.cons_append, htail,
        List.drop_zero]

/-- **A token's text is what stands under its span.** -/
theorem walk_slice (cs before : List Char) (covered : Nat) (around : Surroundings) :
    ∀ t ∈ walk before.length around covered cs, t.text.toList = t.span.slice (before ++ cs) := by
  induction cs generalizing before covered around with
  | nil =>
    intro t ht
    rw [walk, List.mem_singleton] at ht
    subst ht
    simp [Span.slice, Span.point]
  | cons c rest ih =>
    -- the character passed on is one more of those before
    have hrest := ih (before ++ [c])
    rw [List.length_append, List.append_assoc] at hrest
    cases covered with
    | succ covered => exact fun t ht => hrest covered around t (by rwa [walk] at ht)
    | zero =>
      intro t ht
      rw [walk] at ht
      obtain rfl | ht := List.mem_cons.1 ht
      · have htail := List.prefix_iff_eq_take.1 (Lexeme.scan_tail_isPrefix c rest)
        have hlen : before.length + 1 + (Lexeme.scan c rest).tail.length - before.length =
            (Lexeme.scan c rest).tail.length + 1 := by omega
        rw [String.toList_ofList, Span.slice, List.drop_left, hlen, List.take_succ_cons, ← htail]
      · exact hrest _ _ t ht

/-- The text of a token of a text is what stands under its span. -/
theorem text_eq_slice {text : String} {t : Token} (ht : t ∈ tokenize text) :
    t.text.toList = t.span.slice text.toList :=
  walk_slice text.toList [] 0 {} t ht

namespace Tiles

variable {start stop : Nat} {ts : List Token}

/-- Every place of what is tiled lies in one of the tokens. -/
theorem exists_mem (h : Tiles start ts stop) {k : Nat} (hk : start ≤ k) (hk' : k < stop) :
    ∃ t ∈ ts, t.span.start ≤ k ∧ k < t.span.stop := by
  induction ts generalizing start with
  | nil =>
    have hend : start = stop := h
    omega
  | cons t rest ih =>
    obtain ⟨hstart, -, -, hrest⟩ := h
    by_cases hin : k < t.span.stop
    · exact ⟨t, List.mem_cons_self, by omega, hin⟩
    · obtain ⟨u, hu, hspan⟩ := ih hrest (by omega)
      exact ⟨u, List.mem_cons_of_mem _ hu, hspan⟩

/-- No place lies in two of the tokens. -/
theorem eq_of_mem (h : Tiles start ts stop) {t u : Token} (ht : t ∈ ts) (hu : u ∈ ts) {k : Nat}
    (hkt : t.span.start ≤ k ∧ k < t.span.stop) (hku : u.span.start ≤ k ∧ k < u.span.stop) :
    t = u := by
  induction ts generalizing start with
  | nil => exact absurd ht List.not_mem_nil
  | cons v rest ih =>
    obtain ⟨-, -, -, hrest⟩ := h
    -- what stands behind the first token begins where it ends
    have hbehind {w : Token} (hw : w ∈ rest) : v.span.stop ≤ w.span.start := hrest.start_le hw
    obtain rfl | htin := List.mem_cons.1 ht
    · obtain rfl | huin := List.mem_cons.1 hu
      · rfl
      · have := hbehind huin
        omega
    · obtain rfl | huin := List.mem_cons.1 hu
      · have := hbehind htin
        omega
      · exact ih hrest htin huin

end Tiles

/-- **Nothing of a text is lost.** Every text is cut into tokens, and their texts, one behind
the other, are the text. Their spans tile it, so that each of its characters lies in one
token alone, and the text of each is what stands under its span. All of them but the last
have a text; the last has none and is the only one that stands for the end. -/
theorem tokenize_lossless (text : String) :
    joined (tokenize text) = text ∧
    (∀ t ∈ tokenize text, t.span.Ordered ∧ t.span.stop ≤ text.toList.length ∧
      t.text.toList = t.span.slice text.toList) ∧
    (∀ k < text.toList.length, ∃! t, t ∈ tokenize text ∧ t.span.start ≤ k ∧ k < t.span.stop) ∧
    ∃ ts ending, tokenize text = ts ++ [ending] ∧
      Tiles 0 ts text.toList.length ∧ ending.span = .point text.toList.length ∧
      (∀ t ∈ ts, t.kind ≠ .endOfInput ∧ t.text ≠ "") ∧
      ending.kind = .endOfInput ∧ ending.text = "" := by
  obtain ⟨ts, ending, htokens, htiles, hkind, hspan⟩ := tokenize_tiles text
  have hslice {t : Token} (ht : t ∈ ts ++ [ending]) : t.text.toList = t.span.slice text.toList :=
    text_eq_slice (htokens ▸ ht)
  have hnone {k : Nat} (hk : ending.span.start ≤ k ∧ k < ending.span.stop) : False := by
    simp only [hspan, Span.point] at hk
    omega
  refine ⟨?joined, ?placed, ?alone, ts, ending, htokens, htiles, hspan, ?filled, hkind, ?empty⟩
  case joined =>
    rw [← String.toList_inj, toList_joined]
    exact walk_joined text.toList 0 0 {}
  case placed =>
    rw [htokens]
    intro t ht
    obtain hin | hlast := List.mem_append.1 ht
    · exact ⟨Nat.le_of_lt (htiles.filled hin), htiles.stop_le hin, hslice ht⟩
    · obtain rfl := List.mem_singleton.1 hlast
      refine ⟨?_, ?_, hslice ht⟩ <;> rw [hspan]
      · exact Span.point_ordered _
      · exact Nat.le_refl _
  case alone =>
    intro k hk
    rw [htokens]
    obtain ⟨t, ht, hkt⟩ := htiles.exists_mem (Nat.zero_le k) hk
    refine ⟨t, ⟨List.mem_append_left _ ht, hkt⟩, fun u ⟨hu, hku⟩ => ?_⟩
    obtain hu | hlast := List.mem_append.1 hu
    · exact htiles.eq_of_mem hu ht hku hkt
    · obtain rfl := List.mem_singleton.1 hlast
      exact (hnone hku).elim
  case filled =>
    intro t ht
    refine ⟨htiles.kind_ne_endOfInput ht, fun hempty => ?_⟩
    have hlen : (t.span.slice text.toList).length = 0 := by
      rw [← hslice (List.mem_append_left _ ht), hempty]; rfl
    have hfilled := htiles.filled ht
    have hstop := htiles.stop_le ht
    rw [Span.slice, List.length_take, List.length_drop] at hlen
    omega
  case empty =>
    have hend := hslice (List.mem_append_right _ (List.mem_singleton_self ending))
    rw [hspan, Span.slice, Span.point, Nat.sub_self, List.take_zero] at hend
    exact String.toList_inj.1 hend

end Token

end CommandScript
