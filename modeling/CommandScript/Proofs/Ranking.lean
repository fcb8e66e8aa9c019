import CommandScript.Assist.Rank
import Mathlib.Data.Prod.Lex
import Mathlib.Data.String.Basic
import Mathlib.Data.List.Nodup
import Mathlib.Data.List.Sort
/-!
# CommandScript — what is offered, and in which order

Of each text among the candidates that begins with what was typed, case aside, the first candidate
is chosen and no other one (`filter_chosen`). The order of what is chosen looks at the texts alone
and tells any two of them apart (`rankOf`). So there is one list to offer, whatever the order of the
candidates was, and a limit takes the first part of it.
-/

namespace CommandScript

namespace Completion

/-- What an offer is ordered by: first, whether its text does not begin with what was typed just as
it was typed, then the text in lower case, then the text. -/
def rankOf (typed text : String) : Bool ×ₗ String ×ₗ String :=
  toLex (!beginsWith text typed, toLex (Text.lower text, text))

/-- The candidate with the span it replaces. -/
def filled (c : Completion) (s : Suggestion) : Suggestion :=
  { s with replace := some (s.replace.getD c.replace) }

/-- All there is to offer, in order. -/
def ranked (c : Completion) : List Suggestion :=
  (c.chosen [] c.candidates).mergeSort (precedes c.typed)

variable {c d : Completion} {typed text : String} {s : Suggestion}

theorem replace_filled : (c.filled s).replace = some (s.replace.getD c.replace) := rfl

theorem filled_eq_self {r : Span} (h : s.replace = some r) : c.filled s = s := by
  rw [filled, h, Option.getD_some, ← h]

theorem rankOf_injective (typed : String) : Function.Injective (rankOf typed) := fun _ _ h =>
  congrArg (fun r => (ofLex (ofLex r).2).2) h

/-- Offers are ordered by what their texts are ordered by. -/
theorem precedes_iff {a b : Suggestion} :
    precedes typed a b = true ↔ rankOf typed a.text ≤ rankOf typed b.text := by
  unfold precedes rankOf
  rw [Prod.Lex.toLex_le_toLex, Prod.Lex.toLex_le_toLex]
  dsimp only
  by_cases hlower : Text.lower a.text = Text.lower b.text
  · cases beginsWith a.text typed <;> cases beginsWith b.text typed <;> simp [hlower]
  · cases beginsWith a.text typed <;> cases beginsWith b.text typed <;> simp [hlower]

/-! ## What is chosen -/

/-- **Of each text the first candidate is chosen**, if the text begins with what was typed, case
aside, and was not seen before. -/
theorem filter_chosen (c : Completion) (seen : List String) (l : List Suggestion) (text : String) :
    (c.chosen seen l).filter (·.text == text) =
      if text ∉ seen ∧ beginsWith (Text.lower text) (Text.lower c.typed) = true then
        ((l.find? (·.text == text)).map c.filled).toList
      else [] := by
  induction l generalizing seen with
  | nil => simp [chosen]
  | cons s rest ih =>
    rw [chosen]
    by_cases hs : s.text = text
    · -- the first candidate with this text: it is taken, and none of those behind it is
      subst hs
      split
      next hout =>
        rw [ih, if_neg, if_neg]
        all_goals simpa [or_iff_not_imp_left] using hout
      next hin =>
        have hin : s.text ∉ seen ∧ beginsWith (Text.lower s.text) (Text.lower c.typed) = true := by
          simpa using hin
        have hrest := ih (s.text :: seen)
        rw [if_neg fun h => h.1 List.mem_cons_self] at hrest
        rw [List.filter_cons_of_pos (by simp), hrest, if_pos hin, List.find?_cons_of_pos (by simp)]
        rfl
    · rw [List.find?_cons_of_neg (by simpa using hs)]
      split
      next => exact ih seen
      next =>
        rw [List.filter_cons_of_neg (by simpa using hs), ih]
        simp [Ne.symm hs]

/-- No two of what is chosen have one text. -/
theorem nodup_chosen (c : Completion) : ((c.chosen [] c.candidates).map (·.text)).Nodup := by
  refine List.nodup_iff_count_le_one.2 fun text => ?_
  have hfilter := congrArg List.length (filter_chosen c [] c.candidates text)
  rw [← List.countP_eq_length_filter] at hfilter
  rw [List.count, List.countP_map]
  refine hfilter.trans_le ?_
  split
  · cases (c.candidates.find? (·.text == text)).map c.filled <;> simp
  · simp

theorem length_chosen_le (c : Completion) (seen : List String) (l : List Suggestion) :
    (c.chosen seen l).length ≤ l.length := by
  fun_induction chosen c seen l with
  | case1 => exact le_rfl
  | case2 seen s rest _ ih => exact ih.trans (Nat.le_succ _)
  | case3 seen s rest _ ih => exact Nat.succ_le_succ ih

/-! ## What is offered -/

theorem ranked_perm (c : Completion) : c.ranked.Perm (c.chosen [] c.candidates) :=
  List.mergeSort_perm ..

/-- **Of each text one candidate is offered**, the first one, with the span it replaces, if the text
begins with what was typed, case aside. -/
theorem filter_ranked (c : Completion) (text : String) :
    c.ranked.filter (·.text == text) =
      if beginsWith (Text.lower text) (Text.lower c.typed) then
        ((c.candidates.find? (·.text == text)).map c.filled).toList
      else [] := by
  have hperm := c.ranked_perm.filter (·.text == text)
  rw [filter_chosen] at hperm
  simp only [List.not_mem_nil, not_false_eq_true, true_and] at hperm
  -- a list of one element at most has no other order
  split at hperm
  next hbegins =>
    rw [if_pos hbegins]
    cases hfirst : (c.candidates.find? (·.text == text)).map c.filled with
    | none =>
      rw [hfirst] at hperm
      exact List.perm_nil.1 hperm
    | some s =>
      rw [hfirst] at hperm
      exact List.perm_singleton.1 hperm
  next hbegins =>
    rw [if_neg hbegins]
    exact List.perm_nil.1 hperm

/-- The texts that are offered. -/
theorem mem_texts_ranked : text ∈ c.ranked.map (·.text) ↔
    text ∈ c.candidates.map (·.text) ∧ beginsWith (Text.lower text) (Text.lower c.typed) = true := by
  have hfilter : (∃ s ∈ c.ranked, s.text = text) ↔ c.ranked.filter (·.text == text) ≠ [] := by
    simp [List.filter_eq_nil_iff]
  have hfind : (∃ s ∈ c.candidates, s.text = text) ↔
      (c.candidates.find? (·.text == text)).isSome = true := by
    simp [List.find?_isSome]
  rw [List.mem_map, hfilter, List.mem_map, hfind, filter_ranked]
  split
  next hbegins =>
    rw [and_iff_left hbegins]
    cases c.candidates.find? (·.text == text) <;> simp
  next hbegins => simp [hbegins]

/-- **What is offered is strictly in order.** -/
theorem pairwise_ranked (c : Completion) :
    c.ranked.Pairwise fun a b => rankOf c.typed a.text < rankOf c.typed b.text := by
  have htrans (a b e : Suggestion) (h : precedes c.typed a b = true) (h' : precedes c.typed b e = true) :
      precedes c.typed a e = true :=
    precedes_iff.2 (le_trans (precedes_iff.1 h) (precedes_iff.1 h'))
  have htotal (a b : Suggestion) : (precedes c.typed a b || precedes c.typed b a) = true := by
    rw [Bool.or_eq_true, precedes_iff, precedes_iff]
    exact le_total _ _
  have hsorted : c.ranked.Pairwise fun a b => precedes c.typed a b = true :=
    List.pairwise_mergeSort htrans htotal _
  have hnodup : c.ranked.Pairwise fun a b => a.text ≠ b.text :=
    List.pairwise_map.1 ((c.ranked_perm.map _).nodup_iff.2 (nodup_chosen c))
  exact hsorted.imp₂ (fun _ _ hle hne =>
    lt_of_le_of_ne (precedes_iff.1 hle) fun heq => hne (rankOf_injective _ heq)) hnodup

/-- Where the texts of the candidates are the same, the same texts are offered in the same order. -/
theorem texts_ranked_eq (htyped : d.typed = c.typed)
    (h : ∀ text, text ∈ d.candidates.map (·.text) ↔ text ∈ c.candidates.map (·.text)) :
    d.ranked.map (·.text) = c.ranked.map (·.text) := by
  -- what the texts are ordered by ascends in both lists, so the members say which list it is
  refine List.map_injective_iff.2 (rankOf_injective c.typed) ?_
  have hlt (e : Completion) (he : e.typed = c.typed) :
      ((e.ranked.map (·.text)).map (rankOf c.typed)).Pairwise (· < ·) := by
    rw [List.map_map]
    exact List.pairwise_map.2 (he ▸ pairwise_ranked e)
  refine (hlt d htyped).eq_of_mem_iff (hlt c rfl) fun rank => ?_
  have hsame (text : String) : text ∈ d.ranked.map (·.text) ↔ text ∈ c.ranked.map (·.text) := by
    rw [mem_texts_ranked, mem_texts_ranked, h, htyped]
  rw [List.mem_map, List.mem_map]
  exact exists_congr fun text => and_congr_left' (hsame text)

/-! ## Up to a limit -/

theorem rank_eq_take (c : Completion) (k : Nat) : c.rank k = c.ranked.take k := by
  have hlimit : ¬ (k : Int) < 0 := by omega
  rw [rank, takeUpTo, if_neg hlimit, Int.toNat_natCast]
  rfl

/-- What is offered in the end is a candidate that says what it replaces. -/
theorem mem_candidates_of_mem_rank {limit : Int} (hs : s ∈ c.rank limit) :
    ∃ s' ∈ c.candidates, s = c.filled s' := by
  have hranked : s ∈ c.ranked := List.mem_of_mem_take hs
  have hmem : s ∈ c.ranked.filter (·.text == s.text) := List.mem_filter.2 ⟨hranked, by simp⟩
  rw [filter_ranked] at hmem
  split at hmem
  · obtain ⟨s', hfind, rfl⟩ := Option.map_eq_some_iff.1 (Option.mem_toList.1 hmem)
    exact ⟨s', List.mem_of_find?_eq_some hfind, rfl⟩
  · cases hmem

/-- Where no more than the limit were chosen, all of them are offered. -/
theorem mem_rank {limit : Nat} (h : (c.chosen [] c.candidates).length ≤ limit)
    (hs : s ∈ c.chosen [] c.candidates) : s ∈ c.rank limit := by
  rw [rank_eq_take, List.take_of_length_le (by rwa [c.ranked_perm.length_eq])]
  exact c.ranked_perm.mem_iff.2 hs

/-- **What is offered is one list and its beginnings.** There is a list that is strictly in order, and
of each text that begins with what was typed, case aside, it has the first candidate and no other one,
with the span it replaces; a limit takes as much of it from the front. So the texts that are offered
do not depend on how often a text is among the candidates and in which order, and a smaller limit
takes less of the same. -/
theorem rank_canonical (c : Completion) :
    ∃ offers : List Suggestion,
      (offers.Pairwise fun a b => rankOf c.typed a.text < rankOf c.typed b.text) ∧
      (∀ text, offers.filter (·.text == text) =
        if beginsWith (Text.lower text) (Text.lower c.typed) then
          ((c.candidates.find? (·.text == text)).map c.filled).toList
        else []) ∧
      (∀ k : Nat, c.rank k = offers.take k) ∧
      (∀ d : Completion, d.typed = c.typed →
        (∀ text, text ∈ d.candidates.map (·.text) ↔ text ∈ c.candidates.map (·.text)) →
        ∀ k : Nat, (d.rank k).map (·.text) = (c.rank k).map (·.text)) ∧
      ∀ j k : Nat, j ≤ k → c.rank j <+: c.rank k := by
  refine ⟨c.ranked, pairwise_ranked c, filter_ranked c, rank_eq_take c, ?_, ?_⟩
  · intro d htyped htexts k
    rw [rank_eq_take, rank_eq_take, List.map_take, List.map_take, texts_ranked_eq htyped htexts]
  · intro j k hjk
    rw [rank_eq_take, rank_eq_take]
    exact List.take_prefix_take_left hjk

/-- Two candidates have one text, and another one differs from it in case; in the other order, the
same texts are offered. -/
theorem rank_canonical_reversed :
    let candidates : List Suggestion := [.plain "Print", { Suggestion.plain "print" with display := "first" },
      .plain "printf", { Suggestion.plain "print" with display := "second", replace := some ⟨0, 9⟩ }]
    let c : Completion := { replace := ⟨4, 6⟩, candidates, typed := "pr" }
    let d : Completion := { c with candidates := candidates.reverse }
    d.typed = c.typed ∧
      (∀ text, text ∈ d.candidates.map (·.text) ↔ text ∈ c.candidates.map (·.text)) ∧
      (d.rank 2).map (·.text) = (c.rank 2).map (·.text) ∧ 1 ≤ 2 ∧ c.rank 1 <+: c.rank 2 := by
  intro candidates c d
  have htexts : ∀ text, text ∈ d.candidates.map (·.text) ↔ text ∈ c.candidates.map (·.text) := by
    intro text
    rw [List.map_reverse, List.mem_reverse]
  obtain ⟨-, -, -, -, horder, hlimit⟩ := rank_canonical c
  exact ⟨rfl, htexts, horder d rfl htexts 2, by decide, hlimit 1 2 (by decide)⟩

end Completion

end CommandScript
