import CommandScript.Proofs.Ranking
import Mathlib.Tactic.Lift
/-!
# CommandScript — lower case and what was typed

Lower case is not a matter of one character after the other: a capital sigma at the end of a word
has another small letter than inside of one. So the lower case of what was typed begins the lower
case of what it was typed for, unless it ends in such a sigma and the word goes on behind it
(`lowerAfter_isPrefix_iff`). All other characters are written in lower case without a look at
what is around them.
-/

namespace CommandScript

namespace Text

variable {before after p q : List Char} {c : Char}

/-- The text comes to its end in a capital sigma that ends a word: a cased letter stands before it,
and nothing behind it but what is skipped. The text that goes before is given nearest first. -/
def EndsInSigma (before cs : List Char) : Prop :=
  ∃ u v, cs = u ++ 'Σ' :: v ∧ meetsCased (u.reverse ++ before) = true ∧
    ∀ x ∈ v, isCaseIgnorable x = true

/-! ## The surroundings of a sigma -/

/-- What is skipped is passed over, and nothing is looked at behind what is not. -/
theorem meetsCased_append (after q : List Char) : meetsCased (after ++ q) =
    if after.all isCaseIgnorable then meetsCased q else meetsCased after := by
  induction after with
  | nil => rfl
  | cons x rest ih =>
    unfold meetsCased at ih ⊢
    rw [List.cons_append, List.dropWhile_cons, List.dropWhile_cons, List.all_cons]
    cases isCaseIgnorable x with
    | true => exact ih
    | false => rfl

theorem meetsCased_of_all (h : after.all isCaseIgnorable = true) : meetsCased after = false := by
  have hnil := meetsCased_append after []
  rwa [List.append_nil, if_pos h] at hnil

/-- A sigma is the last one of its word without the text behind and not with it, exactly if nothing
but what is skipped lies between. -/
theorem meetsCased_append_ne_iff :
    meetsCased (after ++ q) ≠ meetsCased after ↔
      (∀ x ∈ after, isCaseIgnorable x = true) ∧ meetsCased q = true := by
  rw [meetsCased_append, ← List.all_eq_true]
  split
  next h => rw [meetsCased_of_all h, ne_eq, Bool.not_eq_false, and_iff_right h]
  next h => exact iff_of_false (fun hne => hne rfl) fun hall => h hall.1

/-! ## Lower case step by step -/

/-- A character is written as long in lower case whatever is behind it. -/
theorem length_lowerAt (before : List Char) (c : Char) (after after' : List Char) :
    (lowerAt before c after).length = (lowerAt before c after').length := by
  unfold lowerAt
  split
  · rfl
  · split <;> rfl

/-- **What is behind a character matters to a sigma alone**, and to that only if it is the last one
of its word without it. -/
theorem lowerAt_append_eq_iff : lowerAt before c after = lowerAt before c (after ++ q) ↔
    ¬ ((c = 'Σ' ∧ meetsCased before = true ∧ ∀ x ∈ after, isCaseIgnorable x = true) ∧
      meetsCased q = true) := by
  by_cases hsigma : c = 'Σ'
  · subst hsigma
    have hwritten (l : List Char) : lowerAt before 'Σ' l =
        [if meetsCased before && !meetsCased l then 'ς' else 'σ'] := rfl
    rw [hwritten, hwritten]
    cases meetsCased before with
    | false => simp
    | true =>
      rw [and_iff_right rfl, and_iff_right rfl, ← meetsCased_append_ne_iff, not_ne_iff]
      cases meetsCased after <;> cases meetsCased (after ++ q) <;> decide
  · have hne : c.toNat ≠ 0x3A3 := fun h => hsigma (Char.toNat_inj.1 h)
    unfold lowerAt
    rw [if_neg hne, if_neg hne]
    simp [hsigma]

theorem endsInSigma_nil : ¬ EndsInSigma before [] := by
  rintro ⟨u, v, h, -⟩
  cases u <;> cases h

theorem endsInSigma_cons : EndsInSigma before (c :: p) ↔
    (c = 'Σ' ∧ meetsCased before = true ∧ ∀ x ∈ p, isCaseIgnorable x = true) ∨
      EndsInSigma (c :: before) p := by
  constructor
  · rintro ⟨u, v, h, hbefore, hv⟩
    cases u with
    | nil =>
      obtain ⟨rfl, rfl⟩ := List.cons.inj h
      exact .inl ⟨rfl, hbefore, hv⟩
    | cons x u =>
      obtain ⟨rfl, rfl⟩ := List.cons.inj h
      refine .inr ⟨u, v, rfl, ?_, hv⟩
      rwa [List.reverse_cons, List.append_assoc] at hbefore
  · rintro (⟨rfl, hbefore, hp⟩ | ⟨u, v, rfl, hbefore, hv⟩)
    · exact ⟨[], p, rfl, hbefore, hp⟩
    · refine ⟨c :: u, v, rfl, ?_, hv⟩
      rwa [List.reverse_cons, List.append_assoc]

/-- **When the lower case of a beginning is the beginning of the lower case**: unless the beginning
ends in a sigma that ends a word, and the word goes on. -/
theorem lowerAfter_isPrefix_iff (before p q : List Char) :
    lowerAfter before p <+: lowerAfter before (p ++ q) ↔
      ¬ (EndsInSigma before p ∧ meetsCased q = true) := by
  induction p generalizing before with
  | nil => exact iff_of_true List.nil_prefix fun h => endsInSigma_nil h.1
  | cons c rest ih =>
    -- the steps are of one length, so they agree, and then what is left is a beginning
    have hstep : lowerAfter before (c :: rest) <+: lowerAfter before (c :: rest ++ q) ↔
        lowerAt before c rest = lowerAt before c (rest ++ q) ∧
          lowerAfter (c :: before) rest <+: lowerAfter (c :: before) (rest ++ q) := by
      rw [List.cons_append, lowerAfter, lowerAfter]
      constructor
      · rintro ⟨t, ht⟩
        rw [List.append_assoc] at ht
        obtain ⟨hfirst, hrest⟩ := List.append_inj ht (length_lowerAt ..)
        exact ⟨hfirst, t, hrest⟩
      · rintro ⟨hfirst, hrest⟩
        rwa [hfirst, List.prefix_append_right_inj]
    rw [hstep, lowerAt_append_eq_iff, ih, endsInSigma_cons, or_and_right, not_or]

end Text

namespace Completion

variable {c : Completion} {s : Suggestion}

/-- **What is typed stays on offer, unless it ends in a sigma that ends a word.** Let the text of a
candidate begin with what was typed, just as it was typed, and let the limit leave room for every
candidate. Then the text is offered, except where what was typed ends in a capital sigma that ends a
word and the text has the word go on: typed alone, that sigma is written in lower case as no sigma
inside of a word is. -/
theorem mem_texts_rank_iff {rest : String} {limit : Int} (hs : s ∈ c.candidates)
    (htext : s.text = c.typed ++ rest) (hlimit : c.candidates.length ≤ limit) :
    s.text ∈ (c.rank limit).map (·.text) ↔
      ¬ (Text.EndsInSigma [] c.typed.toList ∧ Text.meetsCased rest.toList = true) := by
  -- with room for every candidate, nothing but the comparison of lower cases decides
  lift limit to Nat using (Int.natCast_nonneg _).trans hlimit
  have hroom : c.ranked.length ≤ limit := by
    rw [c.ranked_perm.length_eq]
    exact (length_chosen_le ..).trans (by exact_mod_cast hlimit)
  have hmem : s.text ∈ c.candidates.map (·.text) := List.mem_map_of_mem hs
  rw [rank_eq_take, List.take_of_length_le hroom, mem_texts_ranked, and_iff_right hmem]
  unfold beginsWith Text.lower
  rw [String.toList_ofList, String.toList_ofList, List.isPrefixOf_iff_prefix, htext,
    String.toList_append, Text.lowerAfter_isPrefix_iff]

/-- Of a word in capitals the first two letters were typed, the second one of them a sigma: the word
is lost. -/
theorem mem_texts_rank_iff_greek :
    let c : Completion := { replace := ⟨0, 2⟩, candidates := [.plain "ΑΣΑ"], typed := "ΑΣ" }
    .plain "ΑΣΑ" ∈ c.candidates ∧ (Suggestion.plain "ΑΣΑ").text = c.typed ++ "Α" ∧
      (c.candidates.length : Int) ≤ 1 ∧ "ΑΣΑ" ∉ (c.rank 1).map (·.text) := by
  intro c
  have hs : .plain "ΑΣΑ" ∈ c.candidates := List.mem_singleton_self _
  have htext : (Suggestion.plain "ΑΣΑ").text = c.typed ++ "Α" := rfl
  have hlimit : (c.candidates.length : Int) ≤ 1 := by decide
  have hends : Text.EndsInSigma [] c.typed.toList :=
    ⟨['Α'], [], by decide, by decide +kernel, List.forall_mem_nil _⟩
  have hgoes : Text.meetsCased "Α".toList = true := by decide +kernel
  exact ⟨hs, htext, hlimit, fun hmem =>
    (mem_texts_rank_iff hs htext hlimit).1 hmem ⟨hends, hgoes⟩⟩

end Completion

end CommandScript
