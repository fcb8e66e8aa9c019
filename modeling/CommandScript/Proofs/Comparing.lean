import Mathlib.Data.List.ProdSigma
import CommandScript.Proofs.Crash
import CommandScript.Proofs.Structural
/-!
# CommandScript — comparisons come to an end in time

Values are compared to a depth, and where the depth is reached there is no answer. The depth
that `Heap.alike` compares to is one more than there are pairs of containers. It is never too
small: if two values are told apart or found equal at any depth, then they are at this one
(`Heap.alike_of_equalWithin`), although containers may contain themselves.

With each level the answers at greater depth are made from the answers at smaller depth. So
if one more level brings no new answer, no level does; and while each one brings an answer, a
pair of containers is used up for it.
-/

namespace CommandScript

/-- Of tests that are passed by more and more of some elements, one is passed by as many as the
next one, and it does not take longer until then than there are elements. -/
theorem exists_same_passed {α : Type} (passes : Nat → α → Bool) (xs : List α)
    (hmono : ∀ n x, passes n x = true → passes (n + 1) x = true) :
    ∃ n ≤ xs.length, ∀ x ∈ xs, passes (n + 1) x = passes n x := by
  by_contra hnone
  push Not at hnone
  have hcount : ∀ n ≤ xs.length + 1, n ≤ (xs.filter (passes n)).length := by
    intro n
    induction n with
    | zero => exact fun _ => Nat.zero_le _
    | succ n ih =>
      intro hn
      obtain ⟨x, hx, hne⟩ := hnone n (Nat.le_of_succ_le_succ hn)
      have hnew : passes n x = false ∧ passes (n + 1) x = true := by
        cases hold : passes n x with
        | true => exact absurd ((hmono n x hold).trans hold.symm) hne
        | false => simpa [hold] using hne
      have hold : xs.filter (passes n) = (xs.filter (passes (n + 1))).filter (passes n) := by
        rw [List.filter_filter]
        refine List.filter_congr fun y _ => ?_
        cases hy : passes n y with
        | true => rw [hmono n y hy]; rfl
        | false => rfl
      have hlt : (xs.filter (passes n)).length < (xs.filter (passes (n + 1))).length := by
        rw [hold]
        exact List.length_filter_lt_length_iff_exists.2
          ⟨x, List.mem_filter.2 ⟨hx, hnew.2⟩, by simp [hnew.1]⟩
      exact Nat.lt_of_le_of_lt (ih (Nat.le_of_succ_le hn)) hlt
  exact absurd (hcount _ (Nat.le_refl _)) (Nat.not_le_of_lt
    (Nat.lt_succ_of_le (List.length_filter_le _ xs)))

namespace Heap

variable {h : Heap} {v w : Value}
variable {test test' : Value → Value → Except Crash Bool}

/-! ## More answers -/

theorem allPairs_of_answers {ps : List (Value × Value)} {b : Bool}
    (htest : ∀ x y c, test x y = .ok c → test' x y = .ok c) (hps : allPairs test ps = .ok b) :
    allPairs test' ps = .ok b := by
  induction ps with
  | nil => exact hps
  | cons p rest ih =>
    rw [allPairs] at hps ⊢
    cases hp : test p.1 p.2 with
    | error c => simp [hp, bind, Except.bind] at hps
    | ok c =>
      rw [hp] at hps
      rw [htest _ _ _ hp]
      cases c with
      | false => exact hps
      | true => exact ih hps

theorem sameEntries_of_answers {right : Table Value} {es : List (Value × Value)} {b : Bool}
    (htest : ∀ x y c, test x y = .ok c → test' x y = .ok c)
    (hes : sameEntries test right es = .ok b) : sameEntries test' right es = .ok b := by
  induction es with
  | nil => exact hes
  | cons e rest ih =>
    rw [sameEntries] at hes ⊢
    cases hget : right.get? e.1 with
    | none => simpa only [hget] using hes
    | some x =>
      simp only [hget] at hes ⊢
      cases hx : test e.2 x with
      | error c => simp [hx, bind, Except.bind] at hes
      | ok c =>
        rw [hx] at hes
        rw [htest _ _ _ hx]
        cases c with
        | false => exact hes
        | true => exact ih hes

theorem compareContents_of_answers {b : Bool}
    (htest : ∀ x y c, test x y = .ok c → test' x y = .ok c)
    (h' : h.compareContents test v w = .ok b) : h.compareContents test' v w = .ok b := by
  unfold compareContents at h' ⊢
  split at h'
  · split at h'
    · next hlength => rw [if_pos hlength]; exact h'
    · next hlength => rw [if_neg hlength]; exact allPairs_of_answers htest h'
  · obtain ⟨c, hc, hb⟩ := ok_of_bind h'
    rw [allPairs_of_answers htest hc]
    exact hb
  · split at h'
    · next hsize => rw [if_pos hsize]; exact h'
    · next hsize => rw [if_neg hsize]; exact sameEntries_of_answers htest h'
  · exact h'

/-- An answer at some depth is the answer one level deeper. -/
theorem equalWithin_succ_of_ok {n : Nat} {b : Bool} (hn : h.equalWithin n v w = .ok b) :
    h.equalWithin (n + 1) v w = .ok b := by
  induction n generalizing v w b with
  | zero =>
    rw [equalWithin_succ]
    unfold equalWithin at hn
    split at hn
    · next hsame => rw [if_pos hsame]; exact hn
    · next hsame =>
      rw [if_neg hsame]
      cases v <;> cases w <;> first | exact hn | cases hn
  | succ n ih =>
    rw [equalWithin_succ] at hn ⊢
    split
    · next hsame => rw [if_pos hsame] at hn; exact hn
    · next hsame =>
      rw [if_neg hsame] at hn
      exact compareContents_of_answers (fun x y c => ih) hn

theorem equalWithin_of_le {n m : Nat} {b : Bool} (hn : h.equalWithin n v w = .ok b) (hm : n ≤ m) :
    h.equalWithin m v w = .ok b := by
  induction hm with
  | refl => exact hn
  | step _ ih => exact equalWithin_succ_of_ok ih

/-! ## No new answers -/

/-- Values that have not both something in them are compared at once. -/
theorem exists_equalWithin_of_contents_eq_nil (h : Heap) (n : Nat)
    (hempty : h.contents v = [] ∨ h.contents w = []) : ∃ b, h.equalWithin (n + 1) v w = .ok b := by
  rw [equalWithin_succ]
  split
  · exact ⟨true, rfl⟩
  · refine compareContents_answers fun x hx y hy => ?_
    obtain hnil | hnil := hempty
    · exact absurd (hnil ▸ hx) List.not_mem_nil
    · exact absurd (hnil ▸ hy) List.not_mem_nil

/-- The containers of a heap. -/
def shared (h : Heap) : List Value :=
  (List.range h.vectors.size).map Value.vector ++
    ((List.range h.tables.size).map Value.table ++ (List.range h.tuples.size).map Value.tuple)

theorem length_shared (h : Heap) : h.shared.length = h.containers := by
  simp only [shared, List.length_append, List.length_map, List.length_range, containers]
  omega

/-- The pairs of containers are compared at some depth that is not greater than there are pairs,
or they are not compared at all. -/
theorem exists_equalWithin_stable (h : Heap) :
    ∃ n ≤ h.containers * h.containers,
      ∀ v w, h.equalWithin (n + 1 + 1) v w = h.equalWithin (n + 1) v w := by
  let answers : Nat → Value × Value → Bool := fun n p =>
    (h.equalWithin (n + 1) p.1 p.2).toOption.isSome
  have hmono : ∀ n p, answers n p = true → answers (n + 1) p = true := by
    intro n p hp
    dsimp only [answers] at hp ⊢
    cases hb : h.equalWithin (n + 1) p.1 p.2 with
    | error c =>
      rw [hb] at hp
      cases hp
    | ok b =>
      rw [equalWithin_succ_of_ok hb]
      rfl
  obtain ⟨n, hn, hsame⟩ := exists_same_passed answers (h.shared ×ˢ h.shared) hmono
  rw [List.length_product, length_shared] at hn
  refine ⟨n, hn, fun v w => ?_⟩
  cases hb : h.equalWithin (n + 1) v w with
  | ok b => exact equalWithin_succ_of_ok hb
  | error c =>
    -- without an answer, both are containers with something in them, and so a pair of the list
    have hcontents : h.contents v ≠ [] ∧ h.contents w ≠ [] := by
      refine not_or.1 fun hempty => ?_
      obtain ⟨b, hb'⟩ := exists_equalWithin_of_contents_eq_nil h n hempty
      cases hb.symm.trans hb'
    have hpair := hsame (v, w) (List.mem_product.2
      ⟨mem_of_contents_ne_nil hcontents.1, mem_of_contents_ne_nil hcontents.2⟩)
    dsimp only [answers] at hpair
    rw [hb] at hpair
    cases hb' : h.equalWithin (n + 1 + 1) v w with
    | ok b =>
      rw [hb'] at hpair
      cases hpair
    | error d =>
      have hc := equalWithin_crashesOnly h (n + 1) v w c hb
      have hd := equalWithin_crashesOnly h (n + 1 + 1) v w d hb'
      rw [hc, hd]

/-- Where one more level brings no new answer, no level does. -/
theorem equalWithin_eq_of_stable {n m : Nat}
    (hn : ∀ v w, h.equalWithin (n + 1) v w = h.equalWithin n v w) (hm : n ≤ m) :
    h.equalWithin m v w = h.equalWithin n v w := by
  induction hm generalizing v w with
  | refl => rfl
  | @step m _ ih =>
    rw [equalWithin_succ, compareContents_congr fun x _ y => ih, ← equalWithin_succ]
    exact hn v w

/-- **The depth to which values are compared is never too small.** If there is an answer at any
depth, it is the answer. -/
theorem alike_of_equalWithin {n : Nat} {b : Bool} (hn : h.equalWithin n v w = .ok b) :
    h.alike v w = .ok b := by
  obtain ⟨k, hk, hstable⟩ := exists_equalWithin_stable h
  have hdeep : h.equalWithin (max n (k + 1)) v w = .ok b :=
    equalWithin_of_le hn (Nat.le_max_left _ _)
  rw [equalWithin_eq_of_stable hstable (Nat.le_max_right _ _)] at hdeep
  exact equalWithin_of_le hdeep (Nat.succ_le_succ hk)

end Heap

end CommandScript
