import Mathlib.Data.List.Forall2
import Mathlib.Data.List.Pairwise
import Mathlib.Data.List.Perm.Subperm
import Mathlib.Logic.Relation
import CommandScript.Proofs.Entries
import CommandScript.Proofs.Keys
/-!
# CommandScript — equality of containers

Two vectors are equal if their items are, and two tables if they have the same keys and equal
values under them; but kinds are compared at the top alone. Inside containers a boolean is as
good as the number that it stands for, and that is the only difference (`Heap.Alike`).

This takes values in which nothing contains itself. Of such a value the containers on any way
into it differ, so there are no more of them than the heap has, and the depth to which values
are compared is never reached: what is compared inside gets the answer that it gets outside.
-/

namespace CommandScript

variable {h : Heap} {v w : Value}

/-! ## Keys of two tables -/

namespace Value

/-- Values of which no two are the same are no more than those they are the same as. -/
theorem length_le_of_distinct {ks ls : List Value}
    (hdistinct : ks.Pairwise fun k l => k.same l = false)
    (hfound : ∀ k ∈ ks, ∃ l ∈ ls, k.same l = true) : ks.length ≤ ls.length := by
  induction ks generalizing ls with
  | nil => exact Nat.zero_le _
  | cons k ks ih =>
    obtain ⟨hk, hks⟩ := List.pairwise_cons.1 hdistinct
    obtain ⟨⟨l, hl, hkl⟩, hrest⟩ := List.forall_mem_cons.1 hfound
    -- the other values are found among those that are not the same as the first one
    have hother : ∀ k' ∈ ks, ∃ l ∈ ls.filter fun l => !k.same l, k'.same l = true := by
      intro k' hk'
      obtain ⟨l', hl', hsame⟩ := hrest k' hk'
      refine ⟨l', List.mem_filter.2 ⟨hl', ?_⟩, hsame⟩
      rw [Bool.not_eq_true', Bool.eq_false_iff]
      exact fun hkl' => Bool.eq_false_iff.1 (hk k' hk') (same_trans hkl' (same_symm hsame))
    have hfewer : (ls.filter fun l => !k.same l).length < ls.length :=
      List.length_filter_lt_length_iff_exists.2 ⟨l, hl, by simp [hkl]⟩
    exact Nat.lt_of_le_of_lt (ih hks hother) hfewer

/-- If there are as many of both, they are found the other way round, too. -/
theorem exists_same_of_length_le {ks ls : List Value}
    (hdistinct : ks.Pairwise fun k l => k.same l = false)
    (hfound : ∀ k ∈ ks, ∃ l ∈ ls, k.same l = true) (hlength : ls.length ≤ ks.length) {l : Value}
    (hl : l ∈ ls) (hself : l.same l = true) : ∃ k ∈ ks, k.same l = true := by
  by_contra hnone
  have hother : ∀ k ∈ ks, ∃ x ∈ ls.filter fun x => !l.same x, k.same x = true := by
    intro k hk
    obtain ⟨x, hx, hkx⟩ := hfound k hk
    refine ⟨x, List.mem_filter.2 ⟨hx, ?_⟩, hkx⟩
    rw [Bool.not_eq_true', Bool.eq_false_iff]
    exact fun hlx => hnone ⟨k, hk, same_trans hkx (same_symm hlx)⟩
  have hfewer : (ls.filter fun x => !l.same x).length < ls.length :=
    List.length_filter_lt_length_iff_exists.2 ⟨l, hl, by simp [hself]⟩
  have hle := length_le_of_distinct hdistinct hother
  omega

end Value

namespace Table

/-- No two entries of a table are under one key, and every key is a string, a number or a
boolean. -/
structure Keyed {α : Type} (t : Table α) : Prop where
  isKey : ∀ k ∈ t.keys, k.isKey = true
  distinct : t.keys.Pairwise fun k l => k.same l = false

/-- Two tables have the same keys, and the same under them. -/
structure Corresponds (same : Value → Value → Prop) (t u : Table Value) : Prop where
  left : ∀ k ∈ t.keys, ∃ l ∈ u.keys, same k l
  right : ∀ l ∈ u.keys, ∃ k ∈ t.keys, same k l
  values : ∀ d ∈ t.entries, ∀ e ∈ u.entries, same d.1 e.1 → same d.2 e.2

variable {t u : Table Value} {d e : Value × Value}

theorem keyed_empty {α : Type} : ({} : Table α).Keyed := ⟨List.forall_mem_nil _, .nil⟩

theorem keys_insert (t : Table Value) (key v : Value) :
    (t.insert key v).keys = if t.has key then t.keys else t.keys ++ [key] := by
  have hentries (es : List (Value × Value)) : (insertInto key v es).map (·.1) =
      if es.any fun e => e.1.same key then es.map (·.1) else es.map (·.1) ++ [key] := by
    induction es with
    | nil => rfl
    | cons e rest ih =>
      rw [insertInto, List.any_cons]
      split
      · next hsame =>
        rw [hsame, Bool.true_or, if_pos rfl]
        rfl
      · next hsame =>
        rw [Bool.eq_false_iff.2 hsame, Bool.false_or, List.map_cons, ih]
        split <;> rfl
  exact hentries t.entries

/-- **What a script does to a table leaves one entry under a key.** -/
theorem Write.keyed (hw : t.Write u) (ht : t.Keyed) : u.Keyed := by
  cases hw with
  | @put key v hkey _ =>
    refine ⟨?_, ?_⟩ <;> rw [keys_insert] <;> split
    · exact ht.isKey
    · exact List.forall_mem_append.2 ⟨ht.isKey, List.forall_mem_singleton.2 hkey⟩
    · exact ht.distinct
    · next hfresh =>
      refine List.pairwise_append.2
        ⟨ht.distinct, List.pairwise_singleton _ key, fun k hk l hl => ?_⟩
      obtain rfl := List.mem_singleton.1 hl
      obtain ⟨e, he, rfl⟩ := List.mem_map.1 hk
      exact Bool.eq_false_iff.2 fun hsame => hfresh (List.any_eq_true.2 ⟨e, he, hsame⟩)
  | forget key =>
    have hsub : (t.erase key).keys.Sublist t.keys := List.filter_sublist.map _
    exact ⟨fun k hk => ht.isKey k (hsub.subset hk), ht.distinct.sublist hsub⟩

theorem mem_keys (he : e ∈ t.entries) : e.1 ∈ t.keys := List.mem_map_of_mem he

theorem size_eq_length_keys (t : Table Value) : t.size = t.keys.length := (List.length_map _).symm

section Corresponds

variable {same : Value → Value → Prop} (ht : t.Keyed) (hu : u.Keyed)
  (hsame : ∀ k l, k.isKey = true → (same k l ↔ k.same l = true))

include ht hu hsame

/-- Tables with the same keys are of one size: each has as many keys as the other one at least. -/
theorem Corresponds.size_eq (h : t.Corresponds same u) : t.size = u.size := by
  have hle : t.keys.length ≤ u.keys.length := by
    refine Value.length_le_of_distinct ht.distinct fun k hk => ?_
    obtain ⟨l, hl, hkl⟩ := h.left k hk
    exact ⟨l, hl, (hsame k l (ht.isKey k hk)).1 hkl⟩
  have hge : u.keys.length ≤ t.keys.length := by
    refine Value.length_le_of_distinct hu.distinct fun l hl => ?_
    obtain ⟨k, hk, hkl⟩ := h.right l hl
    exact ⟨k, hk, Value.same_symm ((hsame k l (ht.isKey k hk)).1 hkl)⟩
  rw [size_eq_length_keys, size_eq_length_keys]
  exact Nat.le_antisymm hle hge

theorem Corresponds.exists_get? (h : t.Corresponds same u) (hd : d ∈ t.entries) :
    ∃ x, u.get? d.1 = some x ∧ same d.2 x := by
  obtain ⟨l, hl, hdl⟩ := h.left d.1 (mem_keys hd)
  obtain ⟨e, he, rfl⟩ := List.mem_map.1 hl
  have hkey : d.1.same e.1 = true := (hsame _ _ (ht.isKey _ (mem_keys hd))).1 hdl
  exact ⟨e.2, (get?_eq_some_iff hu.distinct).2 ⟨e, he, Value.same_symm hkey, rfl⟩, h.values d hd e he hdl⟩

/-- Of two tables of one size, each key of the one is found in the other, so these are all that the
other one has. -/
theorem corresponds_of_get? (hself : ∀ l ∈ u.keys, l.same l = true) (hsize : t.size = u.size)
    (hentries : ∀ d ∈ t.entries, ∃ x, u.get? d.1 = some x ∧ same d.2 x) :
    t.Corresponds same u := by
  have hkeys : ∀ k ∈ t.keys, ∃ l ∈ u.keys, k.same l = true := fun k hk => by
    obtain ⟨d, hd, rfl⟩ := List.mem_map.1 hk
    obtain ⟨x, hx, -⟩ := hentries d hd
    obtain ⟨e, he, hed, -⟩ := (get?_eq_some_iff hu.distinct).1 hx
    exact ⟨e.1, mem_keys he, Value.same_symm hed⟩
  rw [size_eq_length_keys, size_eq_length_keys] at hsize
  refine ⟨fun k hk => ?_, fun l hl => ?_, fun d hd e he hde => ?_⟩
  · obtain ⟨l, hl, hkl⟩ := hkeys k hk
    exact ⟨l, hl, (hsame k l (ht.isKey k hk)).2 hkl⟩
  · obtain ⟨k, hk, hkl⟩ := Value.exists_same_of_length_le ht.distinct hkeys
      (Nat.le_of_eq hsize.symm) hl (hself l hl)
    exact ⟨k, hk, (hsame k l (ht.isKey k hk)).2 hkl⟩
  · obtain ⟨x, hx, hdx⟩ := hentries d hd
    have hkey := (hsame d.1 e.1 (ht.isKey _ (mem_keys hd))).1 hde
    have hfound := (get?_eq_some_iff hu.distinct).2 ⟨e, he, Value.same_symm hkey, rfl⟩
    rwa [← Option.some.inj (hx.symm.trans hfound)]

end Corresponds

end Table

/-! ## What is in a value -/

namespace Heap

/-- What is in a value: the items of a vector or a tuple, the keys and values of a table. -/
def contents (h : Heap) : Value → List Value
  | .vector a => h.vector a
  | .table a => (h.table a).keys ++ (h.table a).entries.map (·.2)
  | .tuple a => h.tuple a
  | _ => []

/-- One value is in another one. -/
def Contains (h : Heap) (v w : Value) : Prop := w ∈ h.contents v

/-- A value that is made of values as scripts have them: all that is a number is one, nothing
contains itself, and tables have one entry under a key. -/
structure Plain (h : Heap) (v : Value) : Prop where
  number : ∀ w, Relation.ReflTransGen h.Contains v w → ¬ w.IsNaN
  apart : ∀ w, Relation.ReflTransGen h.Contains v w → ¬ Relation.TransGen h.Contains w w
  keyed : ∀ a, Relation.ReflTransGen h.Contains v (.table a) → (h.table a).Keyed

/-- No more than so many containers are nested in one another. -/
def NestsWithin (h : Heap) : Nat → Value → Prop
  | 0, v => v.isContainer = false
  | n + 1, v => ∀ w ∈ h.contents v, h.NestsWithin n w

namespace Plain

theorem of_mem (hv : h.Plain v) (hw : w ∈ h.contents v) : h.Plain w where
  number x hx := hv.number x (.head hw hx)
  apart x hx := hv.apart x (.head hw hx)
  keyed a ha := hv.keyed a (.head hw ha)

/-- A value is plain if what is in it is, and it is no exception itself. -/
theorem intro (hv : ¬ v.IsNaN) (hkeyed : ∀ a, v = .table a → (h.table a).Keyed)
    (hcontents : ∀ w ∈ h.contents v, h.Plain w) : h.Plain v where
  number x hx := by
    obtain rfl | ⟨w, hw, hx⟩ := hx.cases_head
    · exact hv
    · exact (hcontents w hw).number x hx
  apart x hx hcycle := by
    obtain rfl | ⟨w, hw, hx⟩ := hx.cases_head
    · obtain ⟨w, hw, hback⟩ := Relation.TransGen.head'_iff.1 hcycle
      exact (hcontents w hw).apart v hback hcycle
    · exact (hcontents w hw).apart x hx hcycle
  keyed a ha := by
    obtain rfl | ⟨w, hw, ha⟩ := ha.cases_head
    · exact hkeyed a rfl
    · exact (hcontents w hw).keyed a ha

end Plain

theorem plain_of_not_isContainer (hv : v.isContainer = false) (hn : ¬ v.IsNaN) : h.Plain v := by
  refine .intro hn (fun a ha => ?_) fun w hw => ?_
  · rw [ha] at hv
    cases hv
  · cases v <;> cases hv <;> exact absurd hw List.not_mem_nil

/-- A value with something in it is one of the containers of the heap. -/
theorem mem_of_contents_ne_nil (hv : h.contents v ≠ []) :
    v ∈ (List.range h.vectors.size).map Value.vector ++
      ((List.range h.tables.size).map Value.table ++
        (List.range h.tuples.size).map Value.tuple) := by
  have hstored {α : Type} {xs : Array α} {a : Address} (ha : xs[a]? ≠ none) :
      a ∈ List.range xs.size :=
    List.mem_range.2 (Nat.lt_of_not_le fun hle => ha (Array.getElem?_eq_none hle))
  cases v with
  | vector a =>
    refine List.mem_append_left _ (List.mem_map_of_mem (hstored fun hnone => hv ?_))
    rw [contents, Heap.vector, hnone, Option.getD_none]
  | table a =>
    refine List.mem_append_right _ (List.mem_append_left _
      (List.mem_map_of_mem (hstored fun hnone => hv ?_)))
    rw [contents, Heap.table, hnone, Option.getD_none]
    rfl
  | tuple a =>
    refine List.mem_append_right _ (List.mem_append_right _
      (List.mem_map_of_mem (hstored fun hnone => hv ?_)))
    rw [contents, Heap.tuple, hnone, Option.getD_none]
  | _ => exact absurd rfl hv

/-- Where containers are nested too often, a way leads through that many of them. -/
theorem exists_way {n : Nat} (hv : ¬ h.NestsWithin (n + 1) v) :
    ∃ way : List Value, way.length = n ∧ (v :: way).Pairwise (Relation.TransGen h.Contains) ∧
      ∀ w ∈ v :: way, h.contents w ≠ [] := by
  induction n generalizing v with
  | zero =>
    rw [NestsWithin] at hv
    push Not at hv
    obtain ⟨w, hw, -⟩ := hv
    exact ⟨[], rfl, List.pairwise_singleton _ v,
      List.forall_mem_singleton.2 (List.ne_nil_of_mem hw)⟩
  | succ n ih =>
    rw [NestsWithin] at hv
    push Not at hv
    obtain ⟨w, hw, hdeep⟩ := hv
    obtain ⟨way, hlength, hway, hcontents⟩ := ih hdeep
    have hfirst : ∀ x ∈ w :: way, Relation.TransGen h.Contains v x :=
      List.forall_mem_cons.2 ⟨.single hw, fun x hx => .head hw ((List.pairwise_cons.1 hway).1 x hx)⟩
    exact ⟨w :: way, by rw [List.length_cons, hlength], List.pairwise_cons.2 ⟨hfirst, hway⟩,
      List.forall_mem_cons.2 ⟨List.ne_nil_of_mem hw, hcontents⟩⟩

/-- **A value in which nothing contains itself nests no more containers than there are.** -/
theorem nestsWithin_of_apart
    (hv : ∀ w, Relation.ReflTransGen h.Contains v w → ¬ Relation.TransGen h.Contains w w) :
    h.NestsWithin (h.containers + 1) v := by
  by_contra hdeep
  obtain ⟨way, hlength, hway, hcontents⟩ := exists_way hdeep
  have hstart := (List.pairwise_cons.1 hway).1
  have hreach : ∀ w ∈ v :: way, Relation.ReflTransGen h.Contains v w :=
    List.forall_mem_cons.2 ⟨.refl, fun w hw => (hstart w hw).to_reflTransGen⟩
  have hnodup : (v :: way).Nodup := by
    refine hway.imp_of_mem ?_
    rintro w _ hw - hcycle rfl
    exact hv w (hreach w hw) hcycle
  have hle := (List.subperm_of_subset hnodup
    fun w hw => mem_of_contents_ne_nil (hcontents w hw)).length_le
  simp only [List.length_cons, List.length_append, List.length_map, List.length_range] at hle
  unfold containers at hlength
  omega

end Heap

/-! ## Comparison, level by level -/

section Tests

variable {test test' : Value → Value → Except Crash Bool}

theorem allPairs_congr {ps : List (Value × Value)}
    (htest : ∀ p ∈ ps, test p.1 p.2 = test' p.1 p.2) :
    allPairs test ps = allPairs test' ps := by
  induction ps with
  | nil => rfl
  | cons p rest ih =>
    obtain ⟨hp, hrest⟩ := List.forall_mem_cons.1 htest
    rw [allPairs, allPairs, hp, ih hrest]

/-- A test that answers for every pair answers for all of them together. -/
theorem allPairs_answers {ps : List (Value × Value)}
    (htest : ∀ p ∈ ps, ∃ b, test p.1 p.2 = .ok b) : ∃ b, allPairs test ps = .ok b := by
  induction ps with
  | nil => exact ⟨true, rfl⟩
  | cons p rest ih =>
    obtain ⟨⟨b, hp⟩, hrest⟩ := List.forall_mem_cons.1 htest
    rw [allPairs, hp]
    cases b with
    | false => exact ⟨false, rfl⟩
    | true => exact ih hrest

theorem allPairs_eq_true {ps : List (Value × Value)} :
    allPairs test ps = .ok true ↔ ∀ p ∈ ps, test p.1 p.2 = .ok true := by
  induction ps with
  | nil => exact iff_of_true rfl (List.forall_mem_nil _)
  | cons p rest ih =>
    rw [allPairs, List.forall_mem_cons, ← ih]
    rcases test p.1 p.2 with c | _ | _
    · exact iff_of_false (by rintro ⟨⟩) (by simp)
    · exact iff_of_false (by rintro ⟨⟩) (by simp)
    · exact (and_iff_right rfl).symm

namespace Heap

variable {right : Table Value}

theorem sameEntries_congr {es : List (Value × Value)}
    (htest : ∀ e ∈ es, ∀ x, test e.2 x = test' e.2 x) :
    sameEntries test right es = sameEntries test' right es := by
  induction es with
  | nil => rfl
  | cons e rest ih =>
    obtain ⟨he, hrest⟩ := List.forall_mem_cons.1 htest
    rw [sameEntries, sameEntries, ih hrest]
    cases right.get? e.1 with
    | none => rfl
    | some x =>
      dsimp only
      rw [he x]

theorem sameEntries_answers {es : List (Value × Value)}
    (htest : ∀ e ∈ es, ∀ d ∈ right.entries, ∃ b, test e.2 d.2 = .ok b) :
    ∃ b, sameEntries test right es = .ok b := by
  induction es with
  | nil => exact ⟨true, rfl⟩
  | cons e rest ih =>
    obtain ⟨he, hrest⟩ := List.forall_mem_cons.1 htest
    rw [sameEntries]
    cases hget : right.get? e.1 with
    | none => exact ⟨false, rfl⟩
    | some x =>
      obtain ⟨d, hd, rfl⟩ := Option.map_eq_some_iff.1 hget
      obtain ⟨b, hb⟩ := he d (List.mem_of_find?_eq_some hd)
      dsimp only
      rw [hb]
      cases b with
      | false => exact ⟨false, rfl⟩
      | true => exact ih hrest

theorem sameEntries_eq_true {es : List (Value × Value)} :
    sameEntries test right es = .ok true ↔
      ∀ e ∈ es, ∃ x, right.get? e.1 = some x ∧ test e.2 x = .ok true := by
  induction es with
  | nil => exact iff_of_true rfl (List.forall_mem_nil _)
  | cons e rest ih =>
    rw [sameEntries, List.forall_mem_cons, ← ih]
    cases right.get? e.1 with
    | none => simp
    | some x =>
      dsimp only
      rcases hx : test e.2 x with c | _ | _
      · exact iff_of_false (by rintro ⟨⟩) (by simp [hx])
      · exact iff_of_false (by rintro ⟨⟩) (by simp [hx])
      · exact (and_iff_right ⟨x, rfl, hx⟩).symm

/-- What is in two values, compared by a test; values that are no containers of one sort
differ. -/
def compareContents (h : Heap) (test : Value → Value → Except Crash Bool) :
    Value → Value → Except Crash Bool
  | .vector i, .vector j =>
    if (h.vector i).length ≠ (h.vector j).length then .ok false
    else allPairs test ((h.vector i).zip (h.vector j))
  | .tuple i, .tuple j => do
    return (← allPairs test ((h.tuple i).zip (h.tuple j))) &&
      (h.tuple i).length == (h.tuple j).length
  | .table i, .table j =>
    if (h.table i).size ≠ (h.table j).size then .ok false
    else sameEntries test (h.table j) (h.table i).entries
  | _, _ => .ok false

theorem equalWithin_succ (h : Heap) (n : Nat) (v w : Value) :
    h.equalWithin (n + 1) v w =
      if v.same w then .ok true else h.compareContents (h.equalWithin n) v w := by
  cases hsame : v.same w with
  | true =>
    rw [if_pos rfl]
    exact equalWithin_of_same hsame _
  | false =>
    unfold equalWithin
    rw [if_neg (by simp [hsame]), if_neg Bool.false_ne_true]
    cases v <;> first | rfl | (cases w <;> rfl)

theorem compareContents_congr (htest : ∀ x ∈ h.contents v, ∀ y, test x y = test' x y) :
    h.compareContents test v w = h.compareContents test' v w := by
  have hzip (ys : List Value) :
      allPairs test ((h.contents v).zip ys) = allPairs test' ((h.contents v).zip ys) :=
    allPairs_congr fun p hp => htest p.1 (List.of_mem_zip hp).1 p.2
  cases v with
  | vector i =>
    cases w with
    | vector j =>
      have hitems : allPairs test ((h.vector i).zip (h.vector j)) = _ := hzip (h.vector j)
      rw [compareContents, compareContents, hitems]
      rfl
    | _ => rfl
  | tuple i =>
    cases w with
    | tuple j =>
      have hitems : allPairs test ((h.tuple i).zip (h.tuple j)) = _ := hzip (h.tuple j)
      rw [compareContents, compareContents, hitems]
      rfl
    | _ => rfl
  | table i =>
    cases w with
    | table j =>
      rw [compareContents, compareContents, sameEntries_congr fun e he =>
        htest e.2 (List.mem_append_right _ (List.mem_map_of_mem he))]
    | _ => rfl
  | _ => rfl

theorem compareContents_answers
    (htest : ∀ x ∈ h.contents v, ∀ y ∈ h.contents w, ∃ b, test x y = .ok b) :
    ∃ b, h.compareContents test v w = .ok b := by
  have hzip : ∃ b, allPairs test ((h.contents v).zip (h.contents w)) = .ok b :=
    allPairs_answers fun p hp => htest p.1 (List.of_mem_zip hp).1 p.2 (List.of_mem_zip hp).2
  cases v with
  | vector i =>
    cases w with
    | vector j =>
      rw [compareContents]
      split
      · exact ⟨false, rfl⟩
      · exact hzip
    | _ => exact ⟨false, rfl⟩
  | tuple i =>
    cases w with
    | tuple j =>
      obtain ⟨b, hb⟩ : ∃ b, allPairs test ((h.tuple i).zip (h.tuple j)) = .ok b := hzip
      rw [compareContents, hb]
      exact ⟨_, rfl⟩
    | _ => exact ⟨false, rfl⟩
  | table i =>
    cases w with
    | table j =>
      rw [compareContents]
      split
      · exact ⟨false, rfl⟩
      · exact sameEntries_answers fun e he d hd =>
          htest e.2 (List.mem_append_right _ (List.mem_map_of_mem he)) d.2
            (List.mem_append_right _ (List.mem_map_of_mem hd))
    | _ => exact ⟨false, rfl⟩
  | _ => exact ⟨false, rfl⟩

end Heap

end Tests

namespace Heap

/-- **A larger depth changes nothing**, where containers are nested less deep. -/
theorem NestsWithin.equalWithin {n m : Nat} (hv : h.NestsWithin n v) (hm : n ≤ m) (w : Value) :
    h.equalWithin m v w = h.equalWithin n v w ∧ ∃ b, h.equalWithin n v w = .ok b := by
  induction n generalizing v w m with
  | zero =>
    rw [equalWithin_of_not_isContainer hv, equalWithin_of_not_isContainer hv]
    exact ⟨rfl, _, rfl⟩
  | succ n ih =>
    obtain ⟨m, rfl⟩ := Nat.exists_eq_add_of_le' hm
    have hcontents : ∀ x ∈ h.contents v, ∀ y,
        h.equalWithin (m + n) x y = h.equalWithin n x y ∧ ∃ b, h.equalWithin n x y = .ok b :=
      fun x hx y => ih (hv x hx) (Nat.le_add_left n m) y
    rw [← Nat.add_assoc, equalWithin_succ, equalWithin_succ,
      compareContents_congr fun x hx y => (hcontents x hx y).1]
    refine ⟨rfl, ?_⟩
    split
    · exact ⟨true, rfl⟩
    · exact compareContents_answers fun x hx y _ => (hcontents x hx y).2

/-- A value is compared with anything where it is nested less deep, also if it stands on the
right. -/
theorem NestsWithin.equalWithin_answers {n m : Nat} (hw : h.NestsWithin n w) (hm : n ≤ m)
    (v : Value) : ∃ b, h.equalWithin m v w = .ok b := by
  induction n generalizing v w m with
  | zero => exact ⟨_, equalWithin_of_not_isContainer_right hw m⟩
  | succ n ih =>
    obtain ⟨m, rfl⟩ := Nat.exists_eq_add_of_le' hm
    rw [← Nat.add_assoc, equalWithin_succ]
    split
    · exact ⟨true, rfl⟩
    · exact compareContents_answers fun x _ y hy => ih (hw y hy) (Nat.le_add_left n m) x

/-! ## Inside and outside -/

/-- The two are equal, but for what a boolean stands for. -/
def Alike (h : Heap) (v w : Value) : Prop := h.equal v w = .ok true ∨ v.Counterparts w

/-- Values of two kinds are alike only where a boolean meets the number that it stands for. -/
theorem alike_of_kind_ne (hkind : v.kind ≠ w.kind) : h.alike v w = .ok (v.same w) := by
  cases hsame : v.same w with
  | true => exact equalWithin_of_same hsame _
  | false =>
    rw [alike, equalWithin_succ, if_neg (by simp [hsame])]
    cases v <;> cases w <;> first | rfl | exact absurd rfl hkind

/-- **Without regard to kinds, values are alike if they are equal or counterparts.** -/
theorem alike_iff : h.alike v w = .ok true ↔ h.Alike v w := by
  by_cases hkind : v.kind = w.kind
  · have hequal : h.equal v w = h.alike v w := if_neg (not_not_intro hkind)
    rw [Alike, hequal]
    exact ⟨.inl, fun halike => halike.resolve_right fun hpair => hpair.kind_ne hkind⟩
  · have hequal : h.equal v w = .ok false := if_pos hkind
    rw [Alike, hequal, alike_of_kind_ne hkind]
    refine ⟨fun hsame => .inr ?_, fun halike => ?_⟩
    · exact (Value.kind_eq_or_counterparts (Except.ok.inj hsame)).resolve_left hkind
    · rw [(halike.resolve_left (by simp)).same]

theorem alike_of_same (hsame : v.same w = true) : h.Alike v w :=
  alike_iff.1 (equalWithin_of_same hsame _)

/-- Keys are alike if a table takes them for one. -/
theorem alike_iff_same (hv : v.isKey = true) : h.Alike v w ↔ v.same w = true :=
  (same_iff_of_isKey h hv).symm

namespace Plain

/-- There is always an answer to whether a plain value is like another one. -/
theorem alike_answers (hv : h.Plain v) (w : Value) : ∃ b, h.alike v w = .ok b := by
  have hdepth : h.containers + 1 ≤ h.containers * h.containers + 1 :=
    Nat.succ_le_succ (Nat.le_mul_self _)
  obtain ⟨hsame, b, hb⟩ := (nestsWithin_of_apart hv.apart).equalWithin hdepth w
  exact ⟨b, hsame.trans hb⟩

/-- What is in a plain value is compared as it would be on its own. -/
theorem alike_eq (hv : h.Plain v) (w : Value) :
    h.alike v w = if v.same w then .ok true else h.compareContents h.alike v w := by
  rw [alike, equalWithin_succ]
  refine if_congr Iff.rfl rfl (compareContents_congr fun x hx y => ?_)
  have hdepth : h.containers ≤ h.containers * h.containers := Nat.le_mul_self _
  have hx : h.NestsWithin h.containers x := nestsWithin_of_apart hv.apart x hx
  have hinside := (hx.equalWithin hdepth y).1
  have houtside := (hx.equalWithin (Nat.le_succ_of_le hdepth) y).1
  exact hinside.trans houtside.symm

/-- Whatever a plain value is, it is the same as itself. -/
theorem same_self (hv : h.Plain v) : v.same v = true := Value.same_refl (hv.number v .refl)

theorem alike_vector {i j : Address} (hi : h.Plain (.vector i)) :
    h.alike (.vector i) (.vector j) = .ok true ↔
      List.Forall₂ h.Alike (h.vector i) (h.vector j) := by
  by_cases hij : i = j
  · subst hij
    refine iff_of_true (equalWithin_of_same hi.same_self _) (List.forall₂_same.2 fun x hx => ?_)
    exact alike_of_same (hi.of_mem hx).same_self
  · have hne : ¬ (Value.vector i).same (.vector j) = true := by simpa [Value.same, Value.asNumber?]
    rw [hi.alike_eq, if_neg hne, compareContents, List.forall₂_iff_zip]
    split
    · next hlength => exact iff_of_false (by simp) fun h => hlength h.1
    · next hlength =>
      rw [allPairs_eq_true, and_iff_right (Decidable.not_not.1 hlength)]
      exact ⟨fun h a b hab => alike_iff.1 (h (a, b) hab), fun h p hp => alike_iff.2 (h hp)⟩

theorem alike_table {i j : Address} (hi : h.Plain (.table i)) (hj : h.Plain (.table j)) :
    h.alike (.table i) (.table j) = .ok true ↔ (h.table i).Corresponds h.Alike (h.table j) := by
  have hself {a : Address} (ha : h.Plain (.table a)) : ∀ k ∈ (h.table a).keys, k.same k = true :=
    fun k hk => (ha.of_mem (List.mem_append_left _ hk)).same_self
  by_cases hij : i = j
  · subst hij
    refine iff_of_true (equalWithin_of_same hi.same_self _) ⟨?_, ?_, fun d hd e he hde => ?_⟩
    · exact fun k hk => ⟨k, hk, alike_of_same (hself hi k hk)⟩
    · exact fun k hk => ⟨k, hk, alike_of_same (hself hi k hk)⟩
    · have hkey := (hi.keyed i .refl).isKey d.1 (Table.mem_keys hd)
      obtain rfl := Table.eq_of_same (hi.keyed i .refl).distinct hd he ((alike_iff_same hkey).1 hde)
      exact alike_of_same (hi.of_mem (List.mem_append_right _ (List.mem_map_of_mem hd))).same_self
  · have hne : ¬ (Value.table i).same (.table j) = true := by simpa [Value.same, Value.asNumber?]
    have hkeyed := hi.keyed i .refl
    have hkeyed' := hj.keyed j .refl
    have hsame : ∀ k l, k.isKey = true → (h.Alike k l ↔ k.same l = true) :=
      fun k l hk => alike_iff_same hk
    rw [hi.alike_eq, if_neg hne, compareContents]
    split
    · next hsize =>
      exact iff_of_false (by simp) fun h => hsize (h.size_eq hkeyed hkeyed' hsame)
    · next hsize =>
      simp only [sameEntries_eq_true, alike_iff]
      exact ⟨Table.corresponds_of_get? hkeyed hkeyed' hsame (hself hj) (Decidable.not_not.1 hsize),
        fun h d hd => h.exists_get? hkeyed hkeyed' hsame hd⟩

end Plain

/-- **Equality is structural, and compares kinds at the top alone.** Let nothing in two values be
what is no number, and nothing contain itself. Then `==` has an answer. It finds two vectors equal
if they are as long and their items are alike, one by one; and two tables if they have keys that are
alike, and values that are alike under them. Alike is what is equal, and a boolean and the number
that it stands for. -/
theorem equal_of_plain (hv : h.Plain v) (hw : h.Plain w) :
    (∃ b, h.equal v w = .ok b) ∧
      (∀ i j, v = .vector i → w = .vector j →
        (h.equal v w = .ok true ↔ List.Forall₂ h.Alike (h.vector i) (h.vector j))) ∧
      ∀ i j, v = .table i → w = .table j →
        (h.equal v w = .ok true ↔ (h.table i).Corresponds h.Alike (h.table j)) := by
  have hequal (hkind : v.kind = w.kind) : h.equal v w = h.alike v w :=
    if_neg (not_not_intro hkind)
  refine ⟨?_, fun i j hi hj => ?_, fun i j hi hj => ?_⟩
  · unfold equal
    split
    · exact ⟨false, rfl⟩
    · exact hv.alike_answers w
  · subst hi hj
    rw [hequal rfl]
    exact hv.alike_vector
  · subst hi hj
    rw [hequal rfl]
    exact hv.alike_table hw

/-- Two tables and two vectors that are found equal, where a boolean stands in the one and a number
in the other. -/
theorem equal_of_plain_counterparts :
    let h : Heap := {
      vectors := #[[.int 1, .string "a"], [.bool true, .string "a"]]
      tables := #[⟨[(.string "k", .vector 0), (.int 0, .string "z")]⟩,
        ⟨[(.bool false, .string "z"), (.string "k", .vector 1)]⟩] }
    h.Plain (.table 0) ∧ h.Plain (.table 1) ∧ h.Plain (.vector 0) ∧ h.Plain (.vector 1) ∧
      h.equal (.int 1) (.bool true) = .ok false ∧
      h.equal (.table 0) (.table 1) = .ok true ∧ (h.table 0).Corresponds h.Alike (h.table 1) ∧
      h.equal (.vector 0) (.vector 1) = .ok true ∧
      List.Forall₂ h.Alike (h.vector 0) (h.vector 1) := by
  intro h
  have hscalar {v : Value} (hv : v.isContainer = false) (hn : ¬ v.IsNaN) : h.Plain v :=
    plain_of_not_isContainer hv hn
  have hvector : h.Plain (.vector 0) := by
    refine .intro (by decide) (by rintro _ ⟨⟩) fun w hw => ?_
    obtain rfl | rfl : w = .int 1 ∨ w = .string "a" := by simpa [h, contents, Heap.vector] using hw
    · exact hscalar rfl (by decide)
    · exact hscalar rfl (by decide)
  have hvector' : h.Plain (.vector 1) := by
    refine .intro (by decide) (by rintro _ ⟨⟩) fun w hw => ?_
    obtain rfl | rfl : w = .bool true ∨ w = .string "a" := by
      simpa [h, contents, Heap.vector] using hw
    · exact hscalar rfl (by decide)
    · exact hscalar rfl (by decide)
  have htable : h.Plain (.table 0) := by
    refine .intro (by decide) (fun a ha => ?_) fun w hw => ?_
    · cases ha
      exact ⟨by decide, by decide⟩
    · obtain rfl | rfl | rfl | rfl :
          w = .string "k" ∨ w = .int 0 ∨ w = .vector 0 ∨ w = .string "z" := by
        simpa [h, contents, Heap.table, Table.keys] using hw
      · exact hscalar rfl (by decide)
      · exact hscalar rfl (by decide)
      · exact hvector
      · exact hscalar rfl (by decide)
  have htable' : h.Plain (.table 1) := by
    refine .intro (by decide) (fun a ha => ?_) fun w hw => ?_
    · cases ha
      exact ⟨by decide, by decide⟩
    · obtain rfl | rfl | rfl | rfl :
          w = .bool false ∨ w = .string "k" ∨ w = .string "z" ∨ w = .vector 1 := by
        simpa [h, contents, Heap.table, Table.keys] using hw
      · exact hscalar rfl (by decide)
      · exact hscalar rfl (by decide)
      · exact hscalar rfl (by decide)
      · exact hvector'
  obtain ⟨-, -, htables⟩ := equal_of_plain htable htable'
  obtain ⟨-, hvectors, -⟩ := equal_of_plain hvector hvector'
  have hequal : h.equal (.table 0) (.table 1) = .ok true := by rfl
  have hequal' : h.equal (.vector 0) (.vector 1) = .ok true := by rfl
  exact ⟨htable, htable', hvector, hvector', by rfl, hequal, (htables 0 1 rfl rfl).1 hequal,
    hequal', (hvectors 0 1 rfl rfl).1 hequal'⟩

end Heap

end CommandScript
