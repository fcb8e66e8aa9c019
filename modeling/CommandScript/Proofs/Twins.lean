import Mathlib.Data.List.Forall2
import CommandScript.Proofs.Comparing
import CommandScript.Proofs.Known
import CommandScript.Proofs.Region
/-!
# CommandScript — twins

Two heaps may hold the same vectors and tables at different addresses, next to others that
only one of them holds. Which ones are the same is said by a pairing of addresses (`Twins`),
and two values are twins if they are paired addresses, or one and the same value that is no
container (`Twins.Pairs`).

No address is paired with two others, so what can be told apart in one heap can be told apart
in the other. Hence twins are equal to twins, they have twins under their keys, and operators
give the same for them. Tuples have no twins: a script does not make any.
-/

namespace CommandScript

/-- The second heap has all vectors and tables of the first one at the same addresses. -/
structure Heap.Grew (h h' : Heap) : Prop where
  vectors : h.vectors.toList <+: h'.vectors.toList
  tables : h.tables.toList <+: h'.tables.toList

namespace Heap.Grew

variable {h h' h'' : Heap}

theorem refl (h : Heap) : h.Grew h := ⟨List.prefix_rfl, List.prefix_rfl⟩

theorem trans (a : h.Grew h') (b : h'.Grew h'') : h.Grew h'' :=
  ⟨a.vectors.trans b.vectors, a.tables.trans b.tables⟩

theorem of_extends (h : Heap.Extends h' h'') : h'.Grew h'' := ⟨h.vectors, h.tables⟩

/-- What stands at an address of an array is still there behind a longer one. -/
theorem getElem?_of_prefix {α : Type} {xs ys : Array α} {a : Address} {x : α}
    (h : xs.toList <+: ys.toList) (hx : xs[a]? = some x) : ys[a]? = some x := by
  obtain ⟨more, hmore⟩ := h
  rw [← Array.getElem?_toList] at hx ⊢
  rw [← hmore, List.getElem?_append_left (List.getElem?_eq_some_iff.1 hx).1, hx]

end Heap.Grew

/-- Which vectors and which tables of one heap are those of another one. -/
structure Twins where
  vector : Address → Address → Prop
  table : Address → Address → Prop

namespace Twins

/-- The values are twins. -/
inductive Pairs (T : Twins) : Value → Value → Prop where
  | vector {a b : Address} : T.vector a b → Pairs T (.vector a) (.vector b)
  | table {a b : Address} : T.table a b → Pairs T (.table a) (.table b)
  | plain {v : Value} : v.isContainer = false → Pairs T v v

/-- Under one key stand twins. -/
structure PairsEntry (T : Twins) (e f : Value × Value) : Prop where
  key_eq : e.1 = f.1
  isKey : e.1.isKey = true
  value : T.Pairs e.2 f.2

/-- **Twins of two heaps**: what is paired holds twins, and no address is paired with two
others. -/
structure Between (T : Twins) (h h' : Heap) : Prop where
  vector : ∀ {a b}, T.vector a b → ∃ xs ys, h.vectors[a]? = some xs ∧ h'.vectors[b]? = some ys ∧
    List.Forall₂ T.Pairs xs ys
  table : ∀ {a b}, T.table a b → ∃ t u, h.tables[a]? = some t ∧ h'.tables[b]? = some u ∧
    List.Forall₂ T.PairsEntry t.entries u.entries
  vector_iff : ∀ {a b c d}, T.vector a b → T.vector c d → (a = c ↔ b = d)
  table_iff : ∀ {a b c d}, T.table a b → T.table c d → (a = c ↔ b = d)

/-- All twins are still twins. -/
structure Sub (T U : Twins) : Prop where
  vector : ∀ {a b}, T.vector a b → U.vector a b
  table : ∀ {a b}, T.table a b → U.table a b

variable {T U V : Twins} {h h' g g' : Heap} {v v' w w' : Value}

theorem Sub.refl (T : Twins) : T.Sub T := ⟨id, id⟩

theorem Sub.trans (h : T.Sub U) (h' : U.Sub V) : T.Sub V :=
  ⟨fun hab => h'.vector (h.vector hab), fun hab => h'.table (h.table hab)⟩

theorem Pairs.mono (hTU : T.Sub U) (hv : T.Pairs v w) : U.Pairs v w := by
  cases hv with
  | vector hab => exact .vector (hTU.vector hab)
  | table hab => exact .table (hTU.table hab)
  | plain hplain => exact .plain hplain

theorem pairsEntry_mono (hTU : T.Sub U) {e f : Value × Value} (he : T.PairsEntry e f) :
    U.PairsEntry e f :=
  ⟨he.key_eq, he.isKey, he.value.mono hTU⟩

/-! ## Heaps that grow -/

/-- Twins stay twins in heaps that grow. -/
theorem Between.grow (hT : T.Between h h') (hg : h.Grew g) (hg' : h'.Grew g') :
    T.Between g g' where
  vector hab := by
    obtain ⟨xs, ys, hxs, hys, hpairs⟩ := hT.vector hab
    exact ⟨xs, ys, Heap.Grew.getElem?_of_prefix hg.vectors hxs,
      Heap.Grew.getElem?_of_prefix hg'.vectors hys, hpairs⟩
  table hab := by
    obtain ⟨t, u, ht, hu, hpairs⟩ := hT.table hab
    exact ⟨t, u, Heap.Grew.getElem?_of_prefix hg.tables ht,
      Heap.Grew.getElem?_of_prefix hg'.tables hu, hpairs⟩
  vector_iff := hT.vector_iff
  table_iff := hT.table_iff

/-- One more pair of addresses, both of which are new, is paired with no other ones. -/
theorem unpaired_new {α : Type} {R : Address → Address → Prop} {xs ys : Array α}
    (hold : ∀ {a b}, R a b → a < xs.size ∧ b < ys.size)
    (hiff : ∀ {a b c d}, R a b → R c d → (a = c ↔ b = d)) {a b c d : Address}
    (hab : R a b ∨ a = xs.size ∧ b = ys.size) (hcd : R c d ∨ c = xs.size ∧ d = ys.size) :
    a = c ↔ b = d := by
  obtain hab | ⟨ha, hb⟩ := hab <;> obtain hcd | ⟨hc, hd⟩ := hcd
  · exact hiff hab hcd
  · obtain ⟨hlt, hlt'⟩ := hold hab
    exact iff_of_false (hc ▸ Nat.ne_of_lt hlt) (hd ▸ Nat.ne_of_lt hlt')
  · obtain ⟨hlt, hlt'⟩ := hold hcd
    exact iff_of_false (ha ▸ Nat.ne_of_gt hlt) (hb ▸ Nat.ne_of_gt hlt')
  · exact iff_of_true (ha.trans hc.symm) (hb.trans hd.symm)

/-- New vectors of twins are twins. -/
theorem Between.newVector (hT : T.Between h h') {xs ys : List Value}
    (hxs : List.Forall₂ T.Pairs xs ys) :
    ∃ U : Twins, T.Sub U ∧ U.Between (h.newVector xs).2 (h'.newVector ys).2 ∧
      U.Pairs (h.newVector xs).1 (h'.newVector ys).1 := by
  let U : Twins :=
    ⟨fun a b => T.vector a b ∨ a = h.vectors.size ∧ b = h'.vectors.size, T.table⟩
  have hTU : T.Sub U := ⟨.inl, id⟩
  have hgrown := hT.grow (.of_extends (.newVector h xs)) (.of_extends (.newVector h' ys))
  have hold : ∀ {a b}, T.vector a b → a < h.vectors.size ∧ b < h'.vectors.size := by
    intro a b hab
    obtain ⟨_, _, ha, hb, -⟩ := hT.vector hab
    exact ⟨(Array.getElem?_eq_some_iff.1 ha).1, (Array.getElem?_eq_some_iff.1 hb).1⟩
  refine ⟨U, hTU, ⟨?_, ?_, ?_, hT.table_iff⟩, .vector (.inr ⟨rfl, rfl⟩)⟩
  · rintro a b (hab | ⟨rfl, rfl⟩)
    · obtain ⟨xs', ys', hxs', hys', hpairs⟩ := hgrown.vector hab
      exact ⟨xs', ys', hxs', hys', hpairs.imp fun _ _ => Pairs.mono hTU⟩
    · exact ⟨xs, ys, Array.getElem?_push_size, Array.getElem?_push_size,
        hxs.imp fun _ _ => Pairs.mono hTU⟩
  · intro a b hab
    obtain ⟨t, u, ht, hu, hpairs⟩ := hgrown.table hab
    exact ⟨t, u, ht, hu, hpairs.imp fun _ _ => pairsEntry_mono hTU⟩
  · exact unpaired_new hold hT.vector_iff

/-- New tables of twins are twins. -/
theorem Between.newTable (hT : T.Between h h') {t u : Table Value}
    (ht : List.Forall₂ T.PairsEntry t.entries u.entries) :
    ∃ U : Twins, T.Sub U ∧ U.Between (h.newTable t).2 (h'.newTable u).2 ∧
      U.Pairs (h.newTable t).1 (h'.newTable u).1 := by
  let U : Twins :=
    ⟨T.vector, fun a b => T.table a b ∨ a = h.tables.size ∧ b = h'.tables.size⟩
  have hTU : T.Sub U := ⟨id, .inl⟩
  have hgrown := hT.grow (.of_extends (.newTable h t)) (.of_extends (.newTable h' u))
  have hold : ∀ {a b}, T.table a b → a < h.tables.size ∧ b < h'.tables.size := by
    intro a b hab
    obtain ⟨_, _, ha, hb, -⟩ := hT.table hab
    exact ⟨(Array.getElem?_eq_some_iff.1 ha).1, (Array.getElem?_eq_some_iff.1 hb).1⟩
  refine ⟨U, hTU, ⟨?_, ?_, hT.vector_iff, ?_⟩, .table (.inr ⟨rfl, rfl⟩)⟩
  · intro a b hab
    obtain ⟨xs, ys, hxs, hys, hpairs⟩ := hgrown.vector hab
    exact ⟨xs, ys, hxs, hys, hpairs.imp fun _ _ => Pairs.mono hTU⟩
  · rintro a b (hab | ⟨rfl, rfl⟩)
    · obtain ⟨t', u', ht', hu', hpairs⟩ := hgrown.table hab
      exact ⟨t', u', ht', hu', hpairs.imp fun _ _ => pairsEntry_mono hTU⟩
    · exact ⟨t, u, Array.getElem?_push_size, Array.getElem?_push_size,
        ht.imp fun _ _ => pairsEntry_mono hTU⟩
  · exact unpaired_new hold hT.table_iff

/-! ## What twins have in common -/

namespace Pairs

theorem kind_eq (hv : T.Pairs v v') : v.kind = v'.kind := by cases hv <;> rfl

theorem isTruthy_eq (hv : T.Pairs v v') : v.isTruthy = v'.isTruthy := by cases hv <;> rfl

theorem isCallable_eq (hv : T.Pairs v v') : v.isCallable = v'.isCallable := by cases hv <;> rfl

/-- What is no container is its own twin, and no one else's. -/
theorem eq_of_not_isContainer (hv : T.Pairs v v') (hplain : v.isContainer = false) : v = v' := by
  cases hv with
  | vector | table => cases hplain
  | plain => rfl

theorem eq_of_isKey (hv : T.Pairs v v') (hkey : v.isKey = true) : v = v' :=
  hv.eq_of_not_isContainer (Value.not_isContainer_of_isKey hkey)

/-- **Twins are the same as twins.** -/
theorem same_eq (hT : T.Between h h') (hv : T.Pairs v v') (hw : T.Pairs w w') :
    v.same w = v'.same w' := by
  cases hv with
  | vector hab =>
    cases hw with
    | @vector c d hcd =>
      change (_ == c) = (_ == d)
      rw [Bool.eq_iff_iff, beq_iff_eq, beq_iff_eq]
      exact hT.vector_iff hab hcd
    | table => rfl
    | plain hplain => cases w <;> first | rfl | cases hplain
  | table hab =>
    cases hw with
    | vector => rfl
    | @table c d hcd =>
      change (_ == c) = (_ == d)
      rw [Bool.eq_iff_iff, beq_iff_eq, beq_iff_eq]
      exact hT.table_iff hab hcd
    | plain hplain => cases w <;> first | rfl | cases hplain
  | plain hplain =>
    cases hw with
    | vector | table => cases v <;> first | rfl | cases hplain
    | plain => rfl

/-- Twins of vectors hold twins. -/
theorem vector_items (hT : T.Between h h') {a b : Address} (hab : T.Pairs (.vector a) (.vector b)) :
    List.Forall₂ T.Pairs (h.vector a) (h'.vector b) := by
  cases hab with
  | vector hab =>
    obtain ⟨xs, ys, hxs, hys, hpairs⟩ := hT.vector hab
    rwa [Heap.vector, Heap.vector, hxs, hys]
  | plain hplain => cases hplain

theorem table_entries (hT : T.Between h h') {a b : Address} (hab : T.Pairs (.table a) (.table b)) :
    List.Forall₂ T.PairsEntry (h.table a).entries (h'.table b).entries := by
  cases hab with
  | table hab =>
    obtain ⟨t, u, ht, hu, hpairs⟩ := hT.table hab
    rwa [Heap.table, Heap.table, ht, hu]
  | plain hplain => cases hplain

end Pairs

/-! ## Tables of twins -/

theorem PairsEntry.pairs_key {e f : Value × Value} (hef : T.PairsEntry e f) : T.Pairs e.1 f.1 :=
  hef.key_eq ▸ .plain (Value.not_isContainer_of_isKey hef.isKey)

section Tables

variable {es fs : List (Value × Value)}

/-- Under twins stand twins. -/
theorem pairs_get? (hT : T.Between h h') (hes : List.Forall₂ T.PairsEntry es fs)
    (hk : T.Pairs v v') : Option.Rel T.Pairs (Table.get? ⟨es⟩ v) (Table.get? ⟨fs⟩ v') := by
  induction hes with
  | nil => exact .none
  | @cons e f _ _ hef _ ih =>
    unfold Table.get? at ih ⊢
    rw [List.find?_cons, List.find?_cons, hef.pairs_key.same_eq hT hk]
    cases f.1.same v' with
    | true => exact .some hef.value
    | false => exact ih

theorem has_eq (hes : List.Forall₂ T.PairsEntry es fs) (k : Value) :
    Table.has ⟨es⟩ k = Table.has ⟨fs⟩ k := by
  induction hes with
  | nil => rfl
  | cons hef _ ih =>
    unfold Table.has at ih ⊢
    rw [List.any_cons, List.any_cons, hef.key_eq, ih]

theorem pairs_insertInto (hes : List.Forall₂ T.PairsEntry es fs) {k : Value}
    (hk : k.isKey = true) (hv : T.Pairs v v') :
    List.Forall₂ T.PairsEntry (Table.insertInto k v es) (Table.insertInto k v' fs) := by
  induction hes with
  | nil => exact .cons ⟨rfl, hk, hv⟩ .nil
  | @cons e f _ _ hef hrest ih =>
    rw [Table.insertInto, Table.insertInto, hef.key_eq]
    split
    · exact .cons ⟨rfl, hef.key_eq ▸ hef.isKey, hv⟩ hrest
    · exact .cons hef ih

end Tables

/-! ## Equality -/

section Equality

variable {test test' : Value → Value → Except Crash Bool}

theorem allPairs_eq
    (htest : ∀ {v v' w w'}, T.Pairs v v' → T.Pairs w w' → test v w = test' v' w')
    {xs xs' ys ys' : List Value} (hxs : List.Forall₂ T.Pairs xs xs')
    (hys : List.Forall₂ T.Pairs ys ys') :
    allPairs test (xs.zip ys) = allPairs test' (xs'.zip ys') := by
  induction hxs generalizing ys ys' with
  | nil => rfl
  | cons hx _ ih =>
    cases hys with
    | nil => rfl
    | cons hy hys =>
      rw [List.zip_cons_cons, List.zip_cons_cons, allPairs, allPairs, htest hx hy, ih hys]

theorem sameEntries_eq (hT : T.Between h h')
    (htest : ∀ {v v' w w'}, T.Pairs v v' → T.Pairs w w' → test v w = test' v' w')
    {es fs : List (Value × Value)} {t u : Table Value} (hes : List.Forall₂ T.PairsEntry es fs)
    (ht : List.Forall₂ T.PairsEntry t.entries u.entries) :
    Heap.sameEntries test t es = Heap.sameEntries test' u fs := by
  induction hes with
  | nil => rfl
  | @cons e f _ _ hef _ ih =>
    rw [Heap.sameEntries, Heap.sameEntries, ih]
    have hget : Option.Rel T.Pairs (t.get? e.1) (u.get? f.1) := pairs_get? hT ht hef.pairs_key
    generalize t.get? e.1 = x at hget ⊢
    generalize u.get? f.1 = y at hget ⊢
    cases hget with
    | none => rfl
    | some hxy =>
      dsimp only
      rw [htest hef.value hxy]

theorem compareContents_eq (hT : T.Between h h')
    (htest : ∀ {v v' w w'}, T.Pairs v v' → T.Pairs w w' → test v w = test' v' w')
    (hv : T.Pairs v v') (hw : T.Pairs w w') :
    h.compareContents test v w = h'.compareContents test' v' w' := by
  cases hv with
  | vector hab =>
    cases hw with
    | vector hcd =>
      have hxs := (Pairs.vector hab).vector_items hT
      have hys := (Pairs.vector hcd).vector_items hT
      rw [Heap.compareContents, Heap.compareContents, hxs.length_eq, hys.length_eq,
        allPairs_eq htest hxs hys]
    | table => rfl
    | plain hplain => cases w <;> first | rfl | cases hplain
  | table hab =>
    cases hw with
    | vector => rfl
    | table hcd =>
      have hes := (Pairs.table hab).table_entries hT
      have hfs := (Pairs.table hcd).table_entries hT
      rw [Heap.compareContents, Heap.compareContents, Table.size, Table.size, Table.size,
        Table.size, hes.length_eq, hfs.length_eq, sameEntries_eq hT htest hes hfs]
    | plain hplain => cases w <;> first | rfl | cases hplain
  | plain hplain => cases v <;> first | rfl | cases hplain

/-- Twins are compared like twins, to any depth. -/
theorem equalWithin_eq (hT : T.Between h h') (n : Nat) (hv : T.Pairs v v') (hw : T.Pairs w w') :
    h.equalWithin n v w = h'.equalWithin n v' w' := by
  induction n generalizing v v' w w' with
  | zero =>
    unfold Heap.equalWithin
    rw [hv.same_eq hT hw]
    cases hv with
    | plain hplain => cases hw <;> first | rfl | (cases v <;> first | rfl | cases hplain)
    | vector | table => cases hw <;> first | rfl | (cases w <;> rfl)
  | succ n ih =>
    rw [Heap.equalWithin_succ, Heap.equalWithin_succ, hv.same_eq hT hw,
      compareContents_eq hT ih hv hw]

/-- **Twins are equal to twins.** The depth to which values are compared depends on the size of
the heap, but an answer does not. -/
theorem equal_of_equal (hT : T.Between h h') (hv : T.Pairs v v') (hw : T.Pairs w w') {b : Bool}
    (hb : h.equal v w = .ok b) : h'.equal v' w' = .ok b := by
  unfold Heap.equal at hb ⊢
  rw [← hv.kind_eq, ← hw.kind_eq]
  split
  · next hkind => rwa [if_pos hkind] at hb
  · next hkind =>
    rw [if_neg hkind] at hb
    exact Heap.alike_of_equalWithin ((equalWithin_eq hT _ hv hw).symm.trans hb)

end Equality

/-! ## Operators -/

section Operators

variable {x : Value}

/-- Operands of arithmetic are numbers, and those of a comparison are numbers or texts. -/
theorem Pairs.eq_of_compute {op : Operator.Arithmetic} (hv : T.Pairs v v') (hw : T.Pairs w w')
    (hx : Operator.compute op v w = .ok x) : v = v' ∧ w = w' := by
  unfold Operator.compute at hx
  split at hx
  · exact ⟨hv.eq_of_not_isContainer rfl, hw.eq_of_not_isContainer rfl⟩
  · cases hx

theorem Pairs.eq_of_compare {holds : List Ordering} (hv : T.Pairs v v') (hw : T.Pairs w w')
    (hx : Operator.compare holds v w = .ok x) : v = v' ∧ w = w' := by
  unfold Operator.compare at hx
  split at hx
  · exact ⟨hv.eq_of_not_isContainer rfl, hw.eq_of_not_isContainer rfl⟩
  · exact ⟨hv.eq_of_not_isContainer rfl, hw.eq_of_not_isContainer rfl⟩
  · cases hx

/-- What can be joined is shown without a look into the heap. -/
theorem Pairs.display_eq (h h' : Heap) (hv : T.Pairs v v') (hjoins : Operator.joins v = true) :
    v = v' ∧ h.display v = h'.display v' := by
  cases hv with
  | vector | table => cases hjoins
  | plain hplain =>
    refine ⟨rfl, ?_⟩
    cases v with
    | vector | table | tuple => cases hplain
    | lambda | command | method => cases hjoins
    | number | string => rfl
    | nil | bool | object =>
      unfold Heap.display Heap.format Heap.formatWithin
      rfl

theorem concat_of_concat (hv : T.Pairs v v') (hw : T.Pairs w w')
    (hx : Operator.concat h v w = .ok x) : Operator.concat h' v' w' = .ok x := by
  unfold Operator.concat at hx ⊢
  cases hjoins : Operator.joins v with
  | false =>
    rw [hjoins] at hx
    cases hx
  | true =>
    cases hjoins' : Operator.joins w with
    | false =>
      rw [hjoins, hjoins'] at hx
      cases hx
    | true =>
      obtain ⟨rfl, hdisplay⟩ := hv.display_eq h h' hjoins
      obtain ⟨rfl, hdisplay'⟩ := hw.display_eq h h' hjoins'
      rwa [← hdisplay, ← hdisplay']

theorem equality_of_equality (hT : T.Between h h') (hv : T.Pairs v v') (hw : T.Pairs w w')
    {wanted : Bool} (hx : Operator.equality h v w wanted = .ok x) :
    Operator.equality h' v' w' wanted = .ok x := by
  unfold Operator.equality at hx ⊢
  cases hb : h.equal v w with
  | error c =>
    rw [hb] at hx
    cases hx
  | ok b =>
    rw [hb] at hx
    rw [equal_of_equal hT hv hw hb]
    exact hx

/-- **An operator gives twins what it gives twins**, and that is no container. -/
theorem binary_of_binary (hT : T.Between h h') {k : TokenKind} (hv : T.Pairs v v')
    (hw : T.Pairs w w') (hx : Operator.binary h k v w = .ok x) :
    Operator.binary h' k v' w' = .ok x ∧ T.Pairs x x := by
  have hheld := Region.holds_binary (R := ⟨fun _ => False, fun _ => False, fun _ => False,
    fun _ => False⟩) hx
  have hplain : x.isContainer = false := by
    cases x with
    | vector | table | tuple => exact hheld.elim
    | _ => rfl
  refine ⟨?_, .plain hplain⟩
  unfold Operator.binary at hx ⊢
  split at hx
  · obtain ⟨rfl, rfl⟩ := hv.eq_of_compute hw hx
    exact hx
  · obtain ⟨rfl, rfl⟩ := hv.eq_of_compare hw hx
    exact hx
  · split at hx
    · exact equality_of_equality hT hv hw hx
    · exact equality_of_equality hT hv hw hx
    · exact equality_of_equality hT hv hw hx
    · exact concat_of_concat hv hw hx
    · cases hx

theorem unary_of_unary {k : TokenKind} (hv : T.Pairs v v') (hx : Operator.unary k v = .ok x) :
    Operator.unary k v' = .ok x ∧ T.Pairs x x := by
  unfold Operator.unary at hx ⊢
  split at hx
  · cases hx
    exact ⟨by rw [hv.isTruthy_eq], .plain rfl⟩
  · cases hx
    obtain rfl := hv.eq_of_not_isContainer rfl
    exact ⟨rfl, .plain rfl⟩
  · cases hx
  · cases hx

end Operators

end Twins

end CommandScript
