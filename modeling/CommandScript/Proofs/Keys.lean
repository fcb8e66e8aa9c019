import CommandScript.Host.Recorder
/-!
# CommandScript — what is found under a key

A table takes two keys for one if they are the same (`Value.same`), and `==` finds them equal
if they are the same and of one kind. Among keys the two differ in one point: a boolean is the
same as the number that it stands for. So what a script puts into a table is found under every
key that is equal to the one it was put under, and under the counterpart of that key.

Numbers are compared by what they stand for, in whatever units: that they are equal is the same
for every unit small enough, and so equality of numbers can be passed on from one to the next.
-/

namespace CommandScript

/-! ## Numbers -/

namespace Binary

variable {a b c : Binary} {s t : Bool} {m n : Nat} {e f unit unit' : Int}

/-- Counted in smaller units there are more of them. -/
theorem unitsOf_eq_mul (hunit : unit' ≤ unit) (he : unit ≤ e) :
    unitsOf s m e unit' = unitsOf s m e unit * (twoTo (unit - unit').toNat : Int) := by
  have hsum : (e - unit').toNat = (e - unit).toNat + (unit - unit').toNat := by omega
  have hpower : twoTo (e - unit').toNat = twoTo (e - unit).toNat * twoTo (unit - unit').toNat := by
    rw [hsum]
    exact Nat.pow_add 2 _ _
  have hmagnitude : ((m * twoTo (e - unit').toNat : Nat) : Int) =
      ((m * twoTo (e - unit).toNat : Nat) : Int) * (twoTo (unit - unit').toNat : Int) := by
    rw [hpower, ← Nat.mul_assoc, Int.natCast_mul]
  unfold unitsOf
  dsimp only
  rw [hmagnitude]
  split
  · exact (Int.neg_mul _ _).symm
  · rfl

/-- Two finite numbers are equal if they are so many units both, whatever the unit. -/
theorem compare?_finite (he : unit ≤ e) (hf : unit ≤ f) :
    compare? (.finite s m e) (.finite t n f) = some .eq ↔
      unitsOf s m e unit = unitsOf t n f unit := by
  have hpos : (twoTo (min e f - unit).toNat : Int) ≠ 0 :=
    Int.natCast_ne_zero.2 (Nat.ne_of_gt (Nat.pow_pos (by decide)))
  have hunit : unit ≤ min e f := by omega
  rw [unitsOf_eq_mul hunit (Int.min_le_left e f), unitsOf_eq_mul hunit (Int.min_le_right e f),
    Int.mul_eq_mul_right_iff hpos]
  unfold compare?
  dsimp only
  rw [Option.some.injEq, Std.compare_eq_iff_eq]

theorem compare?_infinite : compare? (.infinite s) (.infinite t) = some .eq ↔ s = t := by
  cases s <;> cases t <;> decide

theorem compare?_self (h : a ≠ .nan) : compare? a a = some .eq := by
  cases a with
  | nan => exact absurd rfl h
  | infinite s => exact compare?_infinite.2 rfl
  | finite s m e => exact (compare?_finite (Int.le_refl e) (Int.le_refl e)).2 rfl

theorem compare?_symm (h : compare? a b = some .eq) : compare? b a = some .eq := by
  cases a <;> cases b
  case infinite.infinite s t => exact compare?_infinite.2 (compare?_infinite.1 h).symm
  case finite.finite s m e t n f =>
    have he := Int.min_le_left e f
    have hf := Int.min_le_right e f
    exact (compare?_finite hf he).2 ((compare?_finite he hf).1 h).symm
  case infinite.finite s t n f => cases s <;> cases h
  case finite.infinite t n f s => cases s <;> cases h
  all_goals cases h

theorem compare?_trans (hab : compare? a b = some .eq) (hbc : compare? b c = some .eq) :
    compare? a c = some .eq := by
  cases b with
  | nan => cases a <;> cases hab
  | infinite t =>
    cases a with
    | nan => cases hab
    | finite => cases t <;> cases hab
    | infinite s =>
      rw [compare?_infinite.1 hab]
      exact hbc
  | finite t n f =>
    cases a with
    | nan => cases hab
    | infinite s => cases s <;> cases hab
    | finite s m e =>
      cases c with
      | nan => cases hbc
      | infinite s => cases s <;> cases hbc
      | finite r k g =>
        -- a unit that is small enough for all three
        have he : min e (min f g) ≤ e := by omega
        have hf : min e (min f g) ≤ f := by omega
        have hg : min e (min f g) ≤ g := by omega
        exact (compare?_finite he hg).2
          (((compare?_finite he hf).1 hab).trans ((compare?_finite hf hg).1 hbc))

end Binary

namespace Number

variable {m n k : Number}

theorem equal_iff : m.equal n = true ↔ Binary.compare? m.exact n.exact = some .eq := beq_iff_eq

theorem equal_symm (h : m.equal n = true) : n.equal m = true :=
  equal_iff.2 (Binary.compare?_symm (equal_iff.1 h))

theorem equal_trans (hmn : m.equal n = true) (hnk : n.equal k = true) : m.equal k = true :=
  equal_iff.2 (Binary.compare?_trans (equal_iff.1 hmn) (equal_iff.1 hnk))

theorem equal_refl (h : n.exact ≠ .nan) : n.equal n = true :=
  equal_iff.2 (Binary.compare?_self h)

end Number

/-! ## Values that are the same -/

namespace Value

variable {v w x : Value}

/-- The value is no number, although it is of that kind. -/
def IsNaN : Value → Prop
  | number n => n.exact = .nan
  | _ => False

instance : DecidablePred IsNaN
  | number n => inferInstanceAs (Decidable (n.exact = .nan))
  | nil | bool _ | string _ | vector _ | table _ | tuple _ | lambda _ | command _ | object _
  | method .. => inferInstanceAs (Decidable False)

/-- The value is an address where other values are found. -/
def isContainer : Value → Bool
  | vector _ | table _ | tuple _ => true
  | _ => false

theorem not_isContainer_of_isKey (h : v.isKey = true) : v.isContainer = false := by
  cases v <;> cases h <;> rfl

/-- Numbers and booleans are the same if they stand for equal numbers, and other values if they
are one value. -/
theorem same_iff : v.same w = true ↔
    (∃ m n, v.asNumber? = some m ∧ w.asNumber? = some n ∧ m.equal n = true) ∨
      v.asNumber? = none ∧ v = w := by
  cases v <;> cases w <;> simp [same, asNumber?]

theorem same_symm (h : v.same w = true) : w.same v = true := by
  obtain ⟨m, n, hv, hw, heq⟩ | ⟨hv, rfl⟩ := same_iff.1 h
  · exact same_iff.2 (.inl ⟨n, m, hw, hv, Number.equal_symm heq⟩)
  · exact h

theorem same_comm (v w : Value) : v.same w = w.same v :=
  Bool.eq_iff_iff.2 ⟨same_symm, same_symm⟩

theorem same_trans (hvw : v.same w = true) (hwx : w.same x = true) : v.same x = true := by
  obtain ⟨m, n, hv, hw, heq⟩ | ⟨-, rfl⟩ := same_iff.1 hvw
  · obtain ⟨n', k, hw', hx, heq'⟩ | ⟨hnone, -⟩ := same_iff.1 hwx
    · cases hw.symm.trans hw'
      exact same_iff.2 (.inl ⟨m, k, hv, hx, Number.equal_trans heq heq'⟩)
    · cases hw.symm.trans hnone
  · exact hwx

theorem same_refl (h : ¬ v.IsNaN) : v.same v = true := by
  cases v with
  | number n => exact same_iff.2 (.inl ⟨n, n, rfl, rfl, Number.equal_refl h⟩)
  | bool b => cases b <;> decide
  | _ => exact same_iff.2 (.inr ⟨rfl, rfl⟩)

/-- One is a boolean, and the other one is equal to the number that it stands for. -/
inductive Counterparts : Value → Value → Prop where
  | number {b : Bool} {n : Number} : (Number.int (if b then 1 else 0)).equal n = true →
      Counterparts (.bool b) (.number n)
  | boolean {b : Bool} {n : Number} : n.equal (.int (if b then 1 else 0)) = true →
      Counterparts (.number n) (.bool b)

theorem Counterparts.kind_ne (h : v.Counterparts w) : v.kind ≠ w.kind := by
  intro hkind
  cases h <;> cases hkind

theorem Counterparts.same (h : v.Counterparts w) : v.same w = true := by
  cases h with
  | number heq => exact heq
  | boolean heq => exact heq

/-- What is the same is of one kind, but for booleans and what they stand for. -/
theorem kind_eq_or_counterparts (h : v.same w = true) : v.kind = w.kind ∨ v.Counterparts w := by
  obtain ⟨m, n, hv, hw, heq⟩ | ⟨-, rfl⟩ := same_iff.1 h
  · cases v <;> cases hv <;> cases w <;> cases hw
    · exact .inl rfl
    · exact .inr (.number heq)
    · exact .inr (.boolean heq)
    · exact .inl rfl
  · exact .inl rfl

end Value

namespace Heap

variable {h : Heap} {v w : Value}

theorem equalWithin_of_same (hsame : v.same w = true) (budget : Nat) :
    h.equalWithin budget v w = .ok true := by
  unfold equalWithin
  rw [if_pos hsame]

/-- Values that are no containers are compared without a look into the heap. -/
theorem equalWithin_of_not_isContainer (hv : v.isContainer = false) (budget : Nat) :
    h.equalWithin budget v w = .ok (v.same w) := by
  cases hsame : v.same w with
  | true => exact equalWithin_of_same hsame budget
  | false =>
    unfold equalWithin
    rw [if_neg (by simp [hsame])]
    cases budget <;> cases v <;> cases hv <;> rfl

theorem equalWithin_of_not_isContainer_right (hw : w.isContainer = false) (budget : Nat) :
    h.equalWithin budget v w = .ok (v.same w) := by
  cases hsame : v.same w with
  | true => exact equalWithin_of_same hsame budget
  | false =>
    unfold equalWithin
    rw [if_neg (by simp [hsame])]
    cases budget <;> cases v <;> cases w <;> first | rfl | cases hw

/-- **Two keys that a table takes for one are equal, or they are counterparts.** -/
theorem same_iff_of_isKey (h : Heap) (hv : v.isKey = true) :
    v.same w = true ↔ h.equal v w = .ok true ∨ v.Counterparts w := by
  have halike : h.alike v w = .ok (v.same w) :=
    equalWithin_of_not_isContainer (Value.not_isContainer_of_isKey hv) _
  refine ⟨fun hsame => (Value.kind_eq_or_counterparts hsame).imp_left fun hkind => ?_, ?_⟩
  · rw [equal, if_neg (not_not_intro hkind), halike, hsame]
  · rintro (hequal | hpair)
    · unfold equal at hequal
      split at hequal
      · cases hequal
      · exact Except.ok.inj (halike.symm.trans hequal)
    · exact hpair.same

end Heap

/-! ## Tables -/

namespace Table

/-- Where no two keys are the same, there is one entry under a key. -/
theorem eq_of_same {α : Type} {t : Table α} {d e : Value × α}
    (ht : t.keys.Pairwise fun k l => k.same l = false) (hd : d ∈ t.entries) (he : e ∈ t.entries)
    (hsame : d.1.same e.1 = true) : d = e := by
  have hpairs : t.entries.Pairwise fun d e => d.1.same e.1 = false := List.pairwise_map.1 ht
  generalize t.entries = es at hd he hpairs
  induction es with
  | nil => exact absurd hd List.not_mem_nil
  | cons f rest ih =>
    obtain ⟨hf, hrest⟩ := List.pairwise_cons.1 hpairs
    obtain rfl | hd' := List.mem_cons.1 hd <;> obtain rfl | he' := List.mem_cons.1 he
    · rfl
    · exact absurd hsame (by simp [hf e he'])
    · exact absurd (Value.same_symm hsame) (by simp [hf d hd'])
    · exact ih hd' he' hrest

/-- What stands under a key, where no two keys are the same. -/
theorem get?_eq_some_iff {α : Type} {t : Table α} {k : Value} {x : α}
    (ht : t.keys.Pairwise fun k l => k.same l = false) :
    t.get? k = some x ↔ ∃ e ∈ t.entries, e.1.same k = true ∧ e.2 = x := by
  rw [get?, Option.map_eq_some_iff]
  constructor
  · rintro ⟨e, hfind, hx⟩
    exact ⟨e, List.mem_of_find?_eq_some hfind, by simpa using List.find?_some hfind, hx⟩
  rintro ⟨e, he, hsame, hx⟩
  cases hfind : t.entries.find? fun e => e.1.same k with
  | none => exact absurd hsame (List.find?_eq_none.1 hfind e he)
  | some d =>
    have hd : d.1.same k = true := by simpa using List.find?_some hfind
    have hde := eq_of_same ht (List.mem_of_find?_eq_some hfind) he
      (Value.same_trans hd (Value.same_symm hsame))
    exact ⟨d, rfl, hde ▸ hx⟩

/-- Entries with something put under a key: what is under the keys that are the same, and under
the other ones. -/
theorem find?_insertInto (key v other : Value) (es : List (Value × Value)) :
    ((insertInto key v es).find? fun e => e.1.same other).map (·.2) =
      if key.same other then some v else (es.find? fun e => e.1.same other).map (·.2) := by
  induction es with
  | nil =>
    rw [insertInto, List.find?_cons]
    cases key.same other <;> rfl
  | cons e rest ih =>
    rw [insertInto]
    split
    · next hkey =>
      have hvia : e.1.same other = key.same other :=
        Bool.eq_iff_iff.2 ⟨Value.same_trans (Value.same_symm hkey), Value.same_trans hkey⟩
      rw [List.find?_cons, List.find?_cons, hvia]
      cases key.same other <;> rfl
    · next hkey =>
      rw [List.find?_cons, List.find?_cons]
      cases hother : e.1.same other with
      | false => exact ih
      | true =>
        have hne : ¬ key.same other = true := fun hko =>
          hkey (Value.same_trans hother (Value.same_symm hko))
        rw [if_neg hne]

/-- What stands under a key after something was put under one. -/
theorem get?_insert (t : Table Value) (key v other : Value) :
    (t.insert key v).get? other = if key.same other then some v else t.get? other :=
  find?_insertInto key v other t.entries

/-- What stands under a key after one was taken out. -/
theorem get?_erase (t : Table Value) (key other : Value) :
    (t.erase key).get? other = if key.same other then none else t.get? other := by
  have hentries : (t.entries.filter fun e => !e.1.same key).find? (fun e => e.1.same other) =
      if key.same other then none else t.entries.find? fun e => e.1.same other := by
    rw [List.find?_filter]
    split
    · next hko =>
      refine List.find?_eq_none.2 fun e _ he => ?_
      obtain ⟨hkey, hother⟩ : e.1.same key = false ∧ e.1.same other = true := by simpa using he
      rw [Value.same_trans hother (Value.same_symm hko)] at hkey
      cases hkey
    · next hko =>
      refine congrArg (t.entries.find? ·) (funext fun e => ?_)
      cases hother : e.1.same other with
      | false => simp
      | true =>
        have hkey : e.1.same key = false := Bool.eq_false_iff.2 fun hkey =>
          hko (Value.same_trans (Value.same_symm hkey) hother)
        simp [hkey]
  unfold get? erase
  rw [hentries]
  split <;> rfl

end Table

/-! ## What a script reads back -/

namespace Eval

variable {σ : Type} {s : State σ} {key : Value}

/-- What a script reads in a table is what stands under the key, or nil. -/
theorem index_table (host : Host σ) (a : Address) (hkey : key.isKey = true) (span : Span) :
    index host (.table a) key span s = (.ok (((s.heap.table a).get? key).getD .nil), s) := by
  cases key <;> cases hkey <;> rfl

/-- A table with a value put under a key; nil is the wish to forget the key. -/
theorem setIndex_table (a : Address) (hkey : key.isKey = true) (value : Value) (span : Span) :
    ∃ t : Table Value,
      setIndex (.table a) key value span s = (.ok (), { s with heap := s.heap.setTable a t }) ∧
      ∀ other, (t.get? other).getD .nil =
        if key.same other then value else ((s.heap.table a).get? other).getD .nil := by
  by_cases hnil : value = .nil
  · subst hnil
    refine ⟨(s.heap.table a).erase key, ?_, fun other => ?_⟩
    · cases key <;> cases hkey <;> rfl
    · rw [Table.get?_erase]
      split <;> rfl
  · refine ⟨(s.heap.table a).insert key value, ?_, fun other => ?_⟩
    · cases key <;> cases hkey <;> cases value <;> first | rfl | exact absurd rfl hnil
    · rw [Table.get?_insert]
      split <;> rfl

/-- **What is put into a table is found under the keys that are equal to its key, and under their
counterparts.** -/
theorem index_setIndex (host : Host σ) {a : Address} (ha : a < s.heap.tables.size)
    {key other : Value} (hkey : key.isKey = true) (hother : other.isKey = true) (value : Value)
    (span span' : Span) :
    ∃ before t, index host (.table a) other span' s = (.ok before, s) ∧
      setIndex (.table a) key value span s = (.ok (), t) ∧
      ((s.heap.equal key other = .ok true ∨ key.Counterparts other) →
        index host (.table a) other span' t = (.ok value, t)) ∧
      (¬ (s.heap.equal key other = .ok true ∨ key.Counterparts other) →
        index host (.table a) other span' t = (.ok before, t)) := by
  obtain ⟨table, hset, hget⟩ := setIndex_table (s := s) a hkey value span
  have hstored : (s.heap.setTable a table).table a = table := by
    simp [Heap.setTable, Heap.table, ha]
  refine ⟨_, _, index_table host a hother span', hset, fun h => ?_, fun h => ?_⟩
  · rw [index_table host a hother span']
    dsimp only
    rw [hstored, hget, if_pos ((Heap.same_iff_of_isKey s.heap hkey).2 h)]
  · rw [index_table host a hother span']
    dsimp only
    rw [hstored, hget, if_neg (mt (Heap.same_iff_of_isKey s.heap hkey).1 h)]

/-- Under `true` something is put into a table that has an entry under `1`. The two keys are not
equal, but the number reads what was put under the boolean. -/
theorem index_setIndex_counterpart :
    let s : State Recorder :=
      { Recorder.ready with heap := { tables := #[⟨[(.int 1, .string "one")]⟩] } }
    let host := Recorder.host 8
    let here : Span := ⟨0, 1⟩
    0 < s.heap.tables.size ∧ (Value.bool true).isKey = true ∧ (Value.int 1).isKey = true ∧
      s.heap.equal (.bool true) (.int 1) = .ok false ∧ (Value.bool true).Counterparts (.int 1) ∧
      index host (.table 0) (.int 1) here s = (.ok (.string "one"), s) ∧
      ∃ t, setIndex (.table 0) (.bool true) (.string "yes") here s = (.ok (), t) ∧
        index host (.table 0) (.int 1) here t = (.ok (.string "yes"), t) := by
  intro s host here
  have hpair : (Value.bool true).Counterparts (.int 1) := .number (by decide)
  obtain ⟨before, t, hbefore, hset, hfound, -⟩ := @index_setIndex _ s host 0 (by decide)
    (.bool true) (.int 1) rfl rfl (.string "yes") here here
  exact ⟨by decide, rfl, rfl, rfl, hpair, rfl, t, hset, hfound (.inr hpair)⟩

end Eval

end CommandScript
