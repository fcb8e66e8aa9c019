import CommandScript.Proofs.Datum
import CommandScript.Proofs.Keys
/-!
# CommandScript — the same data is equal

The `==` of scripts compares containers by what is in them. It finds two values of a heap
equal that are the same data there, wherever they are. The other way round it may find
more: numbers and booleans are compared as numbers inside containers, and tables without
regard to the order of their keys.
-/

namespace CommandScript

variable {h : Heap}

theorem Key.same_self (k : Key) : k.value.same k.value = true :=
  Value.same_refl (by cases k <;> exact nofun)

namespace Datum

/-- Under a key that differs from the other ones stands what was put there. -/
theorem exists_get?_eq {es : List (Key × Datum)} {entries : List (Value × Value)}
    (hentries : List.Forall₂ (fun e p => p.1 = e.1.value ∧ Is h e.2 p.2) es entries)
    (distinct : es.Pairwise fun e f => e.1.value.same f.1.value = false) {e : Key × Datum}
    (he : e ∈ es) : ∃ w, (Table.mk entries).get? e.1.value = some w ∧ e.2.Is h w := by
  induction hentries with
  | nil => exact absurd he List.not_mem_nil
  | @cons f p es entries hp _ ih =>
    obtain ⟨hother, hdistinct⟩ := List.pairwise_cons.1 distinct
    obtain ⟨hkey, hvalue⟩ := hp
    obtain rfl | he := List.mem_cons.1 he
    · refine ⟨p.2, ?_, hvalue⟩
      rw [Table.get?, List.find?_cons_of_pos (by rw [hkey]; exact e.1.same_self)]
      rfl
    · obtain ⟨w, hw, his⟩ := ih hdistinct he
      refine ⟨w, ?_, his⟩
      rw [Table.get?, List.find?_cons_of_neg (by rw [hkey, hother e he]; decide)]
      exact hw

/-- Items that are the same data are equal one by one. -/
theorem allPairs_eq {test : Value → Value → Except Crash Bool} {ds : List Datum}
    {vs ws : List Value}
    (htest : ∀ d ∈ ds, ∀ {v w}, d.Is h v → d.Is h w → test v w = .ok true)
    (hvs : List.Forall₂ (Is h) ds vs) (hws : List.Forall₂ (Is h) ds ws) :
    allPairs test (vs.zip ws) = .ok true := by
  induction hvs generalizing ws with
  | nil => rw [List.zip_nil_left]; rfl
  | cons hv _ ih =>
    cases hws with
    | cons hw hws =>
      obtain ⟨hhead, htail⟩ := List.forall_mem_cons.1 htest
      rw [List.zip_cons_cons, allPairs, hhead hv hw]
      exact ih htail hws

/-- Entries that are the same data are equal, whatever stands around them in the other
table. -/
theorem sameEntries_eq {test : Value → Value → Except Crash Bool} {right : Table Value}
    {es : List (Key × Datum)} {entries : List (Value × Value)}
    (htest : ∀ e ∈ es, ∀ {v w}, e.2.Is h v → e.2.Is h w → test v w = .ok true)
    (hright : ∀ e ∈ es, ∃ w, right.get? e.1.value = some w ∧ e.2.Is h w)
    (hentries : List.Forall₂ (fun e p => p.1 = e.1.value ∧ Is h e.2 p.2) es entries) :
    Heap.sameEntries test right entries = .ok true := by
  induction hentries with
  | nil => rfl
  | @cons e p es entries hp _ ih =>
    obtain ⟨key, v⟩ := p
    obtain ⟨rfl, hv⟩ := hp
    obtain ⟨⟨w, hget, hw⟩, hright⟩ := List.forall_mem_cons.1 hright
    obtain ⟨hhead, htail⟩ := List.forall_mem_cons.1 htest
    rw [Heap.sameEntries, hget]
    dsimp only
    rw [hhead hv hw]
    exact ih htail hright

/-- **The same data is equal**, to any depth that is not less than its levels. -/
theorem Writable.equalWithin_eq {d : Datum} (hd : d.Writable) {v w : Value} (hv : d.Is h v)
    (hw : d.Is h w) {n : Nat} (hn : d.levels ≤ n) : h.equalWithin n v w = .ok true := by
  induction hd generalizing v w n with
  | @scalar d hd =>
    have hsame : v.same w = true := by
      cases hd <;> cases hv <;> cases hw
      · rfl
      · exact Key.same_self (.bool _)
      · exact Key.same_self (.int _)
      · exact Key.same_self (.string _)
    unfold Heap.equalWithin
    rw [if_pos hsame]
  | @vector ds items ih =>
    obtain ⟨n, rfl⟩ := Nat.exists_eq_succ_of_ne_zero (Nat.ne_zero_of_lt hn)
    cases hv with
    | @vector _ a vs stored hvs =>
      cases hw with
      | @vector _ b ws stored' hws =>
        have hlevels : ∀ d ∈ ds, d.levels ≤ n := fun d hd =>
          Nat.le_trans (levels_le_levelsAll hd) (Nat.le_of_succ_le_succ hn)
        have hpairs : allPairs (h.equalWithin n) (vs.zip ws) = .ok true :=
          allPairs_eq (fun d hd _ _ hv hw => ih d hd hv hw (hlevels d hd)) hvs hws
        have hlength : vs.length = ws.length := hvs.length_eq.symm.trans hws.length_eq
        have hleft : h.vector a = vs := by rw [Heap.vector, stored, Option.getD_some]
        have hright : h.vector b = ws := by rw [Heap.vector, stored', Option.getD_some]
        rw [Heap.equalWithin, hleft, hright]
        split
        · rfl
        · rw [if_neg (by simp [hlength])]
          exact hpairs
  | @table es keys names distinct present values ih =>
    obtain ⟨n, rfl⟩ := Nat.exists_eq_succ_of_ne_zero (Nat.ne_zero_of_lt hn)
    cases hv with
    | @table _ a t stored hkeys hvalues =>
      cases hw with
      | @table _ b u stored' hkeys' hvalues' =>
        have hlevels : ∀ e ∈ es, e.2.levels ≤ n := fun e he =>
          Nat.le_trans (levels_le_levelsEntries he) (Nat.le_of_succ_le_succ hn)
        have hentries := is_entries hkeys hvalues
        have hentries' := is_entries hkeys' hvalues'
        have hsame : Heap.sameEntries (h.equalWithin n) u t.entries = .ok true :=
          sameEntries_eq (fun e he _ _ hv hw => ih e he hv hw (hlevels e he))
            (fun e he => exists_get?_eq hentries' distinct he) hentries
        have hsize : t.size = u.size := hentries.length_eq.symm.trans hentries'.length_eq
        have hleft : h.table a = t := by rw [Heap.table, stored, Option.getD_some]
        have hright : h.table b = u := by rw [Heap.table, stored', Option.getD_some]
        rw [Heap.equalWithin, hleft, hright]
        split
        · rfl
        · rw [if_neg (by simp [hsize])]
          exact hsame

/-- **The same data is equal.** There are pairs of containers enough for its levels. -/
theorem Writable.equal_eq {d : Datum} (hd : d.Writable) {v w : Value} (hv : d.Is h v)
    (hw : d.Is h w) : h.equal v w = .ok true := by
  have hkind : v.kind = w.kind := by cases hv <;> cases hw <;> rfl
  have hlevels : d.levels ≤ h.containers * h.containers + 1 := by
    have hle := hv.levels_le
    have hsquare := Nat.le_mul_self h.containers
    omega
  rw [Heap.equal, if_neg (by simp [hkind])]
  exact hd.equalWithin_eq hv hw hlevels

end Datum

end CommandScript
