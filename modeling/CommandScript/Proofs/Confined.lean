import CommandScript.Proofs.Discipline
import CommandScript.Host.Recorder
/-!
# CommandScript — hosts that keep to what they have

A host is confined if it hands over nothing but what it was given, what it keeps and
what it makes, and leaves globals, frames and lambdas as they are. That is said of all
regions at once: whatever region of shared values it works in, it does not get out of
it.

A region has to give room for new values, so it contains every address that is not in
use yet. Of tuples it contains every empty one, as there is only one of them.
-/

namespace CommandScript

variable {σ : Type}

namespace Heap

theorem vector_newVector (h : Heap) (items : List Value) (a : Address) :
    (h.newVector items).2.vector a = if a = h.vectors.size then items else h.vector a := by
  unfold newVector vector
  simp only [Array.getElem?_push]
  split <;> rfl

theorem table_newTable (h : Heap) (t : Table Value) (a : Address) :
    (h.newTable t).2.table a = if a = h.tables.size then t else h.table a := by
  unfold newTable table
  simp only [Array.getElem?_push]
  split <;> rfl

/-- A new tuple is one that was not there, or the empty one. -/
theorem newTuple_cases (h : Heap) (items : List Value) :
    (∃ a, items = [] ∧ h.tuple a = [] ∧ h.newTuple items = (.tuple a, h)) ∨
      h.newTuple items = (.tuple h.tuples.size, { h with tuples := h.tuples.push items }) := by
  unfold newTuple
  split
  · next a ha =>
    obtain ⟨hlt, hempty, -⟩ := Array.findIdx?_eq_some_iff_getElem.1 ha
    refine .inl ⟨a, rfl, ?_, rfl⟩
    unfold tuple
    rw [Array.getElem?_eq_getElem hlt]
    exact List.isEmpty_iff.1 hempty
  · exact .inr rfl

theorem lambdas_newTuple (h : Heap) (items : List Value) :
    (h.newTuple items).2.lambdas = h.lambdas := by
  obtain ⟨a, -, -, hnew⟩ | hnew := h.newTuple_cases items <;> rw [hnew]

theorem vector_setVector (h : Heap) (a b : Address) (items : List Value) :
    (h.setVector a items).vector b =
      if a = b ∧ a < h.vectors.size then items else h.vector b := by
  unfold setVector vector
  simp only [Array.getElem?_setIfInBounds]
  by_cases hab : a = b
  · subst hab
    by_cases ha : a < h.vectors.size <;> simp [ha]
  · simp [hab]

theorem table_setTable (h : Heap) (a b : Address) (t : Table Value) :
    (h.setTable a t).table b = if a = b ∧ a < h.tables.size then t else h.table b := by
  unfold setTable table
  simp only [Array.getElem?_setIfInBounds]
  by_cases hab : a = b
  · subst hab
    by_cases ha : a < h.tables.size <;> simp [ha]
  · simp [hab]

end Heap

/-! ## Regions that nothing leads out of -/

/-- What stands in the region stays in it, and there is room for new values. -/
structure Region.Encloses (R : Region) (h : Heap) : Prop where
  vector : ∀ {a}, R.vector a → R.Held (h.vector a)
  table : ∀ {a}, R.table a → R.HeldTable (h.table a)
  tuple : ∀ {a}, R.tuple a → R.Held (h.tuple a)
  newVector : ∀ {a}, h.vectors.size ≤ a → R.vector a
  newTable : ∀ {a}, h.tables.size ≤ a → R.table a
  emptyTuple : ∀ {a}, h.tuple a = [] → R.tuple a

namespace Region.Encloses

variable {R : Region} {h : Heap} {a : Address} {items : List Value} {t : Table Value}

theorem made_vector (hR : R.Encloses h) (hi : R.Held items) :
    R.Holds (h.newVector items).1 ∧ R.Encloses (h.newVector items).2 := by
  refine ⟨hR.newVector (Nat.le_refl _), fun ha => ?_, hR.table, hR.tuple, fun ha => ?_,
    hR.newTable, hR.emptyTuple⟩
  · rw [Heap.vector_newVector]
    split
    · exact hi
    · exact hR.vector ha
  · simp only [Heap.newVector, Array.size_push] at ha
    exact hR.newVector (by omega)

theorem made_table (hR : R.Encloses h) (ht : R.HeldTable t) :
    R.Holds (h.newTable t).1 ∧ R.Encloses (h.newTable t).2 := by
  refine ⟨hR.newTable (Nat.le_refl _), hR.vector, fun ha => ?_, hR.tuple, hR.newVector,
    fun ha => ?_, hR.emptyTuple⟩
  · rw [Heap.table_newTable]
    split
    · exact ht
    · exact hR.table ha
  · simp only [Heap.newTable, Array.size_push] at ha
    exact hR.newTable (by omega)

theorem made_tuple (hR : R.Encloses h) (hi : R.Held items) :
    R.Holds (h.newTuple items).1 ∧ R.Encloses (h.newTuple items).2 := by
  obtain ⟨a, -, hempty, hnew⟩ | hnew := h.newTuple_cases items <;> rw [hnew]
  · exact ⟨hR.emptyTuple hempty, hR⟩
  · have hread : ∀ b, Heap.tuple { h with tuples := h.tuples.push items } b =
        if b = h.tuples.size then items else h.tuple b := by
      intro b
      unfold Heap.tuple
      simp only [Array.getElem?_push]
      split <;> rfl
    have hend : h.tuple h.tuples.size = [] := by
      unfold Heap.tuple
      rw [Array.getElem?_eq_none (Nat.le_refl _)]
      rfl
    refine ⟨hR.emptyTuple hend, hR.vector, hR.table, fun {b} hb => ?_, hR.newVector, hR.newTable,
      fun {b} hb => ?_⟩
    · rw [hread]
      split
      · exact hi
      · exact hR.tuple hb
    · rw [hread] at hb
      split at hb
      · next hsize => exact hR.emptyTuple (hsize ▸ hend)
      · exact hR.emptyTuple hb

theorem set_vector (hR : R.Encloses h) (hi : R.Held items) : R.Encloses (h.setVector a items) := by
  refine ⟨fun {b} hb => ?_, hR.table, hR.tuple, fun hb => ?_, hR.newTable, hR.emptyTuple⟩
  · rw [Heap.vector_setVector]
    split
    · exact hi
    · exact hR.vector hb
  · simp only [Heap.setVector, Array.size_setIfInBounds] at hb
    exact hR.newVector hb

theorem set_table (hR : R.Encloses h) (ht : R.HeldTable t) : R.Encloses (h.setTable a t) := by
  refine ⟨hR.vector, fun {b} hb => ?_, hR.tuple, hR.newVector, fun hb => ?_, hR.emptyTuple⟩
  · rw [Heap.table_setTable]
    split
    · exact ht
    · exact hR.table hb
  · simp only [Heap.setTable, Array.size_setIfInBounds] at hb
    exact hR.newTable hb

end Region.Encloses

/-- Neither the heap nor what the host keeps leads out of the region. -/
structure Region.Guards (R : Region) (kept : σ → Value → Prop) (s : State σ) : Prop where
  heap : R.Encloses s.heap
  kept : ∀ {v}, kept s.host v → R.Holds v

/-! ## Confined hosts -/

namespace State

/-- Names mean the same, lambdas are the same, and the same statement is on its way. -/
structure SameNames (s t : State σ) : Prop where
  globals : t.globals = s.globals
  frames : t.frames = s.frames
  scope : t.scope = s.scope
  pending : t.pending = s.pending
  lambdas : t.heap.lambdas = s.heap.lambdas

theorem SameNames.refl (s : State σ) : s.SameNames s := ⟨rfl, rfl, rfl, rfl, rfl⟩

end State

/-- The host hands over what it was given, what it keeps and what it makes, and nothing
else, and its commands leave globals, frames and lambdas alone. -/
structure Host.Confined (host : Host σ) (kept : σ → Value → Prop) : Prop where
  command : ∀ (R : Region) name arguments (s : State σ), R.Guards kept s → R.Held arguments →
    (host.command name arguments s).Follows (R.Guards kept) State.SameNames R.Holds s
  field : ∀ (R : Region) object name (s : State σ), R.Guards kept s →
    R.Holds (host.field object name s)

/-- The commands of the host leave globals, frames and lambdas alone, whatever they are
given. -/
def Host.LeavesNames (host : Host σ) : Prop :=
  ∀ name arguments (s : State σ),
    (host.command name arguments s).Follows (fun _ => True) State.SameNames (fun _ => True) s

theorem Host.Confined.leavesNames {host : Host σ} {kept : σ → Value → Prop}
    (h : host.Confined kept) : host.LeavesNames := by
  intro name arguments s
  have hall : ∀ s : State σ, Region.all.Guards kept s := fun s =>
    ⟨⟨fun _ _ _ => Region.holds_all _, fun _ _ _ => ⟨Region.holds_all _, Region.holds_all _⟩,
      fun _ _ _ => Region.holds_all _, fun _ => trivial, fun _ => trivial, fun _ => trivial⟩,
      fun _ => Region.holds_all _⟩
  have hreply := h.command Region.all name arguments s (hall s) fun _ _ => Region.holds_all _
  have hfollows := hreply.mono
    (fun s (_ : True) => hall s) (fun _ _ _ _ h => ⟨trivial, h⟩) trivial
  rwa [Region.holds_all_eq] at hfollows

/-! ## The recording host -/

namespace Recorder

/-- The values that the recording host may hand over later on. -/
def Kept (r : Recorder) (v : Value) : Prop := v = r.tags ∨ ∃ name, r.stored.get? name = some v

variable {R : Region} {s : State Recorder}

/-- A reply of the recording host that does not get out of a region. -/
abbrev Confines (R : Region) (s : State Recorder) (r : Reply Recorder) : Prop :=
  r.Follows (R.Guards Kept) State.SameNames R.Holds s

theorem guards_note (hs : R.Guards Kept s) (entry : LogEntry) : R.Guards Kept (note entry s) :=
  ⟨hs.heap, hs.kept⟩

theorem confines_note (hs : R.Guards Kept s) (entry : LogEntry) {v : Value} (hv : R.Holds v) :
    Confines R s (.value v (note entry s)) :=
  .value (guards_note hs entry) ⟨rfl, rfl, rfl, rfl, rfl⟩ hv

theorem confines_mapFrom {vector : Address} {f : Value} (hf : R.Holds f) (hv : R.vector vector)
    (rounds : Nat) {done : List Value} (hs : R.Guards Kept s) (hd : R.Held done) :
    Confines R s (mapFrom vector f rounds done s) := by
  induction rounds generalizing done s with
  | zero => exact .crash hs (.refl s)
  | succ n ih =>
    unfold mapFrom
    split
    · next item hi =>
      have hitem : R.Holds item := hs.heap.vector hv item (List.mem_of_getElem? hi)
      refine .call hs (.refl s) hf (by simpa using hitem) fun r t hr ht => ih ht ?_
      exact hd.append (by simpa using hr)
    · obtain ⟨hnew, hheap⟩ := hs.heap.made_vector hd
      exact .value ⟨hheap, hs.kept⟩ ⟨rfl, rfl, rfl, rfl, rfl⟩ hnew

theorem confines_command (rounds : Nat) (name : String) {vs : List Value}
    (hs : R.Guards Kept s) (hvs : R.Held vs) : Confines R s (command rounds name vs s) := by
  have hcrash : ∀ c, Confines R s (.crash c s) := fun c => .crash hs (.refl s)
  have hvalue : ∀ v, R.Holds v → Confines R s (.value v s) := fun v hv => .value hs (.refl s) hv
  have hmake : ∀ {new : Heap → Value × Heap},
      R.Holds (new s.heap).1 ∧ R.Encloses (new s.heap).2 →
      (new s.heap).2.lambdas = s.heap.lambdas → Confines R s (make new s) :=
    fun h hl => .value ⟨h.2, hs.kept⟩ ⟨rfl, rfl, rfl, rfl, hl⟩ h.1
  unfold command
  split
  case h_1 | h_8 =>
    split
    · first
      | exact confines_note hs _ trivial
      | exact hcrash _
    · exact hcrash _
  case h_2 => exact confines_note hs _ trivial
  case h_3 => exact confines_note hs _ trivial
  case h_4 =>
    split
    · exact hvalue _ trivial
    · exact hcrash _
  case h_5 => exact hvalue _ hvs.headD
  case h_6 => exact hmake (hs.heap.made_tuple hvs) (Heap.lambdas_newTuple _ _)
  case h_7 => exact hmake (hs.heap.made_vector hvs) rfl
  case h_9 f rest =>
    obtain ⟨hf, hrest⟩ := Region.held_cons.1 hvs
    split
    · exact .call hs (.refl s) hf hrest fun v t hv ht => .value ht (.refl t) hv
    · exact hcrash _
  case h_11 a f rest =>
    obtain ⟨ha, hrest⟩ := Region.held_cons.1 hvs
    split
    · exact confines_mapFrom (Region.held_cons.1 hrest).1 ha rounds hs Region.held_nil
    · exact hcrash _
  case h_13 => exact confines_note hs _ trivial
  case h_14 key v =>
    have hv : R.Holds v := hvs v (by simp)
    refine .value ⟨hs.heap, fun {w} hw => ?_⟩ ⟨rfl, rfl, rfl, rfl, rfl⟩ trivial
    obtain rfl | ⟨name, hname⟩ := hw
    · exact hs.kept (.inl rfl)
    · rw [Names.get?_insert] at hname
      split at hname
      · cases hname
        exact hv
      · exact hs.kept (.inr ⟨name, hname⟩)
  case h_16 =>
    split
    · exact hvalue _ trivial
    · exact hcrash _
  case h_18 => exact hvalue _ trivial
  all_goals exact hcrash _

/-- **The recording host is confined**: what it keeps are the values that were stored
and the vector of its object. -/
theorem confined_host (rounds : Nat) : (host rounds).Confined Kept where
  command R name vs s hs hvs := confines_command rounds name hs hvs
  field R object name s hs := by
    change R.Holds (field object name s)
    unfold field
    split
    · trivial
    · split
      case h_3 => exact hs.kept (.inl rfl)
      all_goals trivial

end Recorder

end CommandScript
