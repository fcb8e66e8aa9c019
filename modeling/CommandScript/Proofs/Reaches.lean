import CommandScript.Proofs.Clean
/-!
# CommandScript — what can be reached from a state

From globals, the frames in scope, what is on its way and what the host keeps, one comes
to items, entries, captured frames and their variables, and from these further on. What
can be reached is the least that nothing leads out of: it lies in every reach that is
closed and holds what one begins with, and together with the addresses that are still to
be used it is such a reach itself.
-/

namespace CommandScript

variable {σ : Type}

/-- What one can come to. -/
inductive Place where
  | value (v : Value)
  | frame (f : FrameId)

/-- One comes to a place from a state, or from values that are given besides. -/
inductive State.Reaches (kept : σ → Value → Prop) (given : List Value) (s : State σ) :
    Place → Prop where
  | given {v : Value} : v ∈ given → Reaches kept given s (.value v)
  | kept {v : Value} : kept s.host v → Reaches kept given s (.value v)
  | global {name : String} {v : Value} : s.globals.get? name = some v →
      Reaches kept given s (.value v)
  | pending {p : Pending} {v : Value} : s.pending = some p → v ∈ p.values →
      Reaches kept given s (.value v)
  | scope : Reaches kept given s (.frame s.scope)
  | up {f above : FrameId} : Reaches kept given s (.frame f) →
      (s.frames.frame f).up = some above → Reaches kept given s (.frame above)
  | var {f : FrameId} {name : String} {v : Value} : Reaches kept given s (.frame f) →
      (s.frames.vars f).get? name = some v → Reaches kept given s (.value v)
  | captured {a : Address} {c : Closure} : Reaches kept given s (.value (.lambda a)) →
      s.heap.lambdas[a]? = some c → Reaches kept given s (.frame c.frame)
  | item {a : Address} {v : Value} : Reaches kept given s (.value (.vector a)) →
      v ∈ s.heap.vector a → Reaches kept given s (.value v)
  | key {a : Address} {e : Value × Value} : Reaches kept given s (.value (.table a)) →
      e ∈ (s.heap.table a).entries → Reaches kept given s (.value e.1)
  | entry {a : Address} {e : Value × Value} : Reaches kept given s (.value (.table a)) →
      e ∈ (s.heap.table a).entries → Reaches kept given s (.value e.2)
  | element {a : Address} {v : Value} : Reaches kept given s (.value (.tuple a)) →
      v ∈ s.heap.tuple a → Reaches kept given s (.value v)
  /-- A method is the one of a tuple. -/
  | subject {a : Address} {m : TupleMethod} : Reaches kept given s (.value (.method a m)) →
      Reaches kept given s (.value (.tuple a))

/-- A place lies in a reach. -/
def Reach.Has (r : Reach) : Place → Prop
  | .value v => r.region.Holds v
  | .frame f => r.frame f

variable {kept : σ → Value → Prop} {given : List Value} {s : State σ} {r : Reach}

/-- **Nothing leads out of what is closed.** -/
theorem Reach.Closed.has_of_reaches {P : FunctionBody → Prop} (hs : r.Closed P kept s)
    (hgiven : r.region.Held given) {p : Place} (h : s.Reaches kept given p) : r.Has p := by
  induction h with
  | given hv => exact hgiven _ hv
  | kept hv => exact hs.guards.kept hv
  | global hv => exact hs.globals _ _ hv
  | pending hp hv => exact hs.pending _ hp _ hv
  | scope => exact hs.scope
  | up _ habove ih => exact hs.up _ ih _ habove
  | var _ hv ih => exact hs.vars _ ih _ _ hv
  | captured _ hc ih => exact (hs.lambdas _ _ ih hc).1
  | item _ hv ih => exact hs.guards.heap.vector ih _ hv
  | key _ he ih => exact (hs.guards.heap.table ih _ he).1
  | entry _ he ih => exact (hs.guards.heap.table ih _ he).2
  | element _ hv ih => exact hs.guards.heap.tuple ih _ hv
  | subject _ ih => exact ih

/-- What can be reached, and what is still to be made. -/
def State.reach (kept : σ → Value → Prop) (s : State σ) : Reach where
  region :=
    { vector := fun a => s.Reaches kept [] (.value (.vector a)) ∨ s.heap.vectors.size ≤ a
      table := fun a => s.Reaches kept [] (.value (.table a)) ∨ s.heap.tables.size ≤ a
      tuple := fun a => s.Reaches kept [] (.value (.tuple a)) ∨ s.heap.tuple a = []
      lambda := fun a => s.Reaches kept [] (.value (.lambda a)) ∨ s.heap.lambdas.size ≤ a }
  frame f := s.Reaches kept [] (.frame f) ∨ s.frames.all.size ≤ f

theorem State.Reaches.holds_reach {v : Value} (h : s.Reaches kept [] (.value v)) :
    (s.reach kept).region.Holds v := by
  cases v with
  | vector a => exact .inl h
  | table a => exact .inl h
  | tuple a => exact .inl h
  | method a m => exact .inl h.subject
  | lambda a => exact .inl h
  | _ => trivial

theorem Heap.vector_of_size_le {h : Heap} {a : Address} (ha : h.vectors.size ≤ a) :
    h.vector a = [] := by
  rw [Heap.vector, Array.getElem?_eq_none ha]
  rfl

theorem Heap.table_of_size_le {h : Heap} {a : Address} (ha : h.tables.size ≤ a) :
    h.table a = {} := by
  rw [Heap.table, Array.getElem?_eq_none ha]
  rfl

/-- **What can be reached is closed.** -/
theorem State.closed_reach (kept : σ → Value → Prop) (s : State σ) :
    (s.reach kept).Closed (fun _ => True) kept s := by
  constructor
  case guards =>
    refine ⟨⟨?vector, ?table, ?tuple, .inr, .inr, .inr⟩, fun hv => (Reaches.kept hv).holds_reach⟩
    case vector =>
      rintro a (ha | ha) v hv
      · exact (ha.item hv).holds_reach
      · rw [Heap.vector_of_size_le ha] at hv
        cases hv
    case table =>
      rintro a (ha | ha) e he
      · exact ⟨(ha.key he).holds_reach, (ha.entry he).holds_reach⟩
      · rw [Heap.table_of_size_le ha] at he
        cases he
    case tuple =>
      rintro a (ha | ha) v hv
      · exact (ha.element hv).holds_reach
      · rw [ha] at hv
        cases hv
  case globals => exact fun name v hv => (Reaches.global hv).holds_reach
  case pending => exact fun p hp v hv => (Reaches.pending hp hv).holds_reach
  case scope => exact .inl .scope
  case newFrame => exact fun f hf => .inr hf
  case newLambda => exact fun a ha => .inr ha
  case vars =>
    rintro f (hf | hf) name v hv
    · exact (hf.var hv).holds_reach
    · rw [Frames.vars, Frames.frame_of_size_le hf] at hv
      cases hv
  case up =>
    rintro f (hf | hf) above habove
    · exact .inl (hf.up habove)
    · rw [Frames.frame_of_size_le hf] at habove
      cases habove
  case lambdas =>
    rintro a c (ha | ha) hc
    · exact ⟨.inl (ha.captured hc), trivial⟩
    · rw [Array.getElem?_eq_none ha] at hc
      cases hc

end CommandScript
