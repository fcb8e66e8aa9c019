import CommandScript.Proofs.Confined
import CommandScript.Proofs.Rules
import CommandScript.Proofs.Scope
/-!
# CommandScript — a run meets the faults of its own text

Where no lambda is in reach when a text is run, all lambdas that are called come from
the text itself. So whatever is missing or unknown when the run fails is missing or
unknown in this text (`mem_faults_of_execute_failed`).

The invariant is a region of shared values: those without a lambda inside, and those
that are made during the run. Every lambda in it was made where the names that its
body counts on are in sight. Frames matter in the same way: from the scope of the run
only the frames above it can be reached, and new ones.
-/

namespace CommandScript

variable {σ : Type}

/-! ## Values without lambdas -/

namespace Heap

/-- The second value is the first one, or somewhere inside it. -/
inductive Inside (h : Heap) : Value → Value → Prop where
  | self (v : Value) : Inside h v v
  | item {a : Address} {w u : Value} : w ∈ h.vector a → Inside h w u → Inside h (.vector a) u
  | key {a : Address} {e : Value × Value} {u : Value} :
      e ∈ (h.table a).entries → Inside h e.1 u → Inside h (.table a) u
  | entry {a : Address} {e : Value × Value} {u : Value} :
      e ∈ (h.table a).entries → Inside h e.2 u → Inside h (.table a) u
  | part {a : Address} {w u : Value} : w ∈ h.tuple a → Inside h w u → Inside h (.tuple a) u
  | method {a : Address} {m : TupleMethod} {u : Value} :
      Inside h (.tuple a) u → Inside h (.method a m) u

/-- A value is no lambda, and there is none inside it. -/
def LambdaFree (h : Heap) (v : Value) : Prop := ∀ a, ¬ h.Inside v (.lambda a)

/-- The shared values without a lambda inside, and lambdas that are still to be made. -/
def free (h : Heap) : Region where
  vector a := h.LambdaFree (.vector a)
  table a := h.LambdaFree (.table a)
  tuple a := h.LambdaFree (.tuple a)
  lambda a := h.lambdas.size ≤ a

variable {h : Heap} {v : Value}

theorem LambdaFree.holds (hv : h.LambdaFree v) : h.free.Holds v := by
  cases v with
  | vector a | table a | tuple a => exact hv
  | method a m => exact fun l hl => hv l (.method hl)
  | lambda a => exact absurd (.self _) (hv a)
  | _ => trivial

/-- What lies in a region that nothing leads out of, and that has no lambdas, has none
inside. -/
theorem lambdaFree_of_region {R : Region} (hvector : ∀ a, R.vector a → R.Held (h.vector a))
    (htable : ∀ a, R.table a → R.HeldTable (h.table a))
    (htuple : ∀ a, R.tuple a → R.Held (h.tuple a)) (hlambda : ∀ a, ¬ R.lambda a)
    (hv : R.Holds v) : h.LambdaFree v := by
  have hinside : ∀ {u w}, h.Inside u w → R.Holds u → R.Holds w := by
    intro u w hi
    induction hi with
    | self _ => exact id
    | item hw _ ih => exact fun hu => ih (hvector _ hu _ hw)
    | key he _ ih => exact fun hu => ih (htable _ hu _ he).1
    | entry he _ ih => exact fun hu => ih (htable _ hu _ he).2
    | part hw _ ih => exact fun hu => ih (htuple _ hu _ hw)
    | method _ ih => exact ih
  exact fun a ha => hlambda a (hinside ha hv)

theorem encloses_free (h : Heap) : h.free.Encloses h where
  vector ha w hw := LambdaFree.holds fun l hl => ha l (.item hw hl)
  table ha e he := ⟨LambdaFree.holds fun l hl => ha l (.key he hl),
    LambdaFree.holds fun l hl => ha l (.entry he hl)⟩
  tuple ha w hw := LambdaFree.holds fun l hl => ha l (.part hw hl)
  newVector := by
    intro a ha l hl
    cases hl with
    | item hw _ => simp [Heap.vector, Array.getElem?_eq_none ha] at hw
  newTable := by
    intro a ha l hl
    cases hl with
    | key he _ | entry he _ => simp [Heap.table, Array.getElem?_eq_none ha] at he
  emptyTuple := by
    intro a ha l hl
    cases hl with
    | part hw _ => simp [ha] at hw

end Heap

/-- The second frame is the first one, or above it. -/
inductive Frames.Above (fs : Frames) (id : FrameId) : FrameId → Prop where
  | here : Above fs id id
  | up {f above : FrameId} : Above fs id f → (fs.frame f).up = some above → Above fs id above

/-- No global and no variable in sight is a lambda or holds one. -/
structure State.NamesLambdaFree (s : State σ) : Prop where
  globals : ∀ name v, s.globals.get? name = some v → s.heap.LambdaFree v
  vars : ∀ f, s.frames.Above s.scope f → ∀ name v, (s.frames.vars f).get? name = some v →
    s.heap.LambdaFree v

/-- No lambda is in reach: not through names, not through what is on its way, and not
through what the host keeps. -/
structure State.LambdaFree (kept : σ → Value → Prop) (s : State σ) : Prop
    extends State.NamesLambdaFree s where
  pending : ∀ p, s.pending = some p → ∀ v ∈ p.values, s.heap.LambdaFree v
  kept : ∀ v, kept s.host v → s.heap.LambdaFree v

/-! ## The invariant -/

section Invariant

variable (s₀ : State σ) (kept : σ → Value → Prop) (faults : List Fault)

/-- A frame that can be reached in a run. -/
def InReach (f : FrameId) : Prop := s₀.frames.Above s₀.scope f ∨ s₀.frames.all.size ≤ f

/-- A lambda counts on no more than what is in sight where it was made, and its faults
are among those of the text. -/
def OwnLambda (s : State σ) (c : Closure) : Prop :=
  InReach s₀ c.frame ∧ ∃ known : Sight,
    (∀ name, known name = true → (s.globals.has name || s.frames.has c.frame name) = true) ∧
      ∀ x ∈ Faults.body known c.body, x ∈ faults

/-- Of a run of a text with some faults: whatever can be reached leads to nothing but
what was in reach at the start, and to what was made since. -/
structure Sealed (s : State σ) : Prop where
  guards : s₀.heap.free.Guards kept s
  globals : s₀.heap.free.HeldNames s.globals
  pending : ∀ p, s.pending = some p → s₀.heap.free.Held p.values
  scope : InReach s₀ s.scope
  inStore : s.scope < s.frames.all.size
  size : s₀.frames.all.size ≤ s.frames.all.size
  vars : ∀ f, InReach s₀ f → s₀.heap.free.HeldNames (s.frames.vars f)
  up : ∀ f, InReach s₀ f → ∀ above, (s.frames.frame f).up = some above → InReach s₀ above
  newLambda : s₀.heap.lambdas.size ≤ s.heap.lambdas.size
  lambdas : ∀ a c, s₀.heap.lambdas.size ≤ a → s.heap.lambdas[a]? = some c →
    OwnLambda s₀ faults s c

/-- The same scope and globals, and no variable out of sight. -/
structure State.SameSight (s t : State σ) : Prop where
  scope : t.scope = s.scope
  globals : t.globals = s.globals
  frames : s.frames.Grows t.frames

/-- Names that are counted on are in sight, and where a run fails for a reason of its
tree, it is one of the faults. -/
def meetingOwnFaults : Discipline σ where
  region := s₀.heap.free
  Fine := Sealed s₀ kept faults
  Loose := Sealed s₀ kept faults
  Stops
    | .failed f, _ =>
      f.cause.isOfTree = true → ∃ span, f.span = some span ∧ ⟨f.cause, span⟩ ∈ faults
    | .crashed _, s => Sealed s₀ kept faults s
    | .exhausted, _ => True
  Rel := State.SameSight
  Sees s name := s.sees name = true
  Allows x := x ∈ faults

end Invariant

variable {s₀ s t : State σ} {kept : σ → Value → Prop} {faults : List Fault}

theorem State.SameSight.refl (s : State σ) : s.SameSight s := ⟨rfl, rfl, .refl _⟩

theorem State.SameSight.trans {u : State σ} (h : s.SameSight t) (h' : t.SameSight u) :
    s.SameSight u :=
  ⟨h'.scope.trans h.scope, h'.globals.trans h.globals, h.frames.trans h'.frames⟩

theorem State.SameSight.sees {name : String} (h : s.SameSight t) (hn : s.sees name = true) :
    t.sees name = true := by
  unfold State.sees at hn ⊢
  rw [h.globals, h.scope]
  rcases Bool.or_eq_true_iff.1 hn with hn | hn
  · rw [hn, Bool.true_or]
  · rw [h.frames.has _ _ hn, Bool.or_true]

/-- At the start nothing is made yet. -/
theorem Sealed.start (hs : s₀.LambdaFree kept) (hscope : s₀.scope < s₀.frames.all.size) :
    Sealed s₀ kept faults s₀ where
  guards := ⟨s₀.heap.encloses_free, fun hv => (hs.kept _ hv).holds⟩
  globals name v hv := (hs.globals name v hv).holds
  pending p hp v hv := (hs.pending p hp v hv).holds
  scope := .inl .here
  inStore := hscope
  size := Nat.le_refl _
  vars := by
    rintro f (hf | hf) name v hv
    · exact (hs.vars f hf name v hv).holds
    · unfold Frames.vars at hv
      rw [Frames.frame_of_size_le hf] at hv
      cases hv
  up := by
    rintro f (hf | hf) above habove
    · exact .inl (hf.up habove)
    · rw [Frames.frame_of_size_le hf] at habove
      cases habove
  newLambda := Nat.le_refl _
  lambdas a c ha hc := by
    rw [Array.getElem?_eq_none ha] at hc
    cases hc

namespace Sealed

/-- Another heap with the same lambdas, and another host. -/
theorem of_sameNames (hs : Sealed s₀ kept faults s) (ht : s₀.heap.free.Guards kept t)
    (h : s.SameNames t) : Sealed s₀ kept faults t := by
  obtain ⟨hglobals, hframes, hscope, hpending, hlambdas⟩ := h
  constructor
  case guards => exact ht
  case lambdas =>
    intro a c ha hc
    rw [hlambdas] at hc
    unfold OwnLambda
    rw [hglobals, hframes]
    exact hs.lambdas a c ha hc
  all_goals simp only [hglobals, hframes, hscope, hpending, hlambdas]
  case globals => exact hs.globals
  case pending => exact hs.pending
  case scope => exact hs.scope
  case inStore => exact hs.inStore
  case size => exact hs.size
  case vars => exact hs.vars
  case up => exact hs.up
  case newLambda => exact hs.newLambda

/-- Frames that grew, and another scope. -/
theorem withFrames (hs : Sealed s₀ kept faults s) {fs : Frames} {scope : FrameId} (depth : Nat)
    (hgrows : s.frames.Grows fs) (hscope : InReach s₀ scope) (hstore : scope < fs.all.size)
    (hvars : ∀ f, InReach s₀ f → s₀.heap.free.HeldNames (fs.vars f))
    (hup : ∀ f, InReach s₀ f → ∀ above, (fs.frame f).up = some above → InReach s₀ above) :
    Sealed s₀ kept faults { s with frames := fs, scope, depth } where
  guards := ⟨hs.guards.heap, hs.guards.kept⟩
  globals := hs.globals
  pending := hs.pending
  scope := hscope
  inStore := hstore
  size := Nat.le_trans hs.size hgrows.size
  vars := hvars
  up := hup
  newLambda := hs.newLambda
  lambdas a c ha hc := by
    obtain ⟨hframe, known, hknown, hfaults⟩ := hs.lambdas a c ha hc
    refine ⟨hframe, known, fun name hname => ?_, hfaults⟩
    rcases Bool.or_eq_true_iff.1 (hknown name hname) with h | h
    · exact Bool.or_eq_true_iff.2 (.inl h)
    · exact Bool.or_eq_true_iff.2 (.inr (hgrows.has _ _ h))

/-- Back in a scope from before. -/
theorem back (hs : Sealed s₀ kept faults s) (ht : Sealed s₀ kept faults t)
    (hgrows : s.frames.Grows t.frames) (depth : Nat) :
    Sealed s₀ kept faults { t with scope := s.scope, depth } :=
  ht.withFrames depth (.refl _) hs.scope (Nat.lt_of_lt_of_le hs.inStore hgrows.size) ht.vars ht.up

theorem holds_get (hs : Sealed s₀ kept faults s) (name : String) :
    s₀.heap.free.Holds (s.frames.get s.scope name) := by
  unfold Frames.get
  cases ho : s.frames.owner? s.scope name with
  | none => trivial
  | some f =>
    have hf : InReach s₀ f :=
      Frames.forall_mem_chain hs.up hs.scope f (List.mem_of_find?_eq_some ho)
    cases hv : (s.frames.vars f).get? name with
    | none => simp [hv, Region.Holds]
    | some v => simpa [hv] using hs.vars f hf name v hv

/-- Assigning to a variable in sight, or making a new one. -/
theorem assign (hs : Sealed s₀ kept faults s) (name : String) {v : Value}
    (hv : s₀.heap.free.Holds v) :
    Sealed s₀ kept faults { s with frames := s.frames.assign s.scope name v } := by
  have hframe : ∀ f, (s.frames.assign s.scope name v).frame f = s.frames.frame f ∨
      ∃ vars, (s.frames.assign s.scope name v).frame f = { s.frames.frame f with vars } ∧
        vars = (s.frames.vars f).insert name v := by
    intro f
    unfold Frames.assign Frames.set
    rw [Frames.frame_setVars]
    split
    · next hf => exact .inr ⟨_, rfl, by rw [hf.1]⟩
    · exact .inl rfl
  have hgrows := Frames.grows_assign s.frames s.scope name v
  refine hs.withFrames s.depth hgrows hs.scope (Nat.lt_of_lt_of_le hs.inStore hgrows.size)
    (fun f hf => ?_) fun f hf above habove => hs.up f hf above ?_
  · unfold Frames.vars
    obtain h | ⟨vars, h, rfl⟩ := hframe f <;> rw [h]
    · exact hs.vars f hf
    · exact (hs.vars f hf).insert name hv
  · obtain h | ⟨vars, h, -⟩ := hframe f <;> rw [h] at habove <;> exact habove

/-- A new scope, with variables of its own, below a frame that can be reached. -/
theorem enter (hs : Sealed s₀ kept faults s) {outer : FrameId} (root : Bool) (depth : Nat)
    (houter : InReach s₀ outer) {vars : Names Value} (hvars : s₀.heap.free.HeldNames vars) :
    Sealed s₀ kept faults { s with
      frames := (s.frames.child outer root).2.setVars (s.frames.child outer root).1 vars
      scope := (s.frames.child outer root).1, depth } := by
  have hnew : InReach s₀ (s.frames.child outer root).1 := .inr hs.size
  have hframe : ∀ f, ((s.frames.child outer root).2.setVars
      (s.frames.child outer root).1 vars).frame f =
      if f = s.frames.all.size then { vars, up := some outer, root } else s.frames.frame f := by
    intro f
    rw [Frames.frame_setVars, Frames.frame_child]
    by_cases hf : f = s.frames.all.size <;> simp [hf, Frames.child]
  have hgrows := (s.frames.grows_child outer root).trans
    (s.frames.grows_setVars_child outer root vars)
  refine hs.withFrames depth hgrows hnew ?_ (fun f hf => ?_) fun f hf above habove => ?_
  · simp [Frames.child, Frames.setVars]
  · unfold Frames.vars
    rw [hframe]
    split
    · exact hvars
    · exact hs.vars f hf
  · rw [hframe] at habove
    split at habove
    · cases habove
      exact houter
    · exact hs.up f hf above habove

/-- A new lambda that counts on what is in sight. -/
theorem made_lambda (hs : Sealed s₀ kept faults s) {c : Closure} (hc : OwnLambda s₀ faults s c) :
    Sealed s₀ kept faults { s with heap := (s.heap.newLambda c).2 } where
  guards := ⟨⟨hs.guards.heap.vector, hs.guards.heap.table, hs.guards.heap.tuple,
    hs.guards.heap.newVector, hs.guards.heap.newTable, hs.guards.heap.emptyTuple⟩, hs.guards.kept⟩
  globals := hs.globals
  pending := hs.pending
  scope := hs.scope
  inStore := hs.inStore
  size := hs.size
  vars := hs.vars
  up := hs.up
  newLambda := by
    have := hs.newLambda
    simp only [Heap.newLambda, Array.size_push]
    omega
  lambdas a d ha hd := by
    simp only [Heap.newLambda, Array.getElem?_push] at hd
    split at hd
    · cases hd
      exact hc
    · exact hs.lambdas a d ha hd

/-- Something else on its way, or nothing. -/
theorem withPending (hs : Sealed s₀ kept faults s) (pending : Option Pending)
    (h : ∀ p, pending = some p → s₀.heap.free.Held p.values) :
    Sealed s₀ kept faults { s with pending } :=
  ⟨⟨hs.guards.heap, hs.guards.kept⟩, hs.globals, h, hs.scope, hs.inStore, hs.size, hs.vars, hs.up,
    hs.newLambda, hs.lambdas⟩

end Sealed

/-! ## The discipline -/

theorem State.SameNames.sameSight (h : s.SameNames t) : s.SameSight t :=
  ⟨h.scope, h.globals, h.frames ▸ .refl _⟩

/-- What is in sight of a frame is in sight of a new scope below it, and so are the
variables it is given. -/
theorem sees_enter {outer : FrameId} (root : Bool) (vars : Names Value) (depth : Nat)
    {name : String}
    (h : (s.globals.has name || s.frames.has outer name) = true ∨ vars.has name = true) :
    State.sees { s with
      frames := (s.frames.child outer root).2.setVars (s.frames.child outer root).1 vars
      scope := (s.frames.child outer root).1, depth } name = true := by
  refine Bool.or_eq_true_iff.2 ?_
  rcases h with h | h
  · refine (Bool.or_eq_true_iff.1 h).imp id fun h => ?_
    exact (Frames.grows_setVars_child _ _ _ _).has _ _ (Frames.has_child _ outer root h)
  · exact .inr (Frames.has_setVars_child _ outer root h)

/-- What holds on the way back out of a scope. -/
theorem respects_of_enter {b : Bracket σ} (hs : Sealed s₀ kept faults s)
    (henter : Sealed s₀ kept faults (b.enter s)) (hglobals : (b.enter s).globals = s.globals)
    (hgrows : s.frames.Grows (b.enter s).frames)
    (hleave : ∀ t, ∃ depth, b.leave s t = { t with scope := s.scope, depth }) :
    (meetingOwnFaults s₀ kept faults).Respects s b := by
  have hfine : ∀ {t}, (b.enter s).SameSight t → Sealed s₀ kept faults t →
      Sealed s₀ kept faults (b.leave s t) := by
    intro t hst ht
    obtain ⟨depth, h⟩ := hleave t
    rw [h]
    exact hs.back ht (hgrows.trans hst.frames) depth
  refine ⟨henter, hfine, hfine, fun {t e} hst he => ?_, fun {t} hst => ?_⟩
  · cases e with
    | failed f => exact he
    | crashed c => exact hfine hst he
    | exhausted => trivial
  · obtain ⟨depth, h⟩ := hleave t
    rw [h]
    exact ⟨rfl, hst.globals.trans hglobals, hgrows.trans hst.frames⟩

theorem meetingOwnFaults_laws {host : Host σ} (hhost : host.Confined kept) (s₀ : State σ)
    (faults : List Fault) : (meetingOwnFaults s₀ kept faults).Laws host where
  rel_refl := State.SameSight.refl
  rel_trans := State.SameSight.trans
  drift_of_rel := id
  drift_trans := State.SameSight.trans
  sees_of_drift := State.SameSight.sees
  loose_of_fine := id
  fine_of_loose hs _ := hs
  fine_of_crashed := id
  failed _ h := fun ht => ⟨_, rfl, h ht⟩
  crashed hs _ := hs
  exhausted _ := trivial
  unseen _ hsees hunseen := absurd (hunseen.symm.trans hsees) nofun
  globals := Sealed.globals
  get name hs := hs.holds_get name
  vector hs := hs.guards.heap.vector
  table hs := hs.guards.heap.table
  tuple hs := hs.guards.heap.tuple
  field object name hs := hhost.field _ object name _ hs.guards
  pending hs hp := hs.pending _ hp
  newVector hs hi := by
    obtain ⟨hv, hheap⟩ := hs.guards.heap.made_vector hi
    exact ⟨hv, hs.of_sameNames ⟨hheap, hs.guards.kept⟩ ⟨rfl, rfl, rfl, rfl, rfl⟩,
      ⟨rfl, rfl, .refl _⟩⟩
  newTable hs ht _ := by
    obtain ⟨hv, hheap⟩ := hs.guards.heap.made_table ht
    exact ⟨hv, hs.of_sameNames ⟨hheap, hs.guards.kept⟩ ⟨rfl, rfl, rfl, rfl, rfl⟩,
      ⟨rfl, rfl, .refl _⟩⟩
  newTuple hs hi := by
    obtain ⟨hv, hheap⟩ := hs.guards.heap.made_tuple hi
    exact ⟨hv, hs.of_sameNames ⟨hheap, hs.guards.kept⟩
      ⟨rfl, rfl, rfl, rfl, Heap.lambdas_newTuple _ _⟩, ⟨rfl, rfl, .refl _⟩⟩
  newLambda hs hknown hfaults := by
    refine ⟨hs.newLambda, hs.made_lambda ⟨hs.scope, _, hknown, hfaults⟩, ⟨rfl, rfl, .refl _⟩⟩
  setVector hs _ hi := ⟨hs.of_sameNames ⟨hs.guards.heap.set_vector hi, hs.guards.kept⟩
    ⟨rfl, rfl, rfl, rfl, rfl⟩, ⟨rfl, rfl, .refl _⟩⟩
  setTable hs _ ht _ := ⟨hs.of_sameNames ⟨hs.guards.heap.set_table ht, hs.guards.kept⟩
    ⟨rfl, rfl, rfl, rfl, rfl⟩, ⟨rfl, rfl, .refl _⟩⟩
  assign name hs hv := by
    refine ⟨hs.assign name hv, ⟨rfl, rfl, Frames.grows_assign _ _ _ _⟩, ?_⟩
    exact Bool.or_eq_true_iff.2 (.inr (Frames.has_assign _ hs.inStore))
  pend hs hp := ⟨hs.withPending _ fun _ h => Option.some.inj h ▸ hp, ⟨rfl, rfl, .refl _⟩⟩
  settle hs := ⟨hs.withPending none nofun, ⟨rfl, rfl, .refl _⟩⟩
  scope {s} root hs := by
    have henter := hs.enter root s.depth hs.scope Region.heldNames_empty
    rw [Frames.setVars_child] at henter
    refine ⟨respects_of_enter hs henter rfl (Frames.grows_child _ _ _) fun t => ⟨t.depth, rfl⟩,
      fun name hn => ?_⟩
    have hsees := sees_enter root {} s.depth (.inl hn)
    rw [Frames.setVars_child] at hsees
    exact hsees
  invocation {s} entry hs := by
    have hcalls : ∀ {t} calls, Sealed s₀ kept faults t → Sealed s₀ kept faults { t with calls } :=
      fun _ ht => ht.of_sameNames ⟨ht.guards.heap, ht.guards.kept⟩ ⟨rfl, rfl, rfl, rfl, rfl⟩
    refine ⟨hcalls _ hs, fun _ ht => hcalls _ ht, fun _ ht => hcalls _ ht, fun {t e} _ he => ?_,
      fun h => ⟨h.scope, h.globals, h.frames⟩⟩
    cases e with
    | failed f => exact he
    | crashed c => exact hcalls _ he
    | exhausted => trivial
  lambda {s a closure vars} hs ha hc hvars hnames := by
    obtain ⟨hframe, known, hknown, hfaults⟩ := hs.lambdas a closure ha hc
    have henter := hs.enter true (s.depth + 1) hframe hvars
    refine ⟨respects_of_enter hs henter rfl ((Frames.grows_child _ _ _).trans
      (Frames.grows_setVars_child _ _ _ _)) fun t => ⟨t.depth - 1, rfl⟩,
      known, fun name hn => sees_enter _ _ _ ?_, hfaults⟩
    rcases Bool.or_eq_true_iff.1 hn with hn | hn
    · exact .inr (hnames name (by simpa using hn))
    · exact .inl (hknown name hn)
  reply name arguments hs harg := (hhost.command _ name arguments _ hs.guards harg).mono
    (fun _ ht => ht.guards) (fun _ _ ht hu h => ⟨ht.of_sameNames hu h, h.sameSight⟩) hs

/-- **What is missing or unknown when a run fails is so in its text.** -/
theorem mem_faults_of_execute_failed {host : Host σ} (hhost : host.Confined kept)
    (hs : s.LambdaFree kept) (hscope : s.scope < s.frames.all.size) {budget : Nat} {source : String}
    {b : Block} {f : Failure} (h : (execute host budget source b s).1 = .failed f)
    (hf : f.cause.isOfTree = true) :
    ∃ span, f.span = some span ∧ ⟨f.cause, span⟩ ∈ Faults.block s.sees b := by
  have hend := (meetingOwnFaults_laws hhost s (Faults.block s.sees b)).ended_execute
    (Sealed.start hs hscope) (fun _ hname => hname) (fun _ hx => hx) budget source
  rw [h] at hend
  obtain ⟨e, u, -, he, -, rfl | ⟨-, rfl⟩⟩ := hend
  · exact he hf
  · cases hf

end CommandScript
