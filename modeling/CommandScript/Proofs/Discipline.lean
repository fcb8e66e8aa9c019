import CommandScript.Proofs.Entries
import CommandScript.Proofs.Step
import CommandScript.Proofs.Fault
import CommandScript.Proofs.Region
import CommandScript.Proofs.Scope
/-!
# CommandScript — disciplines of a run

A discipline says what holds of the states of a run: where something is
evaluated, behind a statement, where a step stops, and between the state a step
starts in and the one it ends in. It also says which shared values are around, and
which faults of a tree may be met. What it has to provide is a fact about each
change that the evaluator makes to a state. What it gives is the same for every
task, under every budget: the rules of the evaluator are gone through once, in
`CommandScript.Proofs.Rules`.

Three sorts of steps are told apart. A *calm* one starts and ends where something
can be evaluated. A *tidy* one may leave a `break`, `continue` or `return` on its
way, if it ends well; whoever runs it looks before going on. A *drifting* one may
also bring names into the current frame; it is a statement, or the statements of a
block, and what is around the block is left alone when its frame is.
-/

namespace CommandScript

variable {σ α β : Type}

/-- What a reply of the host keeps to, in the states it hands back and in the values
it hands over, as long as what it is given back keeps to it too. -/
inductive Reply.Follows (P : State σ → Prop) (R : State σ → State σ → Prop) (H : Value → Prop) :
    State σ → Reply σ → Prop where
  | value {s t : State σ} {v : Value} : P t → R s t → H v → Follows P R H s (.value v t)
  | crash {s t : State σ} {c : Crash} : P t → R s t → Follows P R H s (.crash c t)
  | call {s t : State σ} {f : Value} {arguments : List Value}
      {resume : Value → State σ → Reply σ} :
      P t → R s t → H f → (∀ v ∈ arguments, H v) →
      (∀ v u, H v → P u → Follows P R H u (resume v u)) →
      Follows P R H s (.call f arguments t resume)

/-- A reply that keeps to something keeps to all that follows from it. -/
theorem Reply.Follows.mono {P P' : State σ → Prop} {R R' : State σ → State σ → Prop}
    {H : Value → Prop} (hP : ∀ s, P' s → P s)
    (hR : ∀ s t, P' s → P t → R s t → P' t ∧ R' s t) {s : State σ} {r : Reply σ}
    (h : r.Follows P R H s) (hs : P' s) : r.Follows P' R' H s := by
  induction h with
  | value ht hst hv =>
    obtain ⟨ht', hst'⟩ := hR _ _ hs ht hst
    exact .value ht' hst' hv
  | crash ht hst =>
    obtain ⟨ht', hst'⟩ := hR _ _ hs ht hst
    exact .crash ht' hst'
  | call ht hst hf harg _ ih =>
    obtain ⟨ht', hst'⟩ := hR _ _ hs ht hst
    exact .call ht' hst' hf harg fun v u hv hu => ih v u hv (hP u hu) hu

/-- A name can be called, or read as a variable. -/
def State.sees (s : State σ) (name : String) : Bool :=
  s.globals.has name || s.frames.has s.scope name

/-- A change of the state for as long as a step takes: on the way in, and on the
way back, which knows where the way in began. -/
structure Bracket (σ : Type) where
  enter : State σ → State σ
  leave : State σ → State σ → State σ

namespace Bracket

/-- A new scope below the current one. -/
def scope (root : Bool) : Bracket σ where
  enter s := { s with frames := (s.frames.child s.scope root).2
                      scope := (s.frames.child s.scope root).1 }
  leave s t := { t with scope := s.scope }

/-- The parameters of a call, with what they are given. -/
def parameters (names : List String) (arguments : List Value) : Names Value :=
  (names.mapIdx fun i name => (name, arguments[i]?.getD .nil)).foldl
    (fun vars e => vars.insert e.1 e.2) {}

theorem has_parameters_iff {names : List String} {arguments : List Value} {name : String} :
    (parameters names arguments).has name = true ↔ name ∈ names := by
  have hnames : (names.mapIdx fun i name => (name, arguments[i]?.getD .nil)).map Prod.fst = names :=
    List.ext_getElem (by simp) (by simp)
  have hempty : ({} : Names Value).has name = false := rfl
  unfold parameters
  rw [Names.has_foldl_insert, hnames, hempty, Bool.or_false, decide_eq_true_iff]

theorem has_parameters (names : List String) (arguments : List Value) :
    ∀ name ∈ names, (parameters names arguments).has name = true :=
  fun _ => has_parameters_iff.2

theorem held_parameters {R : Region} (names : List String) {arguments : List Value}
    (h : R.Held arguments) : R.HeldNames (parameters names arguments) := by
  refine Region.heldNames_empty.foldl_insert fun e he => ?_
  obtain ⟨i, -, rfl⟩ := List.mem_mapIdx.1 he
  exact h.getD i

/-- A call of a lambda: a new scope below the one it was made in. -/
def lambda (outer : FrameId) (vars : Names Value) : Bracket σ where
  enter s := { s with
    frames := (s.frames.child outer true).2.setVars (s.frames.child outer true).1 vars
    depth := s.depth + 1
    scope := (s.frames.child outer true).1 }
  leave s t := { t with scope := s.scope, depth := t.depth - 1 }

/-- An open call. -/
def invocation (entry : TraceEntry) : Bracket σ where
  enter s := { s with calls := entry :: s.calls }
  leave _ t := { t with calls := t.calls.tail }

end Bracket

/-- What is watched throughout a run. -/
structure Discipline (σ : Type) where
  /-- The shared values that are around. -/
  region : Region
  /-- Where something is evaluated. -/
  Fine : State σ → Prop
  /-- Behind a statement or a block that ended well. -/
  Loose : State σ → Prop
  /-- Where a step stops. -/
  Stops : Stop → State σ → Prop
  /-- Between where a step starts and where it ends or stops. -/
  Rel : State σ → State σ → Prop
  /-- The same for statements, which may assign in the current frame and to what is shared. -/
  Drift : State σ → State σ → Prop := Rel
  /-- A name is counted on to be in sight. -/
  Sees : State σ → String → Prop
  /-- The faults of trees that may be met. -/
  Allows : Fault → Prop

namespace Discipline

variable (K : Discipline σ)

/-- What is known to be in sight is counted on. -/
def Covers (s : State σ) (known : Sight) : Prop := ∀ name, known name = true → K.Sees s name

/-- All of some faults may be met. -/
def Permits (faults : List Fault) : Prop := ∀ x ∈ faults, K.Allows x

/-- A step that evaluates something, and what comes of it. -/
def Calm (s : State σ) (P : α → Prop) (step : Exec σ α) : Prop :=
  step.Ends s (fun a t => P a ∧ K.Fine t ∧ K.Rel s t) (fun e t => K.Stops e t ∧ K.Rel s t)

/-- A step that may leave something on its way. -/
def Tidy (s : State σ) (P : α → Prop) (step : Exec σ α) : Prop :=
  step.Ends s (fun a t => P a ∧ K.Loose t ∧ K.Rel s t) (fun e t => K.Stops e t ∧ K.Rel s t)

/-- A step that may leave something on its way, and new names in the current frame. -/
def Drifting (s : State σ) (P : α → Prop) (step : Exec σ α) : Prop :=
  step.Ends s (fun a t => P a ∧ K.Loose t ∧ K.Drift s t) (fun e t => K.Stops e t ∧ K.Drift s t)

/-- Where a call for the host stops: a crash is still to be made a failure. -/
def Answers : Stop → State σ → Prop
  | .crashed _, s => K.Fine s
  | e, s => K.Stops e s

/-- What holds on the way back out of a bracket that is entered from a state, behind what
is related to where it began. -/
structure Respects (s : State σ) (b : Bracket σ) (R : State σ → State σ → Prop := K.Drift) :
    Prop where
  enter : K.Fine (b.enter s)
  fine : ∀ {t}, R (b.enter s) t → K.Fine t → K.Fine (b.leave s t)
  loose : ∀ {t}, R (b.enter s) t → K.Loose t → K.Loose (b.leave s t)
  stops : ∀ {t e}, R (b.enter s) t → K.Stops e t → K.Stops e (b.leave s t)
  rel : ∀ {t}, R (b.enter s) t → K.Rel s (b.leave s t)

/-- A change of the heap that gives a value keeps to the discipline. -/
def Keeps (s : State σ) (new : Value × Heap) : Prop :=
  K.region.Holds new.1 ∧ K.Fine { s with heap := new.2 } ∧ K.Rel s { s with heap := new.2 }

/-- **What a discipline has to provide**: a fact about each thing that the evaluator
reads in a state, and about each change that it, or the host, makes to one. -/
structure Laws (host : Host σ) : Prop where
  rel_refl : ∀ s, K.Rel s s
  rel_trans : ∀ {s t u}, K.Rel s t → K.Rel t u → K.Rel s u
  drift_of_rel : ∀ {s t}, K.Rel s t → K.Drift s t
  drift_trans : ∀ {s t u}, K.Drift s t → K.Drift t u → K.Drift s u
  sees_of_drift : ∀ {s t name}, K.Drift s t → K.Sees s name → K.Sees t name
  loose_of_fine : ∀ {s}, K.Fine s → K.Loose s
  fine_of_loose : ∀ {s}, K.Loose s → s.pending = none → K.Fine s
  fine_of_crashed : ∀ {s c}, K.Stops (.crashed c) s → K.Fine s
  failed : ∀ {s cause span}, K.Fine s → (cause.isOfTree = true → K.Allows ⟨cause, span⟩) →
    K.Stops (.failed ⟨cause, some span, s.calls.reverse⟩) s
  crashed : ∀ {s c}, K.Fine s → Crash.Own c → K.Stops (.crashed c) s
  exhausted : ∀ {s}, K.Fine s → K.Stops .exhausted s
  unseen : ∀ {s name span}, K.Fine s → K.Sees s name → s.sees name = false →
    K.Allows ⟨.unknownCommand name, span⟩
  globals : ∀ {s}, K.Fine s → K.region.HeldNames s.globals
  get : ∀ {s} name, K.Fine s → K.region.Holds (s.frames.get s.scope name)
  vector : ∀ {s a}, K.Fine s → K.region.vector a → K.region.Held (s.heap.vector a)
  table : ∀ {s a}, K.Fine s → K.region.table a → K.region.HeldTable (s.heap.table a)
  tuple : ∀ {s a}, K.Fine s → K.region.tuple a → K.region.Held (s.heap.tuple a)
  field : ∀ {s} object name, K.Fine s → K.region.Holds (host.field object name s)
  pending : ∀ {s p}, K.Loose s → s.pending = some p → K.region.Held p.values
  newVector : ∀ {s items}, K.Fine s → K.region.Held items → K.Keeps s (s.heap.newVector items)
  newTable : ∀ {s t}, K.Fine s → K.region.HeldTable t → t.Lawful → K.Keeps s (s.heap.newTable t)
  newTuple : ∀ {s items}, K.Fine s → K.region.Held items → K.Keeps s (s.heap.newTuple items)
  newLambda : ∀ {s body source known}, K.Fine s → K.Covers s known →
    K.Permits (Faults.body known body) → K.Keeps s (s.heap.newLambda ⟨body, s.scope, source⟩)
  setVector : ∀ {s a items}, K.Fine s → K.region.vector a → K.region.Held items →
    K.Fine { s with heap := s.heap.setVector a items } ∧
      K.Drift s { s with heap := s.heap.setVector a items }
  setTable : ∀ {s a t}, K.Fine s → K.region.table a → K.region.HeldTable t →
    (s.heap.table a).Write t →
    K.Fine { s with heap := s.heap.setTable a t } ∧ K.Drift s { s with heap := s.heap.setTable a t }
  assign : ∀ {s v} name, K.Fine s → K.region.Holds v →
    K.Fine { s with frames := s.frames.assign s.scope name v } ∧
      K.Drift s { s with frames := s.frames.assign s.scope name v } ∧
      K.Sees { s with frames := s.frames.assign s.scope name v } name
  pend : ∀ {s p}, K.Fine s → K.region.Held p.values →
    K.Loose { s with pending := some p } ∧ K.Rel s { s with pending := some p }
  settle : ∀ {s}, K.Loose s →
    K.Fine { s with pending := none } ∧ K.Rel s { s with pending := none }
  scope : ∀ {s} root, K.Fine s → K.Respects s (.scope root) ∧
    ∀ name, K.Sees s name → K.Sees ((Bracket.scope root).enter s) name
  invocation : ∀ {s} entry, K.Fine s → K.Respects s (.invocation entry) K.Rel
  lambda : ∀ {s a closure vars}, K.Fine s → K.region.lambda a →
    s.heap.lambdas[a]? = some closure → K.region.HeldNames vars →
    (∀ name ∈ closure.body.names, vars.has name = true) →
    K.Respects s (.lambda closure.frame vars) ∧
      ∃ known, K.Covers ((Bracket.lambda closure.frame vars).enter s)
        (known.with closure.body.names) ∧ K.Permits (Faults.body known closure.body)
  reply : ∀ {s} name arguments, K.Fine s → K.region.Held arguments →
    (host.command name arguments s).Follows K.Fine K.Rel K.region.Holds s

variable {K} {host : Host σ}
variable {s : State σ} {P : α → Prop} {Q : β → Prop}

theorem Covers.drift (hK : K.Laws host) {known : Sight} {t : State σ} (h : K.Covers s known)
    (hst : K.Drift s t) : K.Covers t known :=
  fun name hn => hK.sees_of_drift hst (h name hn)

theorem Covers.later (hK : K.Laws host) {known : Sight} {t : State σ} (h : K.Covers s known)
    (hst : K.Rel s t) : K.Covers t known :=
  h.drift hK (hK.drift_of_rel hst)

@[simp] theorem permits_nil : K.Permits [] := nofun

@[simp] theorem permits_cons {x : Fault} {xs : List Fault} :
    K.Permits (x :: xs) ↔ K.Allows x ∧ K.Permits xs :=
  List.forall_mem_cons

@[simp] theorem permits_append {xs ys : List Fault} :
    K.Permits (xs ++ ys) ↔ K.Permits xs ∧ K.Permits ys :=
  List.forall_mem_append

/-! ## Steps put together -/

/-- Two steps in a row, whatever is asked of the states between them and behind
them. -/
theorem ends_seq {R : State σ → State σ → Prop} (hR : ∀ {s t u}, R s t → R t u → R s u)
    {M L : State σ → Prop} {x : Exec σ α} {f : α → Exec σ β}
    (hx : x.Ends s (fun a t => P a ∧ M t ∧ R s t) (fun e t => K.Stops e t ∧ R s t))
    (hf : ∀ a t, P a → M t → R s t →
      (f a).Ends t (fun b u => Q b ∧ L u ∧ R t u) (fun e u => K.Stops e u ∧ R t u)) :
    (x >>= f).Ends s (fun b u => Q b ∧ L u ∧ R s u) (fun e u => K.Stops e u ∧ R s u) := by
  refine Exec.ends_bind.2 (hx.imp fun a t ⟨ha, ht, hst⟩ => ?_)
  exact (hf a t ha ht hst).mono
    (fun _ _ ⟨hb, hu, htu⟩ => ⟨hb, hu, hR hst htu⟩)
    fun _ _ ⟨hu, htu⟩ => ⟨hu, hR hst htu⟩

namespace Calm

theorem tidy (hK : K.Laws host) {step : Exec σ α} (h : K.Calm s P step) : K.Tidy s P step :=
  h.imp fun _ _ ht => ⟨ht.1, hK.loose_of_fine ht.2.1, ht.2.2⟩

/-- What a calm step does, a statement may do. -/
theorem drift (hK : K.Laws host) {step : Exec σ α} (h : K.Calm s P step) :
    step.Ends s (fun a t => P a ∧ K.Fine t ∧ K.Drift s t) (fun e t => K.Stops e t ∧ K.Drift s t) :=
  Exec.Ends.mono h (fun _ _ ht => ⟨ht.1, ht.2.1, hK.drift_of_rel ht.2.2⟩)
    fun _ _ ht => ⟨ht.1, hK.drift_of_rel ht.2⟩

theorem imp {P' : α → Prop} {step : Exec σ α} (h : K.Calm s P step) (hP : ∀ a, P a → P' a) :
    K.Calm s P' step :=
  Exec.Ends.imp h fun _ _ ht => ⟨hP _ ht.1, ht.2⟩

theorem pure (hK : K.Laws host) (hs : K.Fine s) {a : α} (ha : P a) :
    K.Calm s P (pure a : Exec σ α) :=
  ⟨ha, hs, hK.rel_refl s⟩

/-- A failure that is no matter of the tree. -/
theorem fail (hK : K.Laws host) (hs : K.Fine s) {cause : Cause} {span : Span}
    (h : cause.isOfTree = false) : K.Calm s P (Exec.fail cause span : Exec σ α) :=
  ⟨hK.failed hs fun ht => absurd (h.symm.trans ht) nofun, hK.rel_refl s⟩

/-- A failure that is one of the faults that may be met. -/
theorem fault (hK : K.Laws host) (hs : K.Fine s) {cause : Cause} {span : Span}
    (h : K.Allows ⟨cause, span⟩) : K.Calm s P (Exec.fail cause span : Exec σ α) :=
  ⟨hK.failed hs fun _ => h, hK.rel_refl s⟩

theorem crash (hK : K.Laws host) (hs : K.Fine s) {c : Crash} (hc : c.Own) :
    K.Calm s P (Exec.crash c : Exec σ α) :=
  ⟨hK.crashed hs hc, hK.rel_refl s⟩

theorem orCrash (hK : K.Laws host) (hs : K.Fine s) {r : Except Crash α}
    (hr : CrashesOnly Crash.Own r) (hP : ∀ a, r = .ok a → P a) :
    K.Calm s P (Exec.orCrash r : Exec σ α) := by
  cases r with
  | ok a => exact pure hK hs (hP a rfl)
  | error c => exact crash hK hs (hr c rfl)

/-- A step that looks at the state first. -/
theorem get {f : State σ → Exec σ α} (h : K.Calm s P (f s)) : K.Calm s P (get >>= f) :=
  Exec.ends_bind.2 h

theorem modify {f : State σ → State σ} {P : PUnit → Prop} (hP : P ⟨⟩)
    (h : K.Fine (f s) ∧ K.Rel s (f s)) : K.Calm s P (modify f : Exec σ PUnit) :=
  ⟨hP, h⟩

theorem make {new : Heap → Value × Heap} (h : K.Keeps s (new s.heap)) :
    K.Calm s K.region.Holds (Exec.make new : Exec σ Value) :=
  h

theorem bind (hK : K.Laws host) {x : Exec σ α} {f : α → Exec σ β} (hx : K.Calm s P x)
    (hf : ∀ a t, P a → K.Fine t → K.Rel s t → K.Calm t Q (f a)) : K.Calm s Q (x >>= f) :=
  ends_seq (R := K.Rel) hK.rel_trans hx hf

theorem bind_tidy (hK : K.Laws host) {x : Exec σ α} {f : α → Exec σ β} (hx : K.Calm s P x)
    (hf : ∀ a t, P a → K.Fine t → K.Rel s t → K.Tidy t Q (f a)) : K.Tidy s Q (x >>= f) :=
  ends_seq (R := K.Rel) hK.rel_trans hx hf

theorem map (hK : K.Laws host) {x : Exec σ α} {f : α → β} (hx : K.Calm s P x)
    (hf : ∀ a, P a → Q (f a)) : K.Calm s Q (f <$> x) := by
  rw [map_eq_pure_bind]
  exact hx.bind hK fun a _ ha ht _ => pure hK ht (hf a ha)

end Calm

/-- Behind a tidy step, one goes on from wherever it ends. -/
theorem Tidy.bind (hK : K.Laws host) {x : Exec σ α} {f : α → Exec σ β} (hx : K.Tidy s P x)
    (hf : ∀ a t, P a → K.Loose t → K.Rel s t → K.Tidy t Q (f a)) : K.Tidy s Q (x >>= f) :=
  ends_seq (R := K.Rel) hK.rel_trans hx hf

theorem Tidy.drifting (hK : K.Laws host) {step : Exec σ α} (h : K.Tidy s P step) :
    K.Drifting s P step :=
  Exec.Ends.mono h (fun _ _ ht => ⟨ht.1, ht.2.1, hK.drift_of_rel ht.2.2⟩)
    fun _ _ ht => ⟨ht.1, hK.drift_of_rel ht.2⟩

end Discipline

end CommandScript
