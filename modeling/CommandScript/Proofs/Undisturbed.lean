import CommandScript.Proofs.Arrival
import CommandScript.Proofs.Twins
/-!
# CommandScript — what leaves things alone

To evaluate something changes nothing that is there: new values may be shared, but variables
stay what they are, and so do all vectors and tables. Only statements change things, and of
those that can be evaluated in an expression, only the ones in lambdas. A call of a lambda
puts up a frame, as a block does, and frames are never taken away. So whether that has
happened can be seen from how many frames there are.

A discipline says so (`leavingAlone`). It is the one where `Drift` allows for anything, as long
as no frame is lost: behind a statement nothing is known, and in an expression no statement
is met without a new frame.
-/

namespace CommandScript

variable {σ : Type}

theorem Heap.grew_newTuple (h : Heap) (items : List Value) : h.Grew (h.newTuple items).2 := by
  obtain ⟨a, -, -, hnew⟩ | hnew := h.newTuple_cases items <;> rw [hnew]
  · exact .refl h
  · exact ⟨List.prefix_rfl, List.prefix_rfl⟩

/-- The same variables, and the same vectors and tables among those that are there. -/
structure State.Undisturbed (s t : State σ) : Prop where
  globals : t.globals = s.globals
  frames : t.frames = s.frames
  scope : t.scope = s.scope
  heap : s.heap.Grew t.heap

/-- A frame was put up, or nothing was disturbed. -/
structure State.LeftAlone (s t : State σ) : Prop where
  size_le : s.frames.all.size ≤ t.frames.all.size
  undisturbed : t.frames.all.size = s.frames.all.size → s.Undisturbed t

namespace State

variable {s t u : State σ}

theorem Undisturbed.refl (s : State σ) : s.Undisturbed s := ⟨rfl, rfl, rfl, .refl s.heap⟩

theorem Undisturbed.trans (h : s.Undisturbed t) (h' : t.Undisturbed u) : s.Undisturbed u :=
  ⟨h'.globals.trans h.globals, h'.frames.trans h.frames, h'.scope.trans h.scope,
    h.heap.trans h'.heap⟩

theorem Undisturbed.leftAlone (h : s.Undisturbed t) : s.LeftAlone t :=
  ⟨Nat.le_of_eq (congrArg (·.all.size) h.frames.symm), fun _ => h⟩

theorem LeftAlone.refl (s : State σ) : s.LeftAlone s := (Undisturbed.refl s).leftAlone

theorem LeftAlone.trans (h : s.LeftAlone t) (h' : t.LeftAlone u) : s.LeftAlone u where
  size_le := Nat.le_trans h.size_le h'.size_le
  undisturbed hsize := by
    have hst : t.frames.all.size = s.frames.all.size :=
      Nat.le_antisymm (hsize ▸ h'.size_le) h.size_le
    exact (h.undisturbed hst).trans (h'.undisturbed (hsize.trans hst.symm))

/-- What is new in the heap disturbs nothing. -/
theorem leftAlone_withHeap {heap : Heap} (h : s.heap.Grew heap) :
    s.LeftAlone { s with heap } :=
  Undisturbed.leftAlone ⟨rfl, rfl, rfl, h⟩

/-- Behind a new frame, one more frame is there for good. -/
theorem leftAlone_of_lt (h : s.frames.all.size < t.frames.all.size) : s.LeftAlone t :=
  ⟨Nat.le_of_lt h, fun heq => absurd heq (Nat.ne_of_gt h)⟩

end State

/-- The commands of the host have no side effects: all they may do is to make new values, to
have functions called, and to keep something for themselves. -/
def Host.Harmless (host : Host σ) : Prop :=
  ∀ name arguments (s : State σ), (host.command name arguments s).Follows (fun _ => True)
    (fun s t => s.SameNames t ∧ s.heap.Grew t.heap) (fun _ => True) s

theorem Host.Harmless.leavesNames {host : Host σ} (h : host.Harmless) : host.LeavesNames :=
  fun name arguments s => (h name arguments s).mono (fun _ => id)
    (fun _ _ _ _ hst => ⟨trivial, hst.1⟩) trivial

/-- What is there is left alone, unless a frame is put up. -/
def leavingAlone (σ : Type) : Discipline σ where
  region := .all
  Fine _ := True
  Loose _ := True
  Stops _ _ := True
  Rel := State.LeftAlone
  Drift s t := s.frames.all.size ≤ t.frames.all.size
  Sees _ _ := True
  Allows _ := True

/-- What is done in a new frame is no matter of the state around. -/
theorem respects_of_child {s : State σ} {b : Bracket σ}
    (henter : (b.enter s).frames.all.size = s.frames.all.size + 1)
    (hleave : ∀ t, (b.leave s t).frames = t.frames) : (leavingAlone σ).Respects s b where
  enter := trivial
  fine _ _ := trivial
  loose _ _ := trivial
  stops _ _ := trivial
  rel {t} h := by
    refine State.leftAlone_of_lt ?_
    rw [hleave]
    exact Nat.lt_of_lt_of_le (henter ▸ Nat.lt_succ_self _) h

theorem leavingAlone_laws {host : Host σ} (hhost : host.Harmless) : (leavingAlone σ).Laws host where
  rel_refl := State.LeftAlone.refl
  rel_trans := State.LeftAlone.trans
  drift_of_rel h := h.size_le
  drift_trans := Nat.le_trans
  sees_of_drift _ _ := trivial
  loose_of_fine := id
  fine_of_loose _ _ := trivial
  fine_of_crashed _ := trivial
  failed _ _ := trivial
  crashed _ _ := trivial
  exhausted _ := trivial
  unseen _ _ _ := trivial
  globals _ _ _ _ := Region.holds_all _
  get _ _ := Region.holds_all _
  vector _ _ _ _ := Region.holds_all _
  table _ _ _ _ := ⟨Region.holds_all _, Region.holds_all _⟩
  tuple _ _ _ _ := Region.holds_all _
  field _ _ _ := Region.holds_all _
  pending _ _ _ _ := Region.holds_all _
  newVector _ _ := ⟨Region.holds_all _, trivial, State.leftAlone_withHeap
    (.of_extends (.newVector _ _))⟩
  newTable _ _ _ := ⟨Region.holds_all _, trivial, State.leftAlone_withHeap
    (.of_extends (.newTable _ _))⟩
  newTuple _ _ := ⟨Region.holds_all _, trivial, State.leftAlone_withHeap
    (Heap.grew_newTuple _ _)⟩
  newLambda _ _ _ := ⟨Region.holds_all _, trivial, State.leftAlone_withHeap
    ⟨List.prefix_rfl, List.prefix_rfl⟩⟩
  setVector _ _ _ := ⟨trivial, Nat.le_refl _⟩
  setTable _ _ _ _ := ⟨trivial, Nat.le_refl _⟩
  assign {s v} name _ _ := by
    refine ⟨trivial, ?_, trivial⟩
    simp [leavingAlone, Frames.assign, Frames.set, Frames.setVars]
  pend _ _ := ⟨trivial, State.Undisturbed.leftAlone ⟨rfl, rfl, rfl, .refl _⟩⟩
  settle _ := ⟨trivial, State.Undisturbed.leftAlone ⟨rfl, rfl, rfl, .refl _⟩⟩
  scope root _ := ⟨respects_of_child (by simp [Bracket.scope, Frames.child]) fun _ => rfl,
    fun _ _ => trivial⟩
  invocation _ _ := ⟨trivial, fun _ _ => trivial, fun _ _ => trivial, fun _ _ => trivial,
    fun h => ⟨h.size_le, fun hsize =>
      let ⟨hglobals, hframes, hscope, hheap⟩ := h.undisturbed hsize
      ⟨hglobals, hframes, hscope, hheap⟩⟩⟩
  lambda _ _ _ _ _ := ⟨respects_of_child (by simp [Bracket.lambda, Frames.child, Frames.setVars])
    fun _ => rfl, fun _ => false, fun _ _ => trivial, fun _ _ => trivial⟩
  reply {s} name arguments _ _ := by
    have hstep : ∀ s t : State σ, True → True → s.SameNames t ∧ s.heap.Grew t.heap →
        True ∧ s.LeftAlone t := fun _ _ _ _ h =>
      ⟨trivial, State.Undisturbed.leftAlone ⟨h.1.globals, h.1.frames, h.1.scope, h.2⟩⟩
    have hreply := (hhost name arguments s).mono (fun _ _ => trivial) hstep trivial
    rw [← Region.holds_all_eq] at hreply
    exact hreply

/-! ## Parts of a statement -/

/-- The stage is no block and no statement with blocks in it. -/
def Stage.isInner : Stage → Bool
  | .value _ | .items _ | .fields .. | .root _ | .key _ | .steps .. | .chain _ | .assign ..
  | .arguments _ | .command _ | .behind _ => true
  | .statement (.command _) | .statement (.call _) | .statement (.expression _)
  | .statement (.assign ..) => true
  | _ => false

section Parts

open Eval Discipline

variable {host : Host σ} {n : Nat} {source : String} {s t : State σ}

theorem leftAlone_of_calm {α : Type} {P : α → Prop} {step : Exec σ α} {a : α}
    (h : (leavingAlone σ).Calm s P step) (hok : step s = (.ok a, t)) : s.LeftAlone t :=
  ((Exec.ends_of_ok hok).1 h).2.2

theorem covers_leavingAlone (s : State σ) : (leavingAlone σ).Covers s fun _ => false :=
  fun _ _ => trivial

theorem permits_leavingAlone (faults : List Fault) : (leavingAlone σ).Permits faults :=
  fun _ _ => trivial

variable (hhost : host.Harmless)

include hhost

theorem leftAlone_value {e : Expression} {v : Value}
    (h : run host n source (.value e) s = (.ok v, t)) : s.LeftAlone t :=
  leftAlone_of_calm ((obeys_run (leavingAlone_laws hhost) n).value trivial (covers_leavingAlone s)
    (permits_leavingAlone _)) h

theorem leftAlone_calleeValue {callee : Var} {v : Value}
    (h : calleeValue host (run host n) source callee s = (.ok v, t)) : s.LeftAlone t := by
  have hK := leavingAlone_laws hhost
  exact leftAlone_of_calm (calm_calleeValue hK (obeys_run hK n) trivial (covers_leavingAlone s)
    (permits_leavingAlone _) (permits_leavingAlone _)) h

theorem leftAlone_argumentValues {es : List Expression} {vs : List Value}
    (h : argumentValues (run host n) source es s = (.ok vs, t)) : s.LeftAlone t := by
  have hK := leavingAlone_laws hhost
  exact leftAlone_of_calm (calm_argumentValues hK (obeys_run hK n) trivial (covers_leavingAlone s)
    (permits_leavingAlone _)) h

/-- No frame is lost behind a statement. -/
theorem size_le_of_statement {x : Statement} {values : Option (List Value)}
    (h : Eval.statement host n (run host n) source x s = (.ok values, t)) :
    s.frames.all.size ≤ t.frames.all.size := by
  have hK := leavingAlone_laws hhost
  exact ((Exec.ends_of_ok h).1 (stated_statement hK (obeys_run hK n) trivial
    (covers_leavingAlone s) (permits_leavingAlone _))).2.2

theorem leftAlone_command {c : Command} {values : Option (List Value)}
    (h : Eval.statement host n (run host n) source (.command c) s = (.ok values, t)) :
    s.LeftAlone t := by
  have hK := leavingAlone_laws hhost
  exact leftAlone_of_calm (P := fun _ => True) ((calm_command hK (obeys_run hK n) trivial
    (covers_leavingAlone s) (permits_leavingAlone _)).map hK fun _ _ => trivial) h

theorem leftAlone_call {c : Call} {values : Option (List Value)}
    (h : Eval.statement host n (run host n) source (.call c) s = (.ok values, t)) :
    s.LeftAlone t := by
  have hK := leavingAlone_laws hhost
  exact leftAlone_of_calm (P := fun _ => True) ((calm_call hK (obeys_run hK n) trivial
    (covers_leavingAlone s) (permits_leavingAlone _)).map hK fun _ _ => trivial) h

/-- **One step** in a statement leaves things alone. -/
theorem Point.Enters.leftAlone {p q : Point σ} (h : p.Enters host source q)
    (hp : p.stage.isInner = true) : q.stage.isInner = true ∧ p.state.LeftAlone q.state := by
  have hK := leavingAlone_laws hhost
  have ho := obeys_run hK
  have hcovers := covers_leavingAlone (σ := σ)
  have hpermits := permits_leavingAlone (σ := σ)
  cases h with
  | left | unary | vector | table | group | var | evaluate | item | noField | fieldKey | root
  | key | stepKey | chainRoot | targetRoot | argument | noArgument | callee | behind | command
  | callStatement | expression | assigned => exact ⟨rfl, .refl _⟩
  | right hv | items _ hv | arguments _ hv | assign hv => exact ⟨rfl, leftAlone_value hhost hv⟩
  | fieldValue _ hk =>
    exact ⟨rfl, leftAlone_of_calm (calm_fieldKey hK (ho _) trivial (hcovers _) _ (hpermits _)) hk⟩
  | fields _ hk _ hv =>
    have hkey := leftAlone_of_calm (calm_fieldKey hK (ho _) trivial (hcovers _) _ (hpermits _)) hk
    exact ⟨rfl, hkey.trans (leftAlone_value hhost hv)⟩
  | steps hk hw =>
    have hkey := leftAlone_of_calm (calm_suffixKey hK (ho _) trivial (hcovers _) (hpermits _)) hk
    have hindex := leftAlone_of_calm (calm_index hK trivial (Region.holds_all _) _ _) hw
    exact ⟨rfl, hkey.trans hindex⟩
  | chainSteps hr | targetSteps _ hr =>
    exact ⟨rfl, leftAlone_of_calm (calm_rootValue hK (ho _) trivial (hcovers _) (hpermits _)) hr⟩
  | targetKey _ hr hw =>
    have hroot := leftAlone_of_calm (calm_rootValue hK (ho _) trivial (hcovers _) (hpermits _)) hr
    have hsteps := leftAlone_of_calm (calm_followSuffixes hK (ho _) trivial (hcovers _)
      (hpermits _) (Region.holds_all _)) hw
    exact ⟨rfl, hroot.trans hsteps⟩
  | given hv => exact ⟨rfl, leftAlone_calleeValue hhost hv⟩
  | _ => cases hp

/-- On the way to anything in a statement, things are left alone. -/
theorem Point.ComesTo.leftAlone {p q : Point σ} (h : p.ComesTo host source q)
    (hp : p.stage.isInner = true) : q.stage.isInner = true ∧ p.state.LeftAlone q.state := by
  induction h with
  | refl => exact ⟨hp, .refl _⟩
  | tail _ hstep ih =>
    obtain ⟨hinner, hleft⟩ := ih
    obtain ⟨hinner', hleft'⟩ := hstep.leftAlone hhost hinner
    exact ⟨hinner', hleft.trans hleft'⟩

end Parts

end CommandScript
