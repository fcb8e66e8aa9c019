import CommandScript.Proofs.Rules
import CommandScript.Host.Recorder
import CommandScript.Parser.Basic
/-!
# CommandScript — a run leaves no trace of itself

Where names are looked up from, which calls are open, how deep calls are nested
and what is on its way out of a block: all of this changes while a text runs, and
all of it is as before when the run is over. That is so however the run ends.

A `break`, `continue` or `return` is on its way between the statement that put it
there and the block, loop or lambda that takes it up. Nothing is evaluated in
between, so nothing is pending where a run stops short.
-/

namespace CommandScript

variable {σ : Type}

namespace State

/-- Nothing of a run is left. -/
structure Idle (s : State σ) : Prop where
  calls : s.calls = []
  pending : s.pending = none
  depth : s.depth = 0

/-- The same scope, the same open calls, and calls nested as deep. -/
structure SamePlace (s t : State σ) : Prop where
  scope : t.scope = s.scope
  calls : t.calls = s.calls
  depth : t.depth = s.depth

/-- The same place, and the same statement on its way. -/
structure SameControl (s t : State σ) : Prop extends SamePlace s t where
  pending : t.pending = s.pending

theorem SamePlace.refl (s : State σ) : s.SamePlace s := ⟨rfl, rfl, rfl⟩

theorem SamePlace.trans {s t u : State σ} (h : s.SamePlace t) (h' : t.SamePlace u) :
    s.SamePlace u :=
  ⟨h'.scope.trans h.scope, h'.calls.trans h.calls, h'.depth.trans h.depth⟩

theorem SameControl.refl (s : State σ) : s.SameControl s := ⟨.refl s, rfl⟩

theorem Idle.of_samePlace {s t : State σ} (hs : s.Idle) (h : s.SamePlace t)
    (hp : t.pending = none) : t.Idle :=
  ⟨h.calls.trans hs.calls, hp, h.depth.trans hs.depth⟩

end State

/-- The commands of the host leave alone where a run is. They may do anything else:
change shared values and variables, and have functions called. -/
def Host.LeavesControl (host : Host σ) : Prop :=
  ∀ name arguments s,
    (host.command name arguments s).Follows (fun _ => True) State.SameControl (fun _ => True) s

/-- Where something is evaluated nothing is pending, and every step comes back to the
place it started in. -/
def stayingInPlace (σ : Type) : Discipline σ where
  region := .all
  Fine s := s.pending = none
  Loose _ := True
  Stops _ s := s.pending = none
  Rel := State.SamePlace
  Sees _ _ := True
  Allows _ := True

theorem stayingInPlace_laws {host : Host σ} (hhost : host.LeavesControl) :
    (stayingInPlace σ).Laws host where
  rel_refl := State.SamePlace.refl
  rel_trans := State.SamePlace.trans
  drift_of_rel := id
  drift_trans := State.SamePlace.trans
  sees_of_drift _ _ := trivial
  loose_of_fine _ := trivial
  fine_of_loose _ := id
  fine_of_crashed := id
  failed hs _ := hs
  crashed hs _ := hs
  exhausted := id
  unseen _ _ _ := trivial
  globals _ _ _ _ := Region.holds_all _
  get _ _ := Region.holds_all _
  vector _ _ _ _ := Region.holds_all _
  table _ _ _ _ := ⟨Region.holds_all _, Region.holds_all _⟩
  tuple _ _ _ _ := Region.holds_all _
  field _ _ _ := Region.holds_all _
  pending _ _ _ _ := Region.holds_all _
  newVector hs _ := ⟨Region.holds_all _, hs, ⟨rfl, rfl, rfl⟩⟩
  newTable hs _ _ := ⟨Region.holds_all _, hs, ⟨rfl, rfl, rfl⟩⟩
  newTuple hs _ := ⟨Region.holds_all _, hs, ⟨rfl, rfl, rfl⟩⟩
  newLambda hs _ _ := ⟨Region.holds_all _, hs, ⟨rfl, rfl, rfl⟩⟩
  setVector hs _ _ := ⟨hs, ⟨rfl, rfl, rfl⟩⟩
  setTable hs _ _ _ := ⟨hs, ⟨rfl, rfl, rfl⟩⟩
  assign _ hs _ := ⟨hs, ⟨rfl, rfl, rfl⟩, trivial⟩
  pend _ _ := ⟨trivial, ⟨rfl, rfl, rfl⟩⟩
  settle _ := ⟨rfl, ⟨rfl, rfl, rfl⟩⟩
  scope _ hs := ⟨⟨hs, fun _ => id, fun _ => id, fun _ => id, fun h => ⟨rfl, h.calls, h.depth⟩⟩,
    fun _ _ => trivial⟩
  invocation _ hs := ⟨hs, fun _ => id, fun _ => id, fun _ => id,
    fun h => ⟨h.scope, congrArg List.tail h.calls, h.depth⟩⟩
  lambda hs _ _ _ _ := ⟨⟨hs, fun _ => id, fun _ => id, fun _ => id,
    fun h => ⟨rfl, h.calls, congrArg (· - 1) h.depth⟩⟩, fun _ => false, fun _ _ => trivial,
    fun _ _ => trivial⟩
  reply {s} name arguments hs _ := by
    have hstep : ∀ s t : State σ, s.pending = none → True → s.SameControl t →
        t.pending = none ∧ s.SamePlace t :=
      fun _ _ hs _ h => ⟨h.pending.trans hs, h.toSamePlace⟩
    have hreply := (hhost name arguments s).mono (fun _ _ => trivial) hstep hs
    rw [← Region.holds_all_eq] at hreply
    exact hreply

/-- **A run of any tree, however it ends, leaves an idle state idle and in its
scope.** -/
theorem execute_idle {host : Host σ} (hhost : host.LeavesControl) {s : State σ} (hs : s.Idle)
    (budget : Nat) (source : String) (b : Block) :
    (execute host budget source b s).2.Idle ∧
      (execute host budget source b s).2.scope = s.scope := by
  have hend := (stayingInPlace_laws hhost).ended_execute_of_all hs.pending (fun _ => trivial)
    budget source b
  generalize execute host budget source b s = result at hend ⊢
  obtain ⟨outcome, t⟩ := result
  cases outcome with
  | done values => exact ⟨hs.of_samePlace hend.2.2 hend.2.1, hend.2.2.scope⟩
  | failed f =>
    obtain ⟨e, u, rfl, -, hsu, -⟩ := hend
    exact ⟨⟨rfl, rfl, hsu.depth.trans hs.depth⟩, hsu.scope⟩
  | crashed c => exact ⟨hs.of_samePlace hend.2.2 hend.2.1, hend.2.2.scope⟩
  | exhausted => exact ⟨hs.of_samePlace hend.2 hend.1, hend.2.scope⟩

/-! ## The recording host -/

namespace Recorder

/-- A reply of the recording host that leaves alone where a run is. -/
abbrev Stays (s : State Recorder) (r : Reply Recorder) : Prop :=
  r.Follows (fun _ => True) State.SameControl (fun _ => True) s

theorem stays_mapFrom (vector : Address) (f : Value) (rounds : Nat) (done : List Value)
    (s : State Recorder) : Stays s (mapFrom vector f rounds done s) := by
  induction rounds generalizing done s with
  | zero => exact .crash trivial (.refl s)
  | succ n ih =>
    unfold mapFrom
    split
    · exact .call trivial (.refl s) trivial (fun _ _ => trivial) fun r t _ _ => ih (done ++ [r]) t
    · exact .value trivial ⟨⟨rfl, rfl, rfl⟩, rfl⟩ trivial

theorem leavesControl_host (rounds : Nat) : (host rounds).LeavesControl := by
  intro name arguments s
  change Stays s (command rounds name arguments s)
  unfold command
  split
  all_goals try split
  case h_9.isTrue f rest _ =>
    exact .call trivial (.refl s) trivial (fun _ _ => trivial) fun v t _ _ =>
      .value trivial (.refl t) trivial
  case h_11.isTrue => exact stays_mapFrom _ _ rounds [] s
  all_goals first
    | exact .crash trivial (.refl s)
    | exact .value trivial ⟨⟨rfl, rfl, rfl⟩, rfl⟩ trivial

end Recorder

/-- The tree of a text, or an empty one. -/
def treeOf (text : String) : Block := (parse text Limit.nesting).block.getD (.mk [] none (.point 0))

/-- A lambda that the host calls fails inside the lambda of a loop. -/
theorem execute_idle_recorder :
    let text := "for ([1]) |v| \x7b call || \x7b nope \x7d \x7d"
    let result := execute (Recorder.host 8) 40 text (treeOf text) Recorder.ready
    (Recorder.host 8).LeavesControl ∧ Recorder.ready.Idle ∧
      result.2.Idle ∧ result.2.scope = Recorder.ready.scope := by
  have hhost := Recorder.leavesControl_host 8
  have hready : Recorder.ready.Idle := ⟨rfl, rfl, rfl⟩
  exact ⟨hhost, hready, execute_idle hhost hready 40 _ _⟩

end CommandScript
