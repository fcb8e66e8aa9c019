import CommandScript.Proofs.Rules
import CommandScript.Proofs.Confined
import CommandScript.Vm
/-!
# CommandScript — a run binds no names outside itself

A text runs in a new frame, and so does whatever it calls. An assignment gives a
value to a name that some frame of the chain has already, or else adds the name to
the current frame, which is never one that was there before the run. So globals
stay as they are, and each frame from before the run keeps its names and the frame
above it. What may change in such a frame is what stands under a name it has.

Closures are no way out: the frame that a closure was made in may be older than the
run, but its body runs in a new frame below it.
-/

namespace CommandScript

variable {σ : Type}

theorem Names.names_insert_of_has {α : Type} {t : Names α} {name : String} (a : α)
    (h : t.has name = true) : (t.insert name a).names = t.names := by
  obtain ⟨es⟩ := t
  simp only [Names.has, Names.get?, Option.isSome_map, List.find?_isSome] at h
  simp only [Names.names, Names.insert]
  induction es with
  | nil => simp at h
  | cons e rest ih =>
    unfold insertInto
    split
    · rfl
    · next hne =>
      obtain ⟨d, hd, hname⟩ := h
      obtain rfl | hd := List.mem_cons.1 hd
      · exact absurd hname hne
      · rw [List.map_cons, List.map_cons, ih ⟨d, hd, hname⟩]

/-! ## What a frame binds -/

/-- Two frames with the same names, in the same order, below the same frame. -/
structure Frame.SameNames (f g : Frame) : Prop where
  names : g.vars.names = f.vars.names
  up : g.up = f.up
  root : g.root = f.root

namespace Frames

variable {fs : Frames} {id f : FrameId}

/-- The frames with a number below a bound are all there, and each of them binds the
same names. -/
structure SameBelow (bound : Nat) (fs gs : Frames) : Prop where
  size : fs.all.size ≤ gs.all.size
  frame : ∀ f < bound, (fs.frame f).SameNames (gs.frame f)

namespace SameBelow

variable {bound : Nat} {gs : Frames}

theorem refl (bound : Nat) (fs : Frames) : fs.SameBelow bound fs :=
  ⟨Nat.le_refl _, fun _ _ => ⟨rfl, rfl, rfl⟩⟩

theorem trans {hs : Frames} (h : fs.SameBelow bound gs) (h' : gs.SameBelow bound hs) :
    fs.SameBelow bound hs := by
  refine ⟨Nat.le_trans h.size h'.size, fun f hf => ?_⟩
  obtain ⟨hnames, hup, hroot⟩ := h.frame f hf
  obtain ⟨hnames', hup', hroot'⟩ := h'.frame f hf
  exact ⟨hnames'.trans hnames, hup'.trans hup, hroot'.trans hroot⟩

/-- A new frame has a number of its own. -/
theorem child (hbound : bound ≤ fs.all.size) (id : FrameId) (root : Bool) :
    fs.SameBelow bound (fs.child id root).2 := by
  refine ⟨by simp [Frames.child], fun f hf => ?_⟩
  rw [frame_child, if_neg (Nat.ne_of_lt (Nat.lt_of_lt_of_le hf hbound))]
  exact ⟨rfl, rfl, rfl⟩

/-- Variables may be written to a frame beyond the bound, and to any frame that has
these names already. -/
theorem setVars {vars : Names Value}
    (h : id < bound → vars.names = (fs.vars id).names) :
    fs.SameBelow bound (fs.setVars id vars) := by
  refine ⟨by simp [Frames.setVars], fun f hf => ?_⟩
  rw [frame_setVars]
  split
  · next hid =>
    obtain ⟨rfl, -⟩ := hid
    exact ⟨h hf, rfl, rfl⟩
  · exact ⟨rfl, rfl, rfl⟩

/-- **An assignment in a frame beyond the bound binds no name below it.** -/
theorem assign (hid : bound ≤ id) (name : String) (v : Value) :
    fs.SameBelow bound (fs.assign id name v) := by
  refine setVars fun hlt => ?_
  cases howner : fs.owner? id name with
  | none =>
    rw [howner] at hlt
    exact absurd hlt (Nat.not_lt.2 hid)
  | some f =>
    have hhas : (fs.vars f).has name = true :=
      List.find?_some (p := fun f => (fs.vars f).has name) howner
    exact Names.names_insert_of_has v hhas

end SameBelow

end Frames

/-! ## Runs -/

namespace State

/-- Globals are the same, and frames below a bound bind the same names. -/
structure SameBindings (bound : Nat) (s t : State σ) : Prop where
  globals : t.globals = s.globals
  frames : s.frames.SameBelow bound t.frames

variable {bound : Nat}

theorem SameBindings.refl (s : State σ) : s.SameBindings bound s := ⟨rfl, .refl bound _⟩

theorem SameBindings.trans {s t u : State σ} (h : s.SameBindings bound t)
    (h' : t.SameBindings bound u) : s.SameBindings bound u :=
  ⟨h'.globals.trans h.globals, h.frames.trans h'.frames⟩

/-- The current frame is beyond a bound that leaves room for no other. -/
structure Beyond (bound : Nat) (s : State σ) : Prop where
  scope : bound ≤ s.scope
  size : bound ≤ s.frames.all.size

/-- Globals and frames are the same, and names are looked up from the same frame. -/
structure SameScopes (s t : State σ) : Prop where
  globals : t.globals = s.globals
  frames : t.frames = s.frames
  scope : t.scope = s.scope

theorem SameScopes.refl (s : State σ) : s.SameScopes s := ⟨rfl, rfl, rfl⟩

theorem SameScopes.sameBindings {s t : State σ} (h : s.SameScopes t) : s.SameBindings bound t :=
  ⟨h.globals, h.frames ▸ .refl bound _⟩

theorem Beyond.of_sameScopes {s t : State σ} (hs : s.Beyond bound) (h : s.SameScopes t) :
    t.Beyond bound :=
  ⟨h.scope ▸ hs.scope, h.frames ▸ hs.size⟩

end State

/-- The commands of the host leave globals and scopes alone. They may do anything
else: change shared values, and have functions called. -/
def Host.LeavesScopes (host : Host σ) : Prop :=
  ∀ name arguments s,
    (host.command name arguments s).Follows (fun _ => True) State.SameScopes (fun _ => True) s

/-- Everything is evaluated in frames beyond a bound, and no step binds a name below
it. -/
def bindingBeyond (σ : Type) (bound : Nat) : Discipline σ where
  region := .all
  Fine := State.Beyond bound
  Loose := State.Beyond bound
  Stops _ := State.Beyond bound
  Rel := State.SameBindings bound
  Sees _ _ := True
  Allows _ := True

section

variable {bound : Nat}

/-- A new frame below any frame, with any variables, is a place to evaluate something
in; what is evaluated there tells nothing about frames below the bound. -/
theorem sameBindings_enter {s : State σ} (hs : bound ≤ s.frames.all.size) (id : FrameId)
    (root : Bool) (vars : Names Value) :
    s.frames.SameBelow bound ((s.frames.child id root).2.setVars s.frames.all.size vars) :=
  (Frames.SameBelow.child hs id root).trans (.setVars fun h => absurd hs (Nat.not_le.2 h))

theorem bindingBeyond_laws {host : Host σ} (hhost : host.LeavesScopes) :
    (bindingBeyond σ bound).Laws host where
  rel_refl := State.SameBindings.refl
  rel_trans := State.SameBindings.trans
  drift_of_rel := id
  drift_trans := State.SameBindings.trans
  sees_of_drift _ _ := trivial
  loose_of_fine := id
  fine_of_loose hs _ := hs
  fine_of_crashed := id
  failed hs _ := hs
  crashed hs _ := hs
  exhausted := id
  unseen _ _ _ := trivial
  globals _ _ _ _ := Region.holds_all _
  get _ _ := Region.holds_all _
  vector _ _ _ _ := Region.holds_all _
  table _ _ _ _ := ⟨Region.holds_all _, Region.holds_all _⟩
  tuple _ _ _ _ := Region.holds_all _
  field _ _ _ := Region.holds_all _
  pending _ _ _ _ := Region.holds_all _
  newVector hs _ := ⟨Region.holds_all _, ⟨hs.scope, hs.size⟩, ⟨rfl, .refl bound _⟩⟩
  newTable hs _ _ := ⟨Region.holds_all _, ⟨hs.scope, hs.size⟩, ⟨rfl, .refl bound _⟩⟩
  newTuple hs _ := ⟨Region.holds_all _, ⟨hs.scope, hs.size⟩, ⟨rfl, .refl bound _⟩⟩
  newLambda hs _ _ := ⟨Region.holds_all _, ⟨hs.scope, hs.size⟩, ⟨rfl, .refl bound _⟩⟩
  setVector hs _ _ := ⟨⟨hs.scope, hs.size⟩, ⟨rfl, .refl bound _⟩⟩
  setTable hs _ _ _ := ⟨⟨hs.scope, hs.size⟩, ⟨rfl, .refl bound _⟩⟩
  assign {s v} name hs _ := by
    have hsame : s.frames.SameBelow bound (s.frames.assign s.scope name v) :=
      .assign hs.scope name v
    exact ⟨⟨hs.scope, Nat.le_trans hs.size hsame.size⟩, ⟨rfl, hsame⟩, trivial⟩
  pend hs _ := ⟨⟨hs.scope, hs.size⟩, ⟨rfl, .refl bound _⟩⟩
  settle hs := ⟨⟨hs.scope, hs.size⟩, ⟨rfl, .refl bound _⟩⟩
  scope {s} root hs := by
    have hsame : s.frames.SameBelow bound (s.frames.child s.scope root).2 := .child hs.size _ root
    exact ⟨⟨⟨hs.size, Nat.le_trans hs.size hsame.size⟩, fun _ ht => ⟨hs.scope, ht.size⟩,
      fun _ ht => ⟨hs.scope, ht.size⟩, fun _ ht => ⟨hs.scope, ht.size⟩,
      fun ht => ⟨ht.globals, hsame.trans ht.frames⟩⟩, fun _ _ => trivial⟩
  invocation _ hs := ⟨⟨hs.scope, hs.size⟩, fun _ ht => ⟨ht.scope, ht.size⟩,
    fun _ ht => ⟨ht.scope, ht.size⟩, fun _ ht => ⟨ht.scope, ht.size⟩,
    fun ht => ⟨ht.globals, ht.frames⟩⟩
  lambda {s a closure vars} hs _ _ _ _ := by
    have hsame := sameBindings_enter hs.size closure.frame true vars
    refine ⟨⟨⟨hs.size, Nat.le_trans hs.size hsame.size⟩, fun _ ht => ⟨hs.scope, ht.size⟩,
      fun _ ht => ⟨hs.scope, ht.size⟩, fun _ ht => ⟨hs.scope, ht.size⟩,
      fun ht => ⟨ht.globals, hsame.trans ht.frames⟩⟩, fun _ => false, fun _ _ => trivial,
      fun _ _ => trivial⟩
  reply {s} name arguments hs _ := by
    have hstep : ∀ s t : State σ, s.Beyond bound → True → s.SameScopes t →
        t.Beyond bound ∧ s.SameBindings bound t :=
      fun _ _ hs _ h => ⟨hs.of_sameScopes h, h.sameBindings⟩
    have hreply := (hhost name arguments s).mono (fun _ _ => trivial) hstep hs
    rw [← Region.holds_all_eq] at hreply
    exact hreply

end

/-! ## Whole texts -/

/-- What holds behind the statements of a text, with the scope put back, and does not
look at what was on its way holds behind its run. -/
theorem execute_ends {host : Host σ} {budget : Nat} {source : String} {b : Block} {s : State σ}
    {P : State σ → Prop} (hsettled : ∀ t, P t → P t.settled)
    (h : (runBlock host budget source b).Ends ((Bracket.scope true).enter s)
      (fun _ t => P { t with scope := s.scope }) (fun _ t => P { t with scope := s.scope })) :
    P (execute host budget source b s).2 := by
  have hrun : (Exec.within (s.frames.child s.scope true).1 (runBlock host budget source b)).Ends
      { s with frames := (s.frames.child s.scope true).2 } (fun _ => P) (fun _ => P) :=
    Exec.ends_within.2 h
  unfold execute
  dsimp only
  unfold Exec.Ends at hrun
  split <;> rename_i heq <;> rw [heq] at hrun
  · exact hrun
  · exact hsettled _ hrun
  · exact hsettled _ hrun
  · exact hrun
  · exact hrun

/-- **A run of any tree, however it ends, leaves globals and the names of earlier
frames as they were.** -/
theorem execute_sameBindings {host : Host σ} (hhost : host.LeavesScopes) (budget : Nat)
    (source : String) (b : Block) (s : State σ) :
    s.SameBindings s.frames.all.size (execute host budget source b s).2 := by
  refine execute_ends (fun _ ht => ⟨ht.globals, ht.frames⟩) ?_
  have hnew : s.frames.SameBelow s.frames.all.size (s.frames.child s.scope true).2 :=
    .child (Nat.le_refl _) _ _
  have henter : ((Bracket.scope true).enter s).Beyond s.frames.all.size :=
    ⟨Nat.le_refl _, hnew.size⟩
  have hback : ∀ {t : State σ},
      ((Bracket.scope true).enter s).SameBindings s.frames.all.size t →
      s.SameBindings s.frames.all.size { t with scope := s.scope } :=
    fun ht => ⟨ht.globals, hnew.trans ht.frames⟩
  have hnone : (bindingBeyond σ s.frames.all.size).Covers ((Bracket.scope true).enter s)
      (fun _ => false) := fun _ h => nomatch h
  exact (Discipline.ends_runBlock (bindingBeyond_laws hhost) henter hnone
    (fun _ _ => trivial) budget).mono (fun _ _ ht => hback ht.2.2) fun _ _ ht => hback ht.2

theorem Recorder.leavesScopes_host (rounds : Nat) : (Recorder.host rounds).LeavesScopes := by
  intro name arguments s
  have hreply := (Recorder.confined_host rounds).leavesNames name arguments s
  exact hreply.mono (fun _ _ => trivial)
    (fun _ _ _ _ h => ⟨trivial, h.globals, h.frames, h.scope⟩) trivial

/-- A machine whose scope holds a number and a lambda that an earlier run made. -/
def Recorder.visited : Vm Recorder :=
  let vm : Vm Recorder := { state := { Recorder.ready with
    frames := ⟨#[{ vars := ⟨[("x", .int 1), ("f", .nil)]⟩, root := true }]⟩ } }
  (vm.run (host 8) 40 "$f = || \x7b $x = 2\n$y = 3 \x7d" Limit.nesting).2

end CommandScript
