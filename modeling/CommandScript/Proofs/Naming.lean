import CommandScript.Proofs.Bindings
import CommandScript.Proofs.Lookup
import CommandScript.Proofs.OwnFaults
/-!
# CommandScript — where names come from

Of all that a text can do, only an assignment to a name brings the name into a frame that
is there, and only into the frame where the statement stands. So what a script can see
behind a step is what it could see before, with the names that the step defines
(`State.SeesOnly`).

A discipline says so (`keepingNames`): a step leaves names alone, and a statement may
bring some into its own frame. Lambdas stay what they are.
-/

namespace CommandScript

variable {σ α : Type}

theorem Names.has_iff_mem_names {t : Names α} {name : String} :
    t.has name = true ↔ name ∈ t.names := by
  simp [Names.has, Names.get?, Names.names]

/-! ## What a step leaves alone -/

/-- The same globals and the same current frame. Of the frames that were there, some have
the same names, and all lambdas are still there. -/
structure State.Keeps (s t : State σ) (F : FrameId → Prop) : Prop where
  globals : t.globals = s.globals
  scope : t.scope = s.scope
  size : s.frames.all.size ≤ t.frames.all.size
  frame : ∀ f < s.frames.all.size, F f → (s.frames.frame f).SameNames (t.frames.frame f)
  lambdas : s.heap.lambdas.toList <+: t.heap.lambdas.toList

namespace State.Keeps

variable {s t u : State σ} {F G : FrameId → Prop}

/-- Nothing is changed but what is shared, and new lambdas are made. -/
theorem of_frames_eq (hglobals : t.globals = s.globals) (hscope : t.scope = s.scope)
    (hframes : t.frames = s.frames)
    (hlambdas : s.heap.lambdas.toList <+: t.heap.lambdas.toList) : s.Keeps t F where
  globals := hglobals
  scope := hscope
  size := hframes ▸ Nat.le_refl _
  frame f _ _ := by
    rw [hframes]
    exact ⟨rfl, rfl, rfl⟩
  lambdas := hlambdas

theorem refl (s : State σ) : s.Keeps s F := .of_frames_eq rfl rfl rfl List.prefix_rfl

theorem trans (h : s.Keeps t F) (h' : t.Keeps u G) (hFG : ∀ f, F f → G f) : s.Keeps u F where
  globals := h'.globals.trans h.globals
  scope := h'.scope.trans h.scope
  size := Nat.le_trans h.size h'.size
  frame f hf hF := by
    obtain ⟨hnames, hup, hroot⟩ := h.frame f hf hF
    obtain ⟨hnames', hup', hroot'⟩ := h'.frame f (Nat.lt_of_lt_of_le hf h.size) (hFG f hF)
    exact ⟨hnames'.trans hnames, hup'.trans hup, hroot'.trans hroot⟩
  lambdas := h.lambdas.trans h'.lambdas

theorem weaken (h : s.Keeps t F) (hFG : ∀ f, G f → F f) : s.Keeps t G :=
  ⟨h.globals, h.scope, h.size, fun f hf hG => h.frame f hf (hFG f hG), h.lambdas⟩

/-- Behind a frame of its own, a step has left alone all frames that were there. -/
theorem leave {e : State σ} (hglobals : e.globals = s.globals)
    (hscope : e.scope = s.frames.all.size)
    (hframes : s.frames.SameBelow s.frames.all.size e.frames)
    (hlambdas : e.heap.lambdas = s.heap.lambdas) (h : e.Keeps t (· ≠ e.scope)) (depth : Nat) :
    s.Keeps { t with scope := s.scope, depth } fun _ => True where
  globals := h.globals.trans hglobals
  scope := rfl
  size := Nat.le_trans hframes.size h.size
  frame f hf _ := by
    obtain ⟨hnames, hup, hroot⟩ := hframes.frame f hf
    obtain ⟨hnames', hup', hroot'⟩ := h.frame f (Nat.lt_of_lt_of_le hf hframes.size)
      (hscope ▸ Nat.ne_of_lt hf)
    exact ⟨hnames'.trans hnames, hup'.trans hup, hroot'.trans hroot⟩
  lambdas := hlambdas ▸ h.lambdas

/-- An assignment brings its name at most into the current frame. -/
theorem assign (s : State σ) (name : String) (v : Value) :
    s.Keeps { s with frames := s.frames.assign s.scope name v } (· ≠ s.scope) where
  globals := rfl
  scope := rfl
  size := by simp [Frames.assign, Frames.set, Frames.setVars]
  frame f _ hf := by
    unfold Frames.assign Frames.set
    rw [Frames.frame_setVars]
    split
    · next hfound =>
      obtain ⟨hhome, -⟩ := hfound
      refine ⟨?_, rfl, rfl⟩
      cases howner : s.frames.owner? s.scope name with
      | none =>
        rw [howner] at hhome
        exact absurd hhome hf
      | some home =>
        rw [howner] at hhome
        obtain rfl : f = home := hhome
        have hhas : (s.frames.vars f).has name = true :=
          List.find?_some (p := fun f => (s.frames.vars f).has name) howner
        exact Names.names_insert_of_has v hhas
    · exact ⟨rfl, rfl, rfl⟩
  lambdas := List.prefix_rfl

/-- A lambda is still there. -/
theorem getElem?_lambdas (h : s.Keeps t F) {a : Address} {c : Closure}
    (hc : s.heap.lambdas[a]? = some c) : t.heap.lambdas[a]? = some c := by
  rw [← Array.getElem?_toList] at hc ⊢
  obtain ⟨more, hmore⟩ := h.lambdas
  rw [← hmore, List.getElem?_append_left (List.getElem?_eq_some_iff.1 hc).1, hc]

end State.Keeps

/-- Names are left alone, except that a statement may bring some into the current frame. -/
def keepingNames (σ : Type) : Discipline σ where
  region := .all
  Fine _ := True
  Loose _ := True
  Stops _ _ := True
  Rel s t := s.Keeps t fun _ => True
  Drift s t := s.Keeps t (· ≠ s.scope)
  Sees _ _ := True
  Allows _ := True

/-- What holds on the way back out of a new frame. -/
theorem respects_of_new {s : State σ} {b : Bracket σ} (hglobals : (b.enter s).globals = s.globals)
    (hscope : (b.enter s).scope = s.frames.all.size)
    (hframes : s.frames.SameBelow s.frames.all.size (b.enter s).frames)
    (hlambdas : (b.enter s).heap.lambdas = s.heap.lambdas)
    (hleave : ∀ t, ∃ depth, b.leave s t = { t with scope := s.scope, depth }) :
    (keepingNames σ).Respects s b where
  enter := trivial
  fine _ _ := trivial
  loose _ _ := trivial
  stops _ _ := trivial
  rel {t} h := by
    obtain ⟨depth, hback⟩ := hleave t
    rw [hback]
    exact State.Keeps.leave hglobals hscope hframes hlambdas h depth

theorem keepingNames_laws {host : Host σ} (hhost : host.LeavesNames) :
    (keepingNames σ).Laws host where
  rel_refl := State.Keeps.refl
  rel_trans h h' := h.trans h' fun _ => id
  drift_of_rel h := h.weaken fun _ _ => trivial
  drift_trans {s t u} h h' := h.trans h' fun f hf => h.scope ▸ hf
  sees_of_drift _ _ := trivial
  loose_of_fine := id
  fine_of_loose _ _ := trivial
  fine_of_crashed _ := trivial
  failed _ _ := trivial
  crashed _ _ := trivial
  exhausted _ := trivial
  unseen _ _ _ := trivial
  globals _ _ _ _ := Region.holds_all _
  get _ _ := Region.holds_all _
  vector _ _ _ _ := Region.holds_all _
  table _ _ _ _ := ⟨Region.holds_all _, Region.holds_all _⟩
  tuple _ _ _ _ := Region.holds_all _
  field _ _ _ := Region.holds_all _
  pending _ _ _ _ := Region.holds_all _
  newVector _ _ := ⟨Region.holds_all _, trivial, .of_frames_eq rfl rfl rfl List.prefix_rfl⟩
  newTable _ _ _ := ⟨Region.holds_all _, trivial, .of_frames_eq rfl rfl rfl List.prefix_rfl⟩
  newTuple {s items} _ _ := by
    have hlambdas : s.heap.lambdas.toList <+: (s.heap.newTuple items).2.lambdas.toList := by
      simp only [Heap.lambdas_newTuple, List.prefix_rfl]
    exact ⟨Region.holds_all _, trivial, .of_frames_eq rfl rfl rfl hlambdas⟩
  newLambda {s body source known} _ _ _ := by
    have hlambdas : s.heap.lambdas.toList <+:
        (s.heap.newLambda ⟨body, s.scope, source⟩).2.lambdas.toList := by
      simp [Heap.newLambda]
    exact ⟨Region.holds_all _, trivial, .of_frames_eq rfl rfl rfl hlambdas⟩
  setVector _ _ _ := ⟨trivial, .of_frames_eq rfl rfl rfl List.prefix_rfl⟩
  setTable _ _ _ _ := ⟨trivial, .of_frames_eq rfl rfl rfl List.prefix_rfl⟩
  assign {s v} name _ _ := ⟨trivial, State.Keeps.assign s name v, trivial⟩
  pend _ _ := ⟨trivial, .of_frames_eq rfl rfl rfl List.prefix_rfl⟩
  settle _ := ⟨trivial, .of_frames_eq rfl rfl rfl List.prefix_rfl⟩
  scope {s} root _ := ⟨respects_of_new rfl rfl (.child (Nat.le_refl _) _ root) rfl
    fun t => ⟨t.depth, rfl⟩, fun _ _ => trivial⟩
  invocation _ _ := ⟨trivial, fun _ _ => trivial, fun _ _ => trivial, fun _ _ => trivial,
    fun h => ⟨h.globals, h.scope, h.size, h.frame, h.lambdas⟩⟩
  lambda {s a closure vars} _ _ _ _ _ := by
    have hsame := sameBindings_enter (Nat.le_refl s.frames.all.size) closure.frame true vars
    exact ⟨respects_of_new rfl rfl hsame rfl fun t => ⟨t.depth - 1, rfl⟩, fun _ => false,
      fun _ _ => trivial, fun _ _ => trivial⟩
  reply {s} name arguments _ _ := by
    have hstep : ∀ s t : State σ, True → True → s.SameNames t → True ∧ s.Keeps t fun _ => True :=
      fun _ _ _ _ h => ⟨trivial, .of_frames_eq h.globals h.scope h.frames
        (h.lambdas ▸ List.prefix_rfl)⟩
    have hreply := (hhost name arguments s).mono (fun _ _ => trivial) hstep trivial
    rw [← Region.holds_all_eq] at hreply
    exact hreply

/-! ## What a script sees -/

namespace Frames

variable {fs gs : Frames} {id f : FrameId}

theorem Formed.chain_subset (h : fs.Formed) {n : Nat} (hn : id < n)
    (hf : f ∈ fs.chainWithin n id) : fs.chain f ⊆ fs.chainWithin n id := by
  induction n generalizing id with
  | zero => cases hf
  | succ n ih =>
    obtain rfl | hf := List.mem_cons.1 hf
    · exact (chainWithin_isPrefix_of_le hn f).subset
    · cases hup : (fs.frame id).up with
      | none =>
        rw [hup] at hf
        cases hf
      | some up =>
        rw [hup] at hf
        have hlt : up < n := Nat.lt_of_lt_of_le (h.up_lt id up hup) (Nat.le_of_lt_succ hn)
        unfold chainWithin
        rw [hup]
        exact List.subset_cons_of_subset id (ih hlt hf)

/-- A chain goes on up to the last frame above. -/
theorem Formed.mem_chain_of_above (h : fs.Formed) (hf : fs.Above id f) : f ∈ fs.chain id := by
  induction hf with
  | here => exact List.mem_cons_self
  | @up f above _ hup ih =>
    have hlt := h.up_lt f above hup
    have hmem : above ∈ fs.chain f := by
      unfold chain chainWithin
      rw [hup]
      obtain ⟨n, rfl⟩ := Nat.exists_eq_add_one_of_ne_zero (Nat.ne_zero_of_lt hlt)
      exact List.mem_cons_of_mem _ List.mem_cons_self
    exact h.chain_subset (Nat.lt_succ_self id) ih hmem

theorem frame_setVars_child (fs : Frames) (id : FrameId) (root : Bool) (vars : Names Value)
    (f : FrameId) : ((fs.child id root).2.setVars (fs.child id root).1 vars).frame f =
      if f = fs.all.size then { up := some id, root, vars } else fs.frame f := by
  rw [frame_setVars, frame_child]
  by_cases hf : f = fs.all.size <;> simp [hf, child]

/-- Above a new frame is what is above the frame it was made below. -/
theorem above_child (hbelow : ∀ f, fs.Above id f → f < fs.all.size) {root : Bool}
    {vars : Names Value} (h : ((fs.child id root).2.setVars (fs.child id root).1 vars).Above
      (fs.child id root).1 f) : f = fs.all.size ∨ fs.Above id f := by
  induction h with
  | here => exact .inl rfl
  | up _ hup ih =>
    rw [frame_setVars_child] at hup
    obtain rfl | hf := ih
    · rw [if_pos rfl] at hup
      cases hup
      exact .inr .here
    · rw [if_neg (Nat.ne_of_lt (hbelow _ hf))] at hup
      exact .inr (hf.up hup)

/-- Where the frames above are the same in another store, no others are above there. -/
theorem Above.of_same (hup : ∀ f, fs.Above id f → (gs.frame f).up = (fs.frame f).up)
    (h : gs.Above id f) : fs.Above id f := by
  induction h with
  | here => exact .here
  | up _ hg ih => exact ih.up (hup _ ih ▸ hg)

end Frames

/-- No other name is in sight than some that are known, and the frames in which names are
looked up are all there. -/
structure State.SeesOnly (s : State σ) (known : Sight) : Prop where
  globals : ∀ name, s.globals.has name = true → known name = true
  inStore : ∀ f, s.frames.Above s.scope f → f < s.frames.all.size
  frames : ∀ f, s.frames.Above s.scope f →
    ∀ name, (s.frames.vars f).has name = true → known name = true

namespace State.SeesOnly

variable {s t : State σ} {known : Sight} {names : List String}

theorem mono (h : s.SeesOnly known) {known' : Sight}
    (hsub : ∀ name, known name = true → known' name = true) : s.SeesOnly known' :=
  ⟨fun name hn => hsub name (h.globals name hn), h.inStore,
    fun f hf name hn => hsub name (h.frames f hf name hn)⟩

theorem with_names (h : s.SeesOnly known) : s.SeesOnly (known.with names) :=
  h.mono fun name hn => by simp [Sight.with, hn]

theorem known_of_sees (h : s.SeesOnly known) {name : String} (hn : s.sees name = true) :
    known name = true := by
  obtain hn | hn := Bool.or_eq_true_iff.1 hn
  · exact h.globals name hn
  · obtain ⟨f, hf, hn⟩ := Frames.has_iff.1 hn
    have habove : s.frames.Above s.scope f :=
      Frames.forall_mem_chain (fun _ hf _ hup => hf.up hup) .here f hf
    exact h.frames f habove name hn

/-- Each name that a script sees where it starts is known of, and no other. -/
theorem start (hframes : s.frames.Formed) (hscope : s.scope < s.frames.all.size) :
    s.SeesOnly s.sees where
  globals name hn := by simp [State.sees, hn]
  inStore f hf := by
    induction hf with
    | here => exact hscope
    | up _ hup ih => exact Nat.lt_trans (hframes.up_lt _ _ hup) ih
  frames f hf name hn := by
    have hhas : s.frames.has s.scope name = true :=
      Frames.has_iff.2 ⟨f, hframes.mem_chain_of_above hf, hn⟩
    simp [State.sees, hhas]

/-- The frames above are the same, and what they bind is known of. -/
theorem of_frames (h : s.SeesOnly known) {known' : Sight} (hglobals : t.globals = s.globals)
    (hscope : t.scope = s.scope) (hsize : s.frames.all.size ≤ t.frames.all.size)
    (hup : ∀ f, s.frames.Above s.scope f → (t.frames.frame f).up = (s.frames.frame f).up)
    (hvars : ∀ f, s.frames.Above s.scope f →
      ∀ name, (t.frames.vars f).has name = true → known' name = true)
    (hsub : ∀ name, known name = true → known' name = true) : t.SeesOnly known' := by
  have habove : ∀ {f}, t.frames.Above t.scope f → s.frames.Above s.scope f :=
    fun hf => (hscope ▸ hf).of_same hup
  refine ⟨fun name hn => hsub name (h.globals name (hglobals ▸ hn)), fun f hf => ?_,
    fun f hf => hvars f (habove hf)⟩
  exact Nat.lt_of_lt_of_le (h.inStore f (habove hf)) hsize

/-- A step that leaves names alone brings none into sight. -/
theorem keeps (h : s.SeesOnly known) (hst : s.Keeps t fun _ => True) : t.SeesOnly known := by
  refine h.of_frames hst.globals hst.scope hst.size
    (fun f hf => (hst.frame f (h.inStore f hf) trivial).up) (fun f hf name hn => ?_) fun _ => id
  rw [Names.has_iff_mem_names] at hn
  exact h.frames f hf name (Names.has_iff_mem_names.2
    ((hst.frame f (h.inStore f hf) trivial).names ▸ hn))

/-- Behind an assignment, the name is in sight that was assigned to. -/
theorem assign (h : s.SeesOnly known) (name : String) (v : Value) :
    State.SeesOnly { s with frames := s.frames.assign s.scope name v } (known.with [name]) := by
  have hframe : ∀ f, ((s.frames.assign s.scope name v).frame f).up = (s.frames.frame f).up ∧
      ∀ other, ((s.frames.assign s.scope name v).vars f).has other = true →
        other = name ∨ (s.frames.vars f).has other = true := by
    intro f
    unfold Frames.vars Frames.assign Frames.set
    rw [Frames.frame_setVars]
    split
    · next hf =>
      obtain ⟨rfl, -⟩ := hf
      exact ⟨rfl, fun other hn => by simpa [Frames.vars] using hn⟩
    · exact ⟨rfl, fun _ hn => .inr hn⟩
  refine h.of_frames rfl rfl (by simp [Frames.assign, Frames.set, Frames.setVars])
    (fun f _ => (hframe f).1) (fun f hf other hn => ?_) fun other hn => by simp [Sight.with, hn]
  obtain rfl | hn := (hframe f).2 other hn
  · simp [Sight.with]
  · simp [Sight.with, h.frames f hf other hn]

/-- In a new frame, what it binds is in sight as well. -/
theorem enter (h : s.SeesOnly known) (root : Bool) {vars : Names Value}
    (hvars : ∀ name, vars.has name = true → name ∈ names) (depth : Nat) :
    State.SeesOnly { s with
      frames := (s.frames.child s.scope root).2.setVars (s.frames.child s.scope root).1 vars
      scope := (s.frames.child s.scope root).1, depth } (known.with names) := by
  have hframe := Frames.frame_setVars_child s.frames s.scope root vars
  refine ⟨fun name hn => ?_, fun f hf => ?_, fun f hf name hn => ?_⟩
  · simp [Sight.with, h.globals name hn]
  · have hsize : ((s.frames.child s.scope root).2.setVars (s.frames.child s.scope root).1
        vars).all.size = s.frames.all.size + 1 := by simp [Frames.child, Frames.setVars]
    refine Nat.lt_of_lt_of_eq ?_ hsize.symm
    obtain rfl | hf := Frames.above_child h.inStore hf
    · exact Nat.lt_succ_self _
    · exact Nat.lt_succ_of_lt (h.inStore f hf)
  · unfold Frames.vars at hn
    rw [hframe] at hn
    obtain rfl | hf := Frames.above_child h.inStore hf
    · rw [if_pos rfl] at hn
      simp [Sight.with, hvars name hn]
    · rw [if_neg (Nat.ne_of_lt (h.inStore f hf))] at hn
      simp [Sight.with, h.frames f hf name hn]

theorem scope (h : s.SeesOnly known) (root : Bool) :
    ((Bracket.scope root).enter s).SeesOnly known := by
  have hempty : ∀ name, ({} : Names Value).has name = true → name ∈ ([] : List String) := nofun
  have hnew := h.enter root hempty s.depth
  rw [Frames.setVars_child, Sight.with_nil] at hnew
  exact hnew

/-- In a call of a lambda that was made here, its parameters are in sight as well. -/
theorem lambda (h : s.SeesOnly known) (names : List String) (arguments : List Value) :
    ((Bracket.lambda s.scope (Bracket.parameters names arguments)).enter s).SeesOnly
      (known.with names) :=
  h.enter true (fun _ => Bracket.has_parameters_iff.1) (s.depth + 1)

end State.SeesOnly

end CommandScript
