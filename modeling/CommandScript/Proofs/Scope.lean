import CommandScript.Run.Scope
/-!
# CommandScript — names come into sight and stay

Frames are only added, and variables are only added to them. So a name that is
visible from a frame stays visible from it, whatever happens to the store
(`Frames.Grows`), and a new frame sees what the frame above it sees.

The one place where a bound matters is the chain from a new frame: it is as long
as the number of the frame, which is enough because the frame above has a smaller
one.
-/

namespace CommandScript

namespace Names

variable {α β : Type}

@[simp] theorem has_insert (t : Names α) (name other : String) (a : α) :
    (t.insert name a).has other = (decide (other = name) || t.has other) := by
  unfold has
  rw [get?_insert]
  split <;> simp_all

/-- Names that are put in one after the other are there, beside those that were. -/
theorem has_foldl_insert (key : β → String) (value : β → α) (l : List β) (t : Names α)
    (name : String) :
    (l.foldl (fun t b => t.insert (key b) (value b)) t).has name =
      (decide (name ∈ l.map key) || t.has name) := by
  induction l generalizing t with
  | nil => simp
  | cons b rest ih =>
    rw [List.foldl_cons, ih, has_insert]
    by_cases hb : name = key b <;> simp [hb]

theorem has_update (t u : Names α) (name : String) :
    (t.update u).has name = (u.has name || t.has name) := by
  unfold update
  rw [has_foldl_insert]
  congr 1
  unfold has get?
  rw [Option.isSome_map, Bool.eq_iff_iff, List.find?_isSome, decide_eq_true_iff, List.mem_map]
  exact exists_congr fun e => and_congr_right fun _ => beq_iff_eq.symm

end Names

namespace Frames

variable {fs fs' : Frames} {id : FrameId} {name : String}

/-- A name is visible where a frame of the chain has it. -/
theorem has_iff : fs.has id name = true ↔ ∃ f ∈ fs.chain id, (fs.vars f).has name = true := by
  unfold has owner?
  exact List.find?_isSome

/-- A number outside the store stands for an empty frame. -/
theorem frame_of_size_le (h : fs.all.size ≤ id) : fs.frame id = {} := by
  unfold frame
  rw [Array.getElem?_eq_none h]
  rfl

theorem not_has_of_size_le (h : fs.all.size ≤ id) : fs.has id name = false := by
  unfold has owner? chain chainWithin
  simp [vars, frame_of_size_le h, Names.has, Names.get?]

/-! ## Chains -/

/-- A chain may stop early; it goes the same way. -/
theorem chainWithin_isPrefix_of_le {m n : Nat} (h : m ≤ n) (id : FrameId) :
    fs.chainWithin m id <+: fs.chainWithin n id := by
  induction m generalizing n id with
  | zero => exact List.nil_prefix
  | succ m ih =>
    obtain ⟨n, rfl⟩ : ∃ k, n = k + 1 := ⟨n - 1, by omega⟩
    unfold chainWithin
    refine List.cons_prefix_cons.2 ⟨rfl, ?_⟩
    cases (fs.frame id).up with
    | none => exact List.nil_prefix
    | some up => exact ih (by omega) up

/-- A set of frames that is closed under going up contains the chains of its frames. -/
theorem forall_mem_chain {F : FrameId → Prop}
    (hF : ∀ f, F f → ∀ up, (fs.frame f).up = some up → F up) (h : F id) :
    ∀ f ∈ fs.chain id, F f := by
  unfold chain
  generalize id + 1 = n
  induction n generalizing id with
  | zero => nofun
  | succ n ih =>
    intro f hf
    obtain rfl | hf := List.mem_cons.1 hf
    · exact h
    · cases hup : (fs.frame id).up with
      | none => rw [hup] at hf; cases hf
      | some up => rw [hup] at hf; exact ih (hF id h up hup) f hf

/-! ## Growth -/

/-- What is visible stays visible, from every frame, and no frame goes away. -/
structure Grows (fs fs' : Frames) : Prop where
  size : fs.all.size ≤ fs'.all.size
  has : ∀ id name, fs.has id name = true → fs'.has id name = true

theorem Grows.refl (fs : Frames) : fs.Grows fs := ⟨Nat.le_refl _, fun _ _ h => h⟩

theorem Grows.trans {fs'' : Frames} (h : fs.Grows fs') (h' : fs'.Grows fs'') : fs.Grows fs'' :=
  ⟨Nat.le_trans h.size h'.size, fun id name hn => h'.has id name (h.has id name hn)⟩

/-- Chains may become longer, and frames may get more variables. -/
theorem Grows.of_frames (hsize : fs.all.size ≤ fs'.all.size)
    (hup : ∀ f up, (fs.frame f).up = some up → (fs'.frame f).up = some up)
    (hvars : ∀ f name, (fs.vars f).has name = true → (fs'.vars f).has name = true) :
    fs.Grows fs' := by
  have hchain : ∀ n id, fs.chainWithin n id <+: fs'.chainWithin n id := by
    intro n
    induction n with
    | zero => exact fun _ => List.nil_prefix
    | succ n ih =>
      intro id
      unfold chainWithin
      refine List.cons_prefix_cons.2 ⟨rfl, ?_⟩
      cases h : (fs.frame id).up with
      | none => exact List.nil_prefix
      | some up =>
        rw [hup id up h]
        exact ih up
  refine ⟨hsize, fun id name h => ?_⟩
  obtain ⟨f, hf, hn⟩ := has_iff.1 h
  exact has_iff.2 ⟨f, (hchain _ id).subset hf, hvars f name hn⟩

theorem frame_child (fs : Frames) (id : FrameId) (root : Bool) (f : FrameId) :
    (fs.child id root).2.frame f =
      if f = fs.all.size then { up := some id, root } else fs.frame f := by
  unfold frame child
  simp only [Array.getElem?_push]
  split <;> rfl

theorem grows_child (fs : Frames) (id : FrameId) (root : Bool) : fs.Grows (fs.child id root).2 := by
  refine .of_frames (by simp [child]) (fun f up h => ?_) fun f name h => ?_
  · rw [frame_child]
    split
    · next hf =>
      subst hf
      rw [frame_of_size_le (Nat.le_refl _)] at h
      cases h
    · exact h
  · unfold vars at h ⊢
    rw [frame_child]
    split
    · next hf =>
      subst hf
      rw [frame_of_size_le (Nat.le_refl _)] at h
      cases h
    · exact h

/-- A new frame sees what the frame above it sees. -/
theorem has_child (fs : Frames) (id : FrameId) (root : Bool) (h : fs.has id name = true) :
    (fs.child id root).2.has (fs.child id root).1 name = true := by
  have hid : id < fs.all.size := by
    refine Nat.not_le.1 fun hle => ?_
    rw [not_has_of_size_le hle] at h
    cases h
  obtain ⟨f, hf, hn⟩ := has_iff.1 ((grows_child fs id root).has id name h)
  refine has_iff.2 ⟨f, ?_, hn⟩
  have hup : ((fs.child id root).2.frame (fs.child id root).1).up = some id := by
    rw [frame_child]
    simp [child]
  unfold chain chainWithin
  rw [hup]
  exact List.mem_cons_of_mem _ ((chainWithin_isPrefix_of_le (Nat.succ_le_of_lt hid) id).subset hf)

theorem frame_setVars (fs : Frames) (id : FrameId) (vars : Names Value) (f : FrameId) :
    (fs.setVars id vars).frame f =
      if f = id ∧ id < fs.all.size then { fs.frame f with vars } else fs.frame f := by
  unfold frame setVars
  simp only [Array.getElem?_modify]
  by_cases hf : f = id
  · subst hf
    by_cases hs : f < fs.all.size
    · simp [hs]
    · simp [hs]
  · simp [hf, Ne.symm hf]

theorem grows_setVars (fs : Frames) (id : FrameId) {vars : Names Value}
    (h : ∀ name, (fs.vars id).has name = true → vars.has name = true) :
    fs.Grows (fs.setVars id vars) := by
  refine .of_frames (by simp [setVars]) (fun f up hup => ?_) fun f name hn => ?_
  · rw [frame_setVars]
    split <;> exact hup
  · unfold Frames.vars at hn ⊢
    rw [frame_setVars]
    split
    · next hf => exact h name (hf.1 ▸ hn)
    · exact hn

/-- A new frame has no variables. -/
theorem vars_child (fs : Frames) (id : FrameId) (root : Bool) :
    (fs.child id root).2.vars (fs.child id root).1 = {} := by
  unfold vars
  rw [frame_child]
  simp [child]

theorem setVars_child (fs : Frames) (id : FrameId) (root : Bool) :
    (fs.child id root).2.setVars (fs.child id root).1 {} = (fs.child id root).2 := by
  unfold setVars child
  refine congrArg Frames.mk (Array.ext' (List.ext_getElem? fun f => ?_))
  simp only [Array.getElem?_toList, Array.getElem?_modify, Array.getElem?_push]
  by_cases hf : f = fs.all.size
  · simp [hf]
  · simp [hf, Ne.symm hf]

/-- A new frame may be given variables at once. -/
theorem grows_setVars_child (fs : Frames) (id : FrameId) (root : Bool) (vars : Names Value) :
    (fs.child id root).2.Grows ((fs.child id root).2.setVars (fs.child id root).1 vars) := by
  refine grows_setVars _ _ fun name h => ?_
  rw [vars_child] at h
  cases h

/-- A new frame sees the variables it is given. -/
theorem has_setVars_child (fs : Frames) (id : FrameId) (root : Bool) {vars : Names Value}
    (h : vars.has name = true) :
    ((fs.child id root).2.setVars (fs.child id root).1 vars).has (fs.child id root).1 name =
      true := by
  refine has_iff.2 ⟨(fs.child id root).1, by simp [chain, chainWithin], ?_⟩
  unfold Frames.vars
  rw [frame_setVars, if_pos ⟨rfl, by simp [child]⟩]
  exact h

theorem grows_set (fs : Frames) (id : FrameId) (name : String) (v : Value) :
    fs.Grows (fs.set id name v) :=
  grows_setVars fs id fun other h => by simp [h]

theorem grows_assign (fs : Frames) (id : FrameId) (name : String) (v : Value) :
    fs.Grows (fs.assign id name v) :=
  grows_set fs _ name v

/-- What was assigned to is visible. -/
theorem has_assign (v : Value) (h : id < fs.all.size) :
    (fs.assign id name v).has id name = true := by
  cases ho : fs.owner? id name with
  | some f => exact (grows_assign fs id name v).has id name (by simp [has, ho])
  | none =>
    refine has_iff.2 ⟨id, by simp [chain, chainWithin], ?_⟩
    unfold assign set vars
    rw [ho, frame_setVars]
    simp [h]

end Frames

end CommandScript
