import CommandScript.Proofs.Known
import CommandScript.Proofs.Unknown
/-!
# CommandScript — looking up and assigning along a chain

A name can be looked up in two ways. The evaluator goes from a frame outwards and
takes the first frame that has the name; who wants to see all names at once goes from
the outermost frame inwards and lets later frames overwrite earlier ones. Both give
what `Frames.lookup?` gives, the entry of the innermost frame with the name.

An assignment writes one variable of one frame (`Frames.Wrote`), and the chains stay
as they are. So a lookup changes only where its chain reaches that frame, and only for
the one name. That the frames further out do not reach it again is where it matters
that numbers fall along a chain.
-/

namespace CommandScript

namespace Names

variable {α : Type}

/-- A name that is new comes last, and no other name moves. -/
theorem map_fst_insertInto (es : List (String × α)) (name : String) (a : α) :
    (insertInto name a es).map (·.1) =
      if name ∈ es.map (·.1) then es.map (·.1) else es.map (·.1) ++ [name] := by
  induction es with
  | nil => simp [insertInto]
  | cons e rest ih =>
    by_cases he : e.1 = name
    · simp [insertInto, he]
    · simp only [insertInto, beq_iff_eq, if_neg he, List.map_cons, ih, List.mem_cons,
        Ne.symm he, false_or]
      split <;> rfl

theorem nodup_insert {t : Names α} (h : t.names.Nodup) (name : String) (a : α) :
    (t.insert name a).names.Nodup := by
  have hnames := map_fst_insertInto t.entries name a
  unfold names insert
  rw [hnames]
  split
  · exact h
  · next hname =>
    refine List.nodup_append.2 ⟨h, List.pairwise_singleton _ _, fun other hother _ hmem heq => ?_⟩
    exact hname (List.mem_singleton.1 hmem ▸ heq ▸ hother)

end Names

namespace Frames

variable {fs gs : Frames} {id home t : FrameId} {name other : String} {v : Value}

/-! ## One lookup -/

/-- What the innermost frame with a name has under it, from a frame outwards. -/
def lookup? (fs : Frames) (id : FrameId) (name : String) : Option Value :=
  (fs.chain id).findSome? fun f => (fs.vars f).get? name

theorem owner?_bind_get? (fs : Frames) (id : FrameId) (name : String) :
    ((fs.owner? id name).bind fun f => (fs.vars f).get? name) = fs.lookup? id name := by
  unfold owner? lookup?
  induction fs.chain id with
  | nil => rfl
  | cons f rest ih =>
    rw [List.find?_cons, List.findSome?_cons]
    cases hf : (fs.vars f).get? name with
    | none => simpa [Names.has, hf] using ih
    | some v => simp [Names.has, hf]

theorem has_eq_isSome_lookup? (fs : Frames) (id : FrameId) (name : String) :
    fs.has id name = (fs.lookup? id name).isSome := by
  unfold has owner? lookup?
  rw [Bool.eq_iff_iff, List.find?_isSome, List.findSome?_isSome_iff]
  rfl

theorem get_eq_lookup? (fs : Frames) (id : FrameId) (name : String) :
    fs.get id name = (fs.lookup? id name).getD .nil := by
  rw [← owner?_bind_get?]
  rfl

theorem get?_visible_eq_lookup? (hfs : fs.Distinct) (id : FrameId) (name : String) :
    (fs.visible id).get? name = fs.lookup? id name := by
  rw [get?_visible hfs, owner?_bind_get?]

/-- One entry, read in the three ways. -/
theorem visible_agrees (hfs : fs.Distinct) (id : FrameId) (name : String) :
    (fs.visible id).has name = fs.has id name ∧
      (fs.has id name = true → (fs.visible id).get? name = some (fs.get id name)) := by
  refine ⟨has_visible fs id name, fun h => ?_⟩
  rw [has_eq_isSome_lookup?] at h
  obtain ⟨v, hv⟩ := Option.isSome_iff_exists.1 h
  rw [get?_visible_eq_lookup? hfs, get_eq_lookup?, hv]
  rfl

/-- Where the lookup is the same, so is what is made of it. -/
theorem reads_eq (h : gs.lookup? id name = fs.lookup? id name) :
    gs.has id name = fs.has id name ∧ gs.get id name = fs.get id name := by
  simp only [has_eq_isSome_lookup?, get_eq_lookup?, h, and_self]

/-- Along one chain, with the same under a name in each frame, the lookup is the same. -/
theorem lookup?_congr (hchain : gs.chain id = fs.chain id)
    (h : ∀ f ∈ fs.chain id, (gs.vars f).get? name = (fs.vars f).get? name) :
    gs.lookup? id name = fs.lookup? id name := by
  unfold lookup?
  rw [hchain]
  generalize fs.chain id = frames at h ⊢
  induction frames with
  | nil => rfl
  | cons f rest ih =>
    rw [List.findSome?_cons, List.findSome?_cons, h f List.mem_cons_self,
      ih fun f' hf' => h f' (List.mem_cons_of_mem _ hf')]

/-! ## Numbers fall along a chain -/

/-- A store as it is built: a frame is younger than the frame above it, and no frame
has two variables of one name. -/
structure Formed (fs : Frames) : Prop where
  up_lt : ∀ f up, (fs.frame f).up = some up → up < f
  distinct : fs.Distinct

theorem Formed.le_of_mem_chainWithin (h : fs.Formed) {n : Nat} {f : FrameId}
    (hf : f ∈ fs.chainWithin n id) : f ≤ id := by
  induction n generalizing id with
  | zero => cases hf
  | succ n ih =>
    obtain rfl | hf := List.mem_cons.1 hf
    · exact Nat.le_refl _
    · cases hup : (fs.frame id).up with
      | none => rw [hup] at hf; cases hf
      | some up =>
        rw [hup] at hf
        exact Nat.le_trans (ih hf) (Nat.le_of_lt (h.up_lt id up hup))

theorem Formed.pairwise_chain (h : fs.Formed) (id : FrameId) :
    (fs.chain id).Pairwise fun f g => g < f := by
  unfold chain
  generalize id + 1 = n
  induction n generalizing id with
  | zero => exact .nil
  | succ n ih =>
    unfold chainWithin
    cases hup : (fs.frame id).up with
    | none => exact List.pairwise_singleton _ _
    | some up =>
      refine List.pairwise_cons.2 ⟨fun f hf => ?_, ih up⟩
      exact Nat.lt_of_le_of_lt (h.le_of_mem_chainWithin hf) (h.up_lt id up hup)

/-! ## Where an assignment goes -/

/-- The frame that an assignment to a name goes to, with the frames of the chain on its
two sides: the innermost frame that has the name, or where none has it the first. -/
structure Home (fs : Frames) (id : FrameId) (name : String) (inner : List FrameId)
    (home : FrameId) (outer : List FrameId) : Prop where
  chain : fs.chain id = inner ++ home :: outer
  inner : ∀ f ∈ inner, (fs.vars f).has name = false
  home : (fs.vars home).has name = true ∨ fs.has id name = false ∧ home = id

theorem exists_home (fs : Frames) (id : FrameId) (name : String) :
    ∃ inner outer, fs.Home id name inner ((fs.owner? id name).getD id) outer := by
  cases howner : fs.owner? id name with
  | none =>
    refine ⟨[], _, rfl, nofun, .inr ⟨?_, rfl⟩⟩
    rw [has, howner]
    rfl
  | some home =>
    obtain ⟨hhome, inner, outer, hchain, hinner⟩ := List.find?_eq_some_iff_append.1 howner
    exact ⟨inner, outer, hchain, fun f hf => by simpa using hinner f hf, .inl hhome⟩

namespace Home

variable {inner outer : List FrameId}

/-- The frame is not among those further in. -/
theorem ne_of_mem_inner (hfs : fs.Formed) (h : fs.Home id name inner home outer) :
    ∀ f ∈ inner, f ≠ home := by
  intro f hf
  have hpair := hfs.pairwise_chain id
  rw [h.chain] at hpair
  exact Nat.ne_of_gt ((List.pairwise_append.1 hpair).2.2 f hf home List.mem_cons_self)

/-- The frame is not reached from those further out. -/
theorem not_mem_chain_of_outer (hfs : fs.Formed) (h : fs.Home id name inner home outer) :
    ∀ f ∈ outer, home ∉ fs.chain f := by
  intro f hf hmem
  have hpair := hfs.pairwise_chain id
  rw [h.chain] at hpair
  have hlt : f < home := (List.pairwise_cons.1 (List.pairwise_append.1 hpair).2.1).1 f hf
  exact absurd (hfs.le_of_mem_chainWithin hmem) (Nat.not_le.2 hlt)

end Home

/-! ## One variable of one frame is written -/

/-- A store is like another one but for one frame, where a name was given a value. -/
structure Wrote (fs gs : Frames) (home : FrameId) (name : String) (v : Value) : Prop where
  size : gs.all.size = fs.all.size
  written : gs.frame home = { fs.frame home with vars := (fs.vars home).insert name v }
  others : ∀ f, f ≠ home → gs.frame f = fs.frame f

theorem wrote_set (hhome : home < fs.all.size) (name : String) (v : Value) :
    fs.Wrote (fs.set home name v) home name v where
  size := by simp [set, setVars]
  written := by rw [set, frame_setVars, if_pos ⟨rfl, hhome⟩]
  others f hf := by rw [set, frame_setVars, if_neg fun h => hf h.1]

namespace Wrote

variable {inner outer : List FrameId}

theorem get?_vars (h : fs.Wrote gs home name v) (f : FrameId) (other : String) :
    (gs.vars f).get? other =
      if f = home ∧ other = name then some v else (fs.vars f).get? other := by
  by_cases hf : f = home
  · subst hf
    rw [vars, h.written]
    simp
  · rw [vars, h.others f hf, if_neg fun h => hf h.1, vars]

theorem up (h : fs.Wrote gs home name v) (f : FrameId) : (gs.frame f).up = (fs.frame f).up := by
  by_cases hf : f = home
  · rw [hf, h.written]
  · rw [h.others f hf]

theorem chain (h : fs.Wrote gs home name v) (id : FrameId) : gs.chain id = fs.chain id := by
  unfold Frames.chain
  generalize id + 1 = n
  induction n generalizing id with
  | zero => rfl
  | succ n ih =>
    unfold chainWithin
    rw [h.up]
    cases (fs.frame id).up with
    | none => rfl
    | some up => exact congrArg (id :: ·) (ih up)

theorem lookup?_of_ne (h : fs.Wrote gs home name v) (hne : other ≠ name) (id : FrameId) :
    gs.lookup? id other = fs.lookup? id other :=
  lookup?_congr (h.chain id) fun f _ => by rw [h.get?_vars, if_neg fun h => hne h.2]

theorem lookup?_of_not_mem (h : fs.Wrote gs home name v) (hid : home ∉ fs.chain id) :
    gs.lookup? id name = fs.lookup? id name :=
  lookup?_congr (h.chain id) fun f hf => by
    have hne : ¬(f = home ∧ name = name) := fun heq => hid (heq.1 ▸ hf)
    rw [h.get?_vars, if_neg hne]

/-- Where no frame further in has the name, what was written is found. -/
theorem lookup?_home (hfs : fs.Formed) (h : fs.Wrote gs home name v)
    (hhome : fs.Home id name inner home outer) : gs.lookup? id name = some v := by
  unfold lookup?
  rw [h.chain, List.findSome?_eq_some_iff]
  refine ⟨inner, home, outer, hhome.chain, ?_, fun f hf => ?_⟩
  · rw [h.get?_vars, if_pos ⟨rfl, rfl⟩]
  · rw [h.get?_vars, if_neg fun heq => hhome.ne_of_mem_inner hfs f hf heq.1]
    simpa [Names.has] using hhome.inner f hf

end Wrote

/-! ## How a store is built -/

theorem formed_first : first.Formed where
  up_lt f up h := by
    cases f with
    | zero => cases h
    | succ f => cases h
  distinct f := by
    cases f with
    | zero => exact List.nodup_nil
    | succ f => exact List.nodup_nil

theorem Formed.child (h : fs.Formed) (hid : id < fs.all.size) (root : Bool) :
    (fs.child id root).2.Formed where
  up_lt f up hup := by
    rw [frame_child] at hup
    split at hup
    · next hf =>
      cases hup
      exact hf ▸ hid
    · exact h.up_lt f up hup
  distinct f := by
    unfold vars
    rw [frame_child]
    split
    · exact List.nodup_nil
    · exact h.distinct f

theorem Formed.setVars (h : fs.Formed) (id : FrameId) {vars : Names Value}
    (hvars : vars.names.Nodup) : (fs.setVars id vars).Formed where
  up_lt f up hup := by
    rw [frame_setVars] at hup
    split at hup <;> exact h.up_lt f up hup
  distinct f := by
    unfold Frames.vars
    rw [frame_setVars]
    split
    · exact hvars
    · exact h.distinct f

theorem Formed.assign (h : fs.Formed) (id : FrameId) (name : String) (v : Value) :
    (fs.assign id name v).Formed :=
  h.setVars _ (Names.nodup_insert (h.distinct _) name v)

theorem Formed.home_lt (h : fs.Formed) {inner outer : List FrameId}
    (hid : id < fs.all.size) (hhome : fs.Home id name inner home outer) : home < fs.all.size := by
  have hmem : home ∈ fs.chain id := by
    rw [hhome.chain]
    exact List.mem_append_right _ List.mem_cons_self
  exact Nat.lt_of_le_of_lt (h.le_of_mem_chainWithin hmem) hid

/-- **The laws of a chain of frames.** The list of all visible names has exactly the names
that a lookup finds, with the values that it finds. An assignment from a frame writes one
variable of one frame, the innermost that has the name or else the frame itself; from
where it was made the new value is found, other names are found as before from every
frame, and so is the name itself from the frames further out. -/
theorem chain_laws (fs : Frames) (hfs : fs.Formed) :
    (∀ id name, (fs.visible id).has name = fs.has id name ∧
      (fs.has id name = true → (fs.visible id).get? name = some (fs.get id name))) ∧
    ∀ id name v, id < fs.all.size → ∃ inner home outer,
      fs.Home id name inner home outer ∧
      fs.Wrote (fs.assign id name v) home name v ∧ (fs.assign id name v).Formed ∧
      ((fs.assign id name v).has id name = true ∧ (fs.assign id name v).get id name = v) ∧
      (∀ f other, other ≠ name → (fs.assign id name v).has f other = fs.has f other ∧
        (fs.assign id name v).get f other = fs.get f other) ∧
      ∀ f ∈ outer, (fs.assign id name v).has f name = fs.has f name ∧
        (fs.assign id name v).get f name = fs.get f name := by
  refine ⟨visible_agrees hfs.distinct, fun id name v hid => ?_⟩
  obtain ⟨inner, outer, hhome⟩ := exists_home fs id name
  have hwrote := wrote_set (hfs.home_lt hid hhome) name v
  have hfound := hwrote.lookup?_home hfs hhome
  refine ⟨inner, _, outer, hhome, hwrote, hfs.assign id name v, ⟨?_, ?_⟩, fun f other hne => ?_,
    fun f hf => ?_⟩
  · rw [has_eq_isSome_lookup?, assign, hfound]
    rfl
  · rw [get_eq_lookup?, assign, hfound]
    rfl
  · exact reads_eq (hwrote.lookup?_of_ne hne f)
  · exact reads_eq (hwrote.lookup?_of_not_mem (hhome.not_mem_chain_of_outer hfs f hf))

/-- A variable of the middle one of three frames that hides one of the outermost, assigned
to from the innermost. -/
theorem chain_laws_hidden :
    let fs : Frames := ⟨#[{ vars := ⟨[("x", .bool true), ("y", .bool false)]⟩, root := true },
      { vars := ⟨[("x", .string "old")]⟩, up := some 0 }, { up := some 1 }]⟩
    let gs := fs.assign 2 "x" (.string "new")
    fs.Formed ∧ 2 < fs.all.size ∧ (fs.visible 2).get? "x" = some (fs.get 2 "x") ∧
      fs.get 2 "x" = .string "old" ∧ gs.get 2 "x" = .string "new" ∧ gs.get 2 "y" = fs.get 2 "y" ∧
      (∃ inner home outer, fs.Home 2 "x" inner home outer ∧ fs.Wrote gs home "x" (.string "new")) ∧
      gs.vars 0 = fs.vars 0 ∧ gs.vars 1 = ⟨[("x", .string "new")]⟩ ∧ gs.vars 2 = {} := by
  intro fs gs
  have hfs : fs.Formed := by
    refine ⟨fun f up h => ?_, fun f => ?_⟩
    · match f with
      | 0 => cases h
      | 1 | 2 =>
        cases h
        decide
      | f + 3 => cases h
    · match f with
      | 0 => decide
      | 1 => decide
      | 2 => exact List.nodup_nil
      | f + 3 => exact List.nodup_nil
  have hsize : 2 < fs.all.size := by decide
  obtain ⟨hvisible, hassign⟩ := chain_laws fs hfs
  obtain ⟨inner, home, outer, hhome, hwrote, -, hnew, hothers, -⟩ :=
    hassign 2 "x" (.string "new") hsize
  exact ⟨hfs, hsize, (hvisible 2 "x").2 rfl, rfl, hnew.2, (hothers 2 "y" (by decide)).2,
    ⟨inner, home, outer, hhome, hwrote⟩, rfl, rfl, rfl⟩

end Frames

end CommandScript
