import CommandScript.Host.Recorder
import CommandScript.Vm
/-!
# CommandScript — which shape stands under a name

A host attaches shapes to names and takes them off by the handles that it was given,
in any order and as often as it likes. A handle knows the object that was attached
and not the attachment, so it takes off whatever attachment of that object stands
under its name.

So behind a history of attachments and removals the latest attachment to a name is
there, unless since then the handle of *some* attachment of the same object to this
name was used (`shapes_of_history`). Where no object is attached to one name twice,
this can only be the handle of the latest attachment itself, and older handles do no
harm. Where one is, an older handle takes the latest attachment off, although the
handle of that one was never used (`shapes_of_history_again`).
-/

namespace CommandScript

namespace Names

variable {α : Type}

theorem get?_erase (t : Names α) (name other : String) :
    (t.erase name).get? other = if other = name then none else t.get? other := by
  unfold get? erase
  rw [List.find?_filter]
  by_cases h : other = name
  · subst h
    rw [if_pos rfl, Option.map_eq_none_iff, List.find?_eq_none]
    simp
  · rw [if_neg h]
    congr 2
    funext e
    by_cases he : e.1 = other
    · simp [he, h]
    · simp [he]

end Names

/-- What a host does with shapes. The handle that is used is that of an attachment,
which is known by its place in the history. -/
inductive ShapeChange where
  | attach (name : String) (isVar : Bool) (s : SharedShape)
  | remove (place : Nat)

namespace ShapeChange

/-- The handle that an attachment gives. -/
def handle? : ShapeChange → Option Handle
  | attach name isVar s => some ⟨name, isVar, s.identity⟩
  | remove _ => none

/-- The handle that was given at a place of a history. -/
def handleAt (past : List ShapeChange) (place : Nat) : Option Handle :=
  past[place]?.bind handle?

/-- The latest attachment to a name. -/
structure Latest (past : List ShapeChange) (name : String) (isVar : Bool) (place : Nat)
    (s : SharedShape) : Prop where
  here : past[place]? = some (attach name isVar s)
  last : ∀ later, place < later → ∀ t, past[later]? ≠ some (attach name isVar t)

/-- Since a place of a history a handle was used that is the same as one given. -/
def Used (past : List ShapeChange) (place : Nat) (handle : Handle) : Prop :=
  ∃ later, place < later ∧ ∃ earlier, earlier < later ∧
    past[later]? = some (remove earlier) ∧ handleAt past earlier = some handle

/-- The handle of the attachment at a place was used. -/
def Removed (past : List ShapeChange) (place : Nat) : Prop :=
  ∃ later : Nat, past[later]? = some (remove place)

/-- An attachment is the latest to its name, and since then no handle of its object was
used there. -/
structure Stands (past : List ShapeChange) (name : String) (isVar : Bool) (place : Nat)
    (s : SharedShape) : Prop where
  latest : Latest past name isVar place s
  unused : ¬ Used past place ⟨name, isVar, s.identity⟩

/-- No object is attached to one name twice. -/
def EachOnce (past : List ShapeChange) : Prop :=
  ∀ i j handle, handleAt past i = some handle → handleAt past j = some handle → i = j

variable {past : List ShapeChange} {c : ShapeChange} {name : String} {isVar : Bool}
variable {s : SharedShape} {handle : Handle} {place later : Nat}

/-! ## A history that goes on -/

theorem getElem?_concat (past : List ShapeChange) (c : ShapeChange) (place : Nat) :
    (past ++ [c])[place]? = if place = past.length then some c else past[place]? := by
  rw [List.getElem?_append]
  split
  · next h => rw [if_neg (Nat.ne_of_lt h)]
  · next h =>
    rw [List.getElem?_eq_none (Nat.not_lt.1 h)]
    by_cases hplace : place = past.length
    · simp [hplace]
    · rw [if_neg hplace]
      exact List.getElem?_eq_none (by simp; omega)

theorem lt_length_of_getElem? (h : past[place]? = some c) : place < past.length :=
  (List.getElem?_eq_some_iff.1 h).1

theorem handleAt_concat (h : place < past.length) :
    handleAt (past ++ [c]) place = handleAt past place := by
  unfold handleAt
  rw [getElem?_concat, if_neg (Nat.ne_of_lt h)]

/-- A new attachment is the latest to its name, and leaves other names alone. -/
theorem latest_concat : Latest (past ++ [c]) name isVar place s ↔
    c = attach name isVar s ∧ place = past.length ∨
      (∀ t, c ≠ attach name isVar t) ∧ Latest past name isVar place s := by
  constructor
  · rintro ⟨here, last⟩
    rw [getElem?_concat] at here
    split at here
    · next hplace => exact .inl ⟨Option.some.inj here, hplace⟩
    · have hlt := lt_length_of_getElem? here
      refine .inr ⟨fun t hc => last past.length hlt t ?_, here, fun later hlater t h => ?_⟩
      · rw [getElem?_concat, if_pos rfl, hc]
      · refine last later hlater t ?_
        rw [getElem?_concat, if_neg (Nat.ne_of_lt (lt_length_of_getElem? h)), h]
  · rintro (⟨rfl, rfl⟩ | ⟨hc, here, last⟩)
    · refine ⟨by rw [getElem?_concat, if_pos rfl], fun later hlater t h => ?_⟩
      have hlt := lt_length_of_getElem? h
      simp only [List.length_append, List.length_singleton] at hlt
      omega
    · refine ⟨?_, fun later hlater t h => ?_⟩
      · rw [getElem?_concat, if_neg (Nat.ne_of_lt (lt_length_of_getElem? here)), here]
      · rw [getElem?_concat] at h
        split at h
        · exact hc t (Option.some.inj h)
        · exact last later hlater t h

theorem Latest.lt_length (h : Latest past name isVar place s) : place < past.length :=
  lt_length_of_getElem? h.here

theorem Latest.unique {place' : Nat} {t : SharedShape} (h : Latest past name isVar place s)
    (h' : Latest past name isVar place' t) : place = place' := by
  obtain hlt | heq | hlt := Nat.lt_trichotomy place place'
  · exact absurd h'.here (h.last place' hlt t)
  · exact heq
  · exact absurd h.here (h'.last place hlt s)

/-- The handle of an attachment. -/
theorem handleAt_attach (h : past[place]? = some (attach name isVar s)) :
    handleAt past place = some ⟨name, isVar, s.identity⟩ := by
  rw [handleAt, h]
  rfl

theorem used_concat (hplace : place < past.length) : Used (past ++ [c]) place handle ↔
    Used past place handle ∨
      ∃ earlier, earlier < past.length ∧ c = remove earlier ∧
        handleAt past earlier = some handle := by
  constructor
  · rintro ⟨later, hlater, earlier, hearlier, hremove, hgiven⟩
    rw [getElem?_concat] at hremove
    split at hremove
    · next hlast =>
      rw [hlast] at hearlier
      exact .inr ⟨earlier, hearlier, Option.some.inj hremove, handleAt_concat hearlier ▸ hgiven⟩
    · have hlt := Nat.lt_trans hearlier (lt_length_of_getElem? hremove)
      exact .inl ⟨later, hlater, earlier, hearlier, hremove, handleAt_concat hlt ▸ hgiven⟩
  · rintro (⟨later, hlater, earlier, hearlier, hremove, hgiven⟩ | ⟨earlier, hearlier, rfl, hgiven⟩)
    · have hlast := lt_length_of_getElem? hremove
      refine ⟨later, hlater, earlier, hearlier, ?_, ?_⟩
      · rw [getElem?_concat, if_neg (Nat.ne_of_lt hlast), hremove]
      · rw [handleAt_concat (Nat.lt_trans hearlier hlast), hgiven]
    · refine ⟨past.length, hplace, earlier, hearlier, ?_, ?_⟩
      · rw [getElem?_concat, if_pos rfl]
      · rw [handleAt_concat hearlier, hgiven]

/-- Whatever else happens, an attachment stands until a handle of its object is used. -/
theorem stands_concat (hother : ∀ t, c ≠ attach name isVar t) :
    Stands (past ++ [c]) name isVar place s ↔ Stands past name isVar place s ∧
      ∀ earlier, earlier < past.length → c = remove earlier →
        handleAt past earlier ≠ some ⟨name, isVar, s.identity⟩ := by
  constructor
  · rintro ⟨hlatest, hunused⟩
    obtain ⟨hc, -⟩ | ⟨-, hlatest⟩ := latest_concat.1 hlatest
    · exact absurd hc (hother s)
    · rw [used_concat hlatest.lt_length] at hunused
      exact ⟨⟨hlatest, fun h => hunused (.inl h)⟩,
        fun earlier hlt hc h => hunused (.inr ⟨earlier, hlt, hc, h⟩)⟩
  · rintro ⟨⟨hlatest, hunused⟩, hkept⟩
    refine ⟨latest_concat.2 (.inr ⟨hother, hlatest⟩), fun h => ?_⟩
    obtain h | ⟨earlier, hlt, hc, hgiven⟩ := (used_concat hlatest.lt_length).1 h
    · exact hunused h
    · exact hkept earlier hlt hc hgiven

theorem exists_stands_attach {name' : String} {isVar' : Bool} {t : SharedShape} :
    (∃ place, Stands (past ++ [attach name' isVar' t]) name isVar place s) ↔
      if isVar = isVar' ∧ name = name' then t = s else ∃ place, Stands past name isVar place s := by
  split
  · next hname =>
    obtain ⟨rfl, rfl⟩ := hname
    constructor
    · rintro ⟨place, hlatest, -⟩
      obtain ⟨hc, -⟩ | ⟨hc, -⟩ := latest_concat.1 hlatest
      · cases hc
        rfl
      · exact absurd rfl (hc t)
    · rintro rfl
      refine ⟨past.length, latest_concat.2 (.inl ⟨rfl, rfl⟩), ?_⟩
      rintro ⟨later, hlater, _, _, hremove, _⟩
      have hlt := lt_length_of_getElem? hremove
      simp only [List.length_append, List.length_singleton] at hlt
      omega
  · next hname =>
    have hother : ∀ u, attach name' isVar' t ≠ attach name isVar u := by
      intro u hc
      cases hc
      exact hname ⟨rfl, rfl⟩
    refine exists_congr fun place => (stands_concat hother).trans (and_iff_left ?_)
    nofun

theorem exists_stands_remove (hgiven : handleAt past place = some handle) :
    (∃ place', Stands (past ++ [remove place]) name isVar place' s) ↔
      (∃ place', Stands past name isVar place' s) ∧ handle ≠ ⟨name, isVar, s.identity⟩ := by
  have hlt : place < past.length := by
    obtain ⟨c, hc, -⟩ := Option.bind_eq_some_iff.1 hgiven
    exact lt_length_of_getElem? hc
  have hother : ∀ t, remove place ≠ attach name isVar t := by
    intro t h
    cases h
  rw [← exists_and_right]
  refine exists_congr fun place' => (stands_concat hother).trans (and_congr_right fun _ => ?_)
  constructor
  · rintro h rfl
    exact h place hlt rfl hgiven
  · rintro hne _ _ ⟨⟩ h
    exact hne (Option.some.inj (hgiven.symm.trans h))

end ShapeChange

namespace Vm

open ShapeChange

variable {σ : Type} {vm vm' vm₀ : Vm σ} {past : List ShapeChange}
variable {name : String} {isVar : Bool} {s t : SharedShape} {handle : Handle} {place : Nat}

theorem shapes_withShapes (vm : Vm σ) (isVar v : Bool) (shapes : Names SharedShape) :
    (vm.withShapes isVar shapes).shapes v = if v = isVar then shapes else vm.shapes v := by
  cases isVar <;> cases v <;> rfl

/-- What an attachment does: its shape stands under its name, and no other name changes. -/
theorem attach_eq_ok (h : vm.attach name s isVar = .ok (handle, vm')) :
    handle = ⟨name, isVar, s.identity⟩ ∧ ∀ v other, (vm'.shapes v).get? other =
      if v = isVar ∧ other = name then some s else (vm.shapes v).get? other := by
  unfold attach at h
  cases hname : checkName name with
  | error f => rw [hname] at h; cases h
  | ok =>
    rw [hname] at h
    simp only [bind, Except.bind] at h
    split at h
    · cases h
      refine ⟨rfl, fun v other => ?_⟩
      rw [shapes_withShapes]
      by_cases hv : v = isVar
      · subst hv
        simp
      · simp [hv]
    · split at h <;> cases h

/-- What a handle does: it empties its name if the object that it knows stands there. -/
theorem shapes_detach (vm : Vm σ) (handle : Handle) (v : Bool) (other : String) :
    ((vm.detach handle).shapes v).get? other =
      if v = handle.isVar ∧ other = handle.name ∧
          ((vm.shapes v).get? other).map (·.identity) = some handle.identity then none
      else (vm.shapes v).get? other := by
  unfold detach
  by_cases hplace : v = handle.isVar ∧ other = handle.name
  · obtain ⟨rfl, rfl⟩ := hplace
    cases hs : (vm.shapes handle.isVar).get? handle.name with
    | none => simp [hs]
    | some s =>
      by_cases hid : s.identity = handle.identity
      · simp [hid, shapes_withShapes, Names.get?_erase]
      · simp [hid, hs]
  · rw [if_neg fun h => hplace ⟨h.1, h.2.1⟩]
    split
    · split
      · rw [shapes_withShapes]
        split
        · next hv => rw [Names.get?_erase, if_neg fun hn => hplace ⟨hv, hn⟩, hv]
        · rfl
      · rfl
    · rfl

/-- A handle whose object does not stand under its name does nothing. -/
theorem detach_eq_self
    (h : ∀ s, (vm.shapes handle.isVar).get? handle.name = some s → s.identity ≠ handle.identity) :
    vm.detach handle = vm := by
  unfold detach
  cases hs : (vm.shapes handle.isVar).get? handle.name with
  | none => rfl
  | some s => exact if_neg (h s hs)

/-- A machine behind a history of attachments and removals. -/
inductive After (vm₀ : Vm σ) : List ShapeChange → Vm σ → Prop
  | start : After vm₀ [] vm₀
  | attach {past : List ShapeChange} {vm vm' : Vm σ} {name : String} {isVar : Bool}
      {s : SharedShape} {handle : Handle} :
      After vm₀ past vm → vm.attach name s isVar = .ok (handle, vm') →
      After vm₀ (past ++ [.attach name isVar s]) vm'
  | remove {past : List ShapeChange} {vm : Vm σ} {place : Nat} {handle : Handle} :
      After vm₀ past vm → handleAt past place = some handle →
      After vm₀ (past ++ [.remove place]) (vm.detach handle)

namespace After

/-- A handle is used behind the place where it was given. -/
theorem lt_of_remove (h : After vm₀ past vm) {later : Nat}
    (hremove : past[later]? = some (ShapeChange.remove place)) : place < later := by
  induction h with
  | start => cases hremove
  | attach _ _ ih =>
    rw [getElem?_concat] at hremove
    split at hremove
    · cases hremove
    · exact ih hremove
  | @remove past vm place' handle _ hgiven ih =>
    rw [getElem?_concat] at hremove
    split at hremove
    · next hlater =>
      cases hremove
      obtain ⟨c, hc, -⟩ := Option.bind_eq_some_iff.1 hgiven
      exact hlater ▸ lt_length_of_getElem? hc
    · exact ih hremove

/-- What stands under a name is the latest attachment to it, as long as since then no
handle of its object was used. -/
theorem get?_shapes (hstart : ∀ v other, (vm₀.shapes v).get? other = none)
    (h : After vm₀ past vm) (name : String) (isVar : Bool) (s : SharedShape) :
    (vm.shapes isVar).get? name = some s ↔ ∃ place, Stands past name isVar place s := by
  induction h with
  | start =>
    rw [hstart]
    exact ⟨nofun, fun ⟨_, hstands⟩ => nomatch hstands.latest.here⟩
  | attach _ hattach ih =>
    rw [(attach_eq_ok hattach).2, exists_stands_attach, ← ih]
    split
    · exact Option.some_inj
    · rfl
  | @remove _ _ _ handle _ hgiven ih =>
    rw [shapes_detach, exists_stands_remove hgiven, ← ih]
    constructor
    · intro hs
      split at hs
      · cases hs
      · next hkept =>
        refine ⟨hs, fun heq => hkept ?_⟩
        simp [heq, hs]
    · rintro ⟨hs, hne⟩
      rw [if_neg, hs]
      rintro ⟨rfl, rfl, hid⟩
      rw [hs, Option.map_some, Option.some_inj] at hid
      exact hne (hid ▸ rfl)

/-- Where no object is attached to one name twice, a handle is used that is like that of
an attachment exactly if the handle of this attachment is used. -/
theorem used_iff (h : After vm₀ past vm) (honce : EachOnce past)
    (hplace : past[place]? = some (.attach name isVar s)) :
    Used past place ⟨name, isVar, s.identity⟩ ↔ Removed past place := by
  have hgiven := handleAt_attach hplace
  constructor
  · rintro ⟨later, -, earlier, -, hremove, hearlier⟩
    exact ⟨later, honce earlier place _ hearlier hgiven ▸ hremove⟩
  · rintro ⟨later, hremove⟩
    have hlt := h.lt_of_remove hremove
    exact ⟨later, hlt, place, hlt, hremove, hgiven⟩

end After

/-- **What stands under a name behind a history.** From a machine without shapes, after
any attachments and removals, it is the latest attachment to the name, unless since then
a handle of the same object to this name was used; otherwise there is nothing. So where no
object is attached to one name twice, the latest attachment is there unless its own
handle was used, and the handle of an earlier one does nothing. -/
theorem shapes_of_history (hstart : ∀ v other, (vm₀.shapes v).get? other = none)
    (h : After vm₀ past vm) :
    (∀ name isVar s,
      (vm.shapes isVar).get? name = some s ↔ ∃ place, Stands past name isVar place s) ∧
    (EachOnce past → ∀ name isVar s,
      ((vm.shapes isVar).get? name = some s ↔
        ∃ place, Latest past name isVar place s ∧ ¬ Removed past place) ∧
      ∀ place earlier t, Latest past name isVar place s →
        past[earlier]? = some (.attach name isVar t) → earlier ≠ place →
        vm.detach ⟨name, isVar, t.identity⟩ = vm) := by
  have hstands := h.get?_shapes hstart
  refine ⟨hstands, fun honce name isVar s => ⟨?_, ?_⟩⟩
  · rw [hstands]
    refine exists_congr fun place => ⟨fun ⟨hlatest, hunused⟩ => ⟨hlatest, ?_⟩,
      fun ⟨hlatest, hkept⟩ => ⟨hlatest, ?_⟩⟩
    · rwa [← h.used_iff honce hlatest.here]
    · rwa [h.used_iff honce hlatest.here]
  · intro place earlier t hlatest hearlier hne
    refine detach_eq_self fun u hu hid => hne ?_
    obtain ⟨place', hlatest', -⟩ := (hstands name isVar u).1 hu
    have hgiven := handleAt_attach hlatest'.here
    rw [hid] at hgiven
    rw [hlatest.unique hlatest']
    exact honce earlier place' _ (handleAt_attach hearlier) hgiven

/-- One object is attached to a name twice, and the first handle is used. The second
attachment is the latest and its handle was not used, but nothing stands under the name. -/
theorem shapes_of_history_again :
    let vm₀ : Vm Recorder := { state := Recorder.ready }
    let s : SharedShape := ⟨.command (.mk "mode" none []), 0⟩
    let past := [ShapeChange.attach "mode" false s, .attach "mode" false s, .remove 0]
    ∃ vm, After vm₀ past vm ∧ Latest past "mode" false 1 s ∧ ¬ Removed past 1 ∧
      (vm.shapes false).get? "mode" = none := by
  intro vm₀ s past
  have hattach : ∀ vm : Vm Recorder, ∃ vm',
      vm.attach "mode" s false = .ok (⟨"mode", false, 0⟩, vm') := fun _ => ⟨_, rfl⟩
  obtain ⟨vm₁, h₁⟩ := hattach vm₀
  obtain ⟨vm₂, h₂⟩ := hattach vm₁
  have hafter : After vm₀ past (vm₂.detach ⟨"mode", false, 0⟩) :=
    .remove (.attach (.attach .start h₁) h₂) rfl
  have hstart : ∀ v other, (vm₀.shapes v).get? other = none := by
    intro v other
    cases v <;> rfl
  have hlatest : Latest past "mode" false 1 s := by
    refine ⟨rfl, fun later hlater t h => ?_⟩
    match later, hlater with
    | 2, _ => cases h
    | later + 3, _ => cases h
  refine ⟨_, hafter, hlatest, fun ⟨later, h⟩ => ?_, ?_⟩
  · match later with
    | 0 | 1 | 2 | later + 3 => cases h
  · refine Option.eq_none_iff_forall_ne_some.2 fun t ht => ?_
    obtain ⟨place, hplace, hunused⟩ := ((shapes_of_history hstart hafter).1 "mode" false t).1 ht
    obtain rfl := hlatest.unique hplace
    cases hplace.here
    exact hunused ⟨2, by decide, 0, by decide, rfl, rfl⟩

end Vm

end CommandScript
