import CommandScript.Proofs.AtCaret
import CommandScript.Proofs.Onward
import CommandScript.Proofs.Rows
import CommandScript.Proofs.Unknown
import Mathlib.Data.List.Infix
/-!
# CommandScript — the walk reports no other commands

What the walk reports as an unknown command is called in the text, in the place that it
says, and its name is not in sight there. This is the converse of `surveys_block`, and it
holds however the walk ends: what was reported before a crash counts as well.

Each visit is looked at once, and the walk is its visits one after the other.
-/

namespace CommandScript

variable {σ : Type}

/-- The code tells an unknown command from all other kinds of issue. -/
theorem Issue.Kind.code_ne {k : Issue.Kind} (h : k ≠ .unknownCommand) :
    k.code ≠ Issue.Kind.unknownCommand.code := by
  cases k with
  | unknownCommand => exact absurd rfl h
  | _ => decide

/-- The issue is about something that is called by its name where the name is not in
sight. -/
def Unseen (calls : List (Var × Sight)) (i : Issue) : Prop :=
  ∃ c ∈ calls, ∃ name, c.1.bareName? = some name ∧ c.2 name = false ∧ i.span = c.1.span

theorem Unseen.mono {calls calls' : List (Var × Sight)} {i : Issue} (h : Unseen calls i)
    (hsub : calls ⊆ calls') : Unseen calls' i :=
  let ⟨c, hc, hunseen⟩ := h
  ⟨c, hsub hc, hunseen⟩

namespace Findings

/-- What is in sight in each frame, and at last without any. -/
def sights (ctx : AssistContext) (f : Findings) : List Sight :=
  f.frames.tails.map fun frames name => ctx.globals.has name || frames.any (·.has name)

/-- The frames are the same, and no command is said to be unknown that was not. -/
structure Silent (f f' : Findings) : Prop where
  frames : f'.frames = f.frames
  issues : ∀ i ∈ f'.issues, i.code = Issue.Kind.unknownCommand.code → i ∈ f.issues

instance : Std.Refl Silent := ⟨fun _ => ⟨rfl, fun _ hi _ => hi⟩⟩

instance : Trans Silent Silent Silent where
  trans h h' := ⟨h'.frames.trans h.frames,
    fun i hi hcode => h.issues i (h'.issues i hi hcode) hcode⟩

instance : Takes (fun _ => True) Silent := ⟨fun _ => ⟨rfl, fun _ hi _ => hi⟩⟩

instance : Reviews Silent where
  heap _ _ := ⟨rfl, fun _ hi _ => hi⟩
  note hk := by
    refine ⟨fun f span message => ⟨rfl, fun i hi hcode => (List.mem_cons.1 hi).resolve_left ?_⟩⟩
    rintro rfl
    exact Issue.Kind.code_ne hk hcode

variable {ctx : AssistContext} {f f' : Findings}

theorem Silent.sights (h : f.Silent f') : f'.sights ctx = f.sights ctx := by
  unfold Findings.sights
  rw [h.frames]

/-- What is in sight can be told from the names in each frame. -/
theorem sights_congr (h : f'.scopes = f.scopes) : f'.sights ctx = f.sights ctx := by
  have hscopes : ∀ f : Findings, f.sights ctx =
      f.scopes.tails.map fun scopes name => ctx.globals.has name || scopes.any (· name) := by
    intro f
    unfold Findings.sights scopes
    rw [List.map_tails, List.map_map]
    refine List.map_congr_left fun frames _ => ?_
    funext name
    simp [Function.comp_def]
  rw [hscopes, hscopes, h]

/-- Without the innermost frame, what is in sight there is gone. -/
theorem sights_of_ne_nil (hf : f.frames ≠ []) :
    f.sights ctx = f.sight ctx :: sights ctx { f with frames := f.frames.tail } := by
  obtain ⟨vars, rest, hframes⟩ := List.exists_cons_of_ne_nil hf
  simp only [sights, hframes, List.tails_cons, List.map_cons, List.tail_cons]
  unfold sight
  rw [hframes]

theorem exists_sights (ctx : AssistContext) (f : Findings) :
    ∃ outer, f.sights ctx = f.sight ctx :: outer := by
  by_cases hf : f.frames = []
  · refine ⟨[], ?_⟩
    unfold sights sight
    rw [hf]
    rfl
  · exact ⟨_, sights_of_ne_nil hf⟩

/-- In a frame that is put up, its variables are in sight with what was before. -/
theorem sights_enter (names : List String) (f : Findings) :
    sights ctx { f with frames := names.foldl (fun t n => t.insert n none) {} :: f.frames } =
      (Visit.enter names).pass (f.sights ctx) := by
  obtain ⟨outer, hsights⟩ := exists_sights ctx f
  rw [sights_of_ne_nil (List.cons_ne_nil _ _), List.tail_cons]
  change _ :: f.sights ctx = _
  rw [hsights, Visit.pass]
  refine congrArg (· :: _) ?_
  funext name
  have hempty : ({} : Names Known).has name = false := rfl
  unfold sight Sight.with
  rw [List.any_cons, Names.has_foldl_insert (fun n => n) (fun _ => none), List.map_id',
    List.contains_eq_mem, hempty, Bool.or_false]
  exact Bool.or_left_comm _ _ _

theorem sights_leave (f : Findings) :
    sights ctx { f with frames := f.frames.tail } = Visit.leave.pass (f.sights ctx) := by
  by_cases hf : f.frames = []
  · simp only [sights, hf]
    rfl
  · obtain ⟨outer, hsights⟩ := exists_sights ctx { f with frames := f.frames.tail }
    rw [sights_of_ne_nil hf, hsights, Visit.pass]

/-- A name that is defined comes into the innermost frame, unless it is in sight already. -/
theorem sights_defineIn {r : VarRoot} (v : Known) (e : Option Expression) {t : Token}
    (ht : Walk.assignedToken? r = some t) (f : Findings) :
    sights ctx { f with frames := Walk.defineIn t.text v f.frames } =
      (Visit.define r e).pass (f.sights ctx) := by
  have hdefined : r.defined = [t.text] := by
    cases r with
    | bare => cases ht; rfl
    | named dollar name span =>
      obtain rfl : name = some t := ht
      rfl
    | computed => cases ht
  by_cases hf : f.frames = []
  · have hdefine : Walk.defineIn t.text v f.frames = [] := by
      rw [hf]
      rfl
    simp only [sights, hdefine]
    rw [hf]
    rfl
  · obtain ⟨hleads, hsight⟩ := Walk.leads_defineIn ctx t.text v hf
    obtain ⟨outer, hsights⟩ := exists_sights ctx { f with frames := f.frames.tail }
    have houter : sights ctx { f with frames := (Walk.defineIn t.text v f.frames).tail } =
        sights ctx { f with frames := f.frames.tail } := by
      refine sights_congr ?_
      have htail := hleads.outer
      unfold scopes at htail ⊢
      rw [List.map_tail, List.map_tail, htail]
    rw [sights_of_ne_nil hleads.inner, hsight]
    change _ :: sights ctx { f with frames := (Walk.defineIn t.text v f.frames).tail } = _
    rw [houter, sights_of_ne_nil hf, hsights, Visit.pass, hdefined]

end Findings

namespace Walk

variable {ctx : AssistContext} {vs ws : List Visit} {step next : Walk Unit}

/-- However a step ends, the commands that it newly says to be unknown are called out of
sight in some visits. Where it ends well, it has made these visits. -/
def Sounds (ctx : AssistContext) (vs : List Visit) (step : Walk Unit) : Prop :=
  ∀ f : Findings,
    (∀ i ∈ (step f).2.issues, i.code = Issue.Kind.unknownCommand.code →
      i ∈ f.issues ∨ Unseen (Visits.calls vs (f.sights ctx)) i) ∧
    ((step f).1 = .ok () → (step f).2.sights ctx = Visits.behind vs (f.sights ctx))

/-- A step that says of no command that it is unknown, and leaves frames alone. -/
theorem Within.sounds {E : Crash → Prop} {P : Unit → Prop} (h : Within Findings.Silent E P step)
    {v : Visit} (hpass : ∀ sights, v.pass sights = sights) : Sounds ctx [v] step := by
  intro f
  obtain ⟨hsilent, -⟩ := h f
  refine ⟨fun i hi hcode => .inl (hsilent.issues i hi hcode), fun _ => ?_⟩
  rw [hsilent.sights, Visits.behind_cons, hpass, Visits.behind_nil]

theorem Sounds.bind (h : Sounds ctx vs step) (h' : Sounds ctx ws next) :
    Sounds ctx (vs ++ ws) (step >>= fun _ => next) := by
  intro f
  obtain ⟨hissues, hsights⟩ := h f
  rw [apply_bind, Visits.calls_append, Visits.behind_append]
  rcases hr : step f with ⟨c | ⟨⟩, f'⟩ <;> rw [hr] at hissues hsights
  · refine ⟨fun i hi hcode => ?_, nofun⟩
    exact (hissues i hi hcode).imp_right (·.mono (List.subset_append_left _ _))
  · obtain ⟨hissues', hsights'⟩ := h' f'
    rw [hsights rfl] at hissues' hsights'
    refine ⟨fun i hi hcode => ?_, hsights'⟩
    obtain hi' | hunseen := hissues' i hi hcode
    · exact (hissues i hi' hcode).imp_right (·.mono (List.subset_append_left _ _))
    · exact .inr (hunseen.mono (List.subset_append_right _ _))

/-- A change of the frames. -/
theorem sounds_modify {v : Visit} {change : Findings → Findings}
    (hissues : ∀ f, (change f).issues = f.issues)
    (hsights : ∀ f, (change f).sights ctx = v.pass (f.sights ctx)) :
    Sounds ctx [v] (modify change) :=
  fun f => ⟨fun _ hi _ => .inl (hissues f ▸ hi), fun _ => hsights f⟩

theorem sounds_reviewCallee (v : Var) : Sounds ctx [.callee v] (reviewCallee ctx v) := by
  unfold reviewCallee
  cases hname : v.bareName? with
  | none => exact fun f => ⟨fun _ hi _ => .inl hi, fun _ => rfl⟩
  | some name =>
    intro f
    obtain ⟨outer, hsights⟩ := Findings.exists_sights ctx f
    have hsees : sees name f = (.ok (f.frames.any (·.has name)), f) := rfl
    have hsight : (ctx.globals.has name || f.frames.any (·.has name)) = f.sight ctx name := rfl
    dsimp only
    rw [apply_bind, hsees]
    dsimp only
    rw [hsight]
    cases hin : f.sight ctx name with
    | true => exact ⟨fun _ hi _ => .inl hi, fun _ => rfl⟩
    | false =>
      refine ⟨fun i hi _ => ?_, fun _ => rfl⟩
      obtain rfl | hi := List.mem_cons.1 hi
      · refine .inr ⟨(v, f.sight ctx), ?_, name, hname, hin, rfl⟩
        rw [hsights]
        exact List.mem_cons_self
      · exact .inl hi

theorem sounds_define (r : VarRoot) (e : Option Expression) :
    Sounds ctx [.define r e] (define ctx r e) := by
  unfold define
  cases ht : assignedToken? r with
  | none =>
    have hdefined : r.defined = [] := by
      cases r with
      | bare => cases ht
      | named dollar name span =>
        obtain rfl : name = none := ht
        rfl
      | computed => rfl
    refine fun f => ⟨fun _ hi _ => .inl hi, fun _ => ?_⟩
    change f.sights ctx = (Visit.define r e).pass (f.sights ctx)
    unfold Visit.pass
    split
    · next heq _ => cases heq
    · next heq _ => cases heq
    · next heq hsights =>
      cases heq
      rw [hsights, hdefined, Sight.with_nil]
    · rfl
  | some t =>
    have hknown : Looks ctx Findings.Silent (fun _ => True)
        (known ctx (Static.valueOptional · e)) :=
      looks_known (Static.endlessOnly_valueOptional · e)
    intro f
    dsimp only
    rw [apply_bind]
    obtain ⟨hsilent, -⟩ := hknown f
    rcases hr : known ctx (Static.valueOptional · e) f with ⟨c | v, f'⟩ <;> rw [hr] at hsilent
    · exact ⟨fun i hi hcode => .inl (hsilent.issues i hi hcode), nofun⟩
    · refine ⟨fun i hi hcode => .inl (hsilent.issues i hi hcode), fun _ => ?_⟩
      rw [← hsilent.sights]
      exact Findings.sights_defineIn v e ht f'

/-- **One visit** says of nothing else that it is unknown. -/
theorem sounds_visit (v : Visit) : Sounds ctx [v] (visit ctx v) := by
  have hlook : ∀ {P : Unit → Prop} {step : Walk Unit} {v : Visit},
      Looks ctx Findings.Silent P step → (∀ sights, v.pass sights = sights) →
      Sounds ctx [v] step := fun h hpass => Within.sounds h hpass
  cases v with
  | root kind r => exact hlook (looks_visitRoot kind (welcomes_true _)) fun _ => rfl
  | suffix v n s => exact hlook (looks_visitSuffix v n (welcomes_true _)) fun _ => rfl
  | callee v => exact sounds_reviewCallee v
  | arguments c =>
    exact hlook (looks_visitArguments c fun _ _ _ _ _ => trivial) fun _ => rfl
  | review c => exact hlook (looks_reviewArguments c) fun _ => rfl
  | pending ampersand span =>
    exact hlook (looks_pending ampersand span (Completion.fit_true _)) fun _ => rfl
  | target r =>
    have htarget : Looks ctx Findings.Silent (fun _ => True) (visitTarget ctx r) :=
      looks_visitTarget (welcomes_true _)
    exact hlook (P := fun _ => True) (htarget.bind fun _ _ => .pure trivial) fun _ => rfl
  | define r e => exact sounds_define r e
  | enter names => exact sounds_modify (fun _ => rfl) (Findings.sights_enter names)
  | leave => exact sounds_modify (fun _ => rfl) Findings.sights_leave

/-- **Visits in order** say of nothing else that it is unknown. -/
theorem sounds_visitAll (ctx : AssistContext) (vs : List Visit) :
    Sounds ctx vs (visitAll ctx vs) := by
  induction vs with
  | nil => exact fun f => ⟨fun _ hi _ => .inl hi, fun _ => rfl⟩
  | cons v rest ih => exact (sounds_visit v).bind ih

end Walk

/-! ## The issues of a text -/

/-- What a text calls, with what is in sight there, where it is known what is in sight
around it. -/
def Block.calls (b : Block) (known globals : Sight) : List (Var × Sight) :=
  Visits.calls (Visits.block b) [known, known, globals]

/-- All commands that are said to be unknown are called out of sight. -/
def AllUnseen (calls : List (Var × Sight)) (issues : List Issue) : Prop :=
  ∀ i ∈ issues, i.code = Issue.Kind.unknownCommand.code → Unseen calls i

namespace Assist

variable {ctx : AssistContext} {b : Block} {heap : Heap} {vars : Names Known} {f : Findings}

/-- The walk over a whole text says of nothing else that it is unknown, and that it was
given up is another kind of issue. -/
theorem walked_allUnseen : (walked ctx b).Ends { heap, frames := [vars] }
    (fun _ f' => AllUnseen
      (b.calls (Findings.sight ctx { heap, frames := [vars] }) ctx.globals.has) f'.issues)
    fun _ => True := by
  have hwalk := Walk.sounds_visitAll ctx (.enter [] :: Visits.block b ++ [.leave])
  rw [← Walk.framed_visitAll, ← Walk.block_eq_visitAll] at hwalk
  obtain ⟨hissues, -⟩ := hwalk { heap, frames := [vars] }
  have hsights : Findings.sights ctx { heap, frames := [vars] } =
      [Findings.sight ctx { heap, frames := [vars] }, ctx.globals.has] := by
    rw [Findings.sights_of_ne_nil (List.cons_ne_nil _ _)]
    simp [Findings.sights]
  rw [hsights, Visits.calls_framed, Sight.with_nil] at hissues
  change ∀ i ∈ (Walk.framed {} (Walk.block ctx b) { heap, frames := [vars] }).2.issues, _ at hissues
  unfold Walk.Ends walked
  rcases hr : Walk.framed {} (Walk.block ctx b) { heap, frames := [vars] } with ⟨c | ⟨⟩, f'⟩ <;>
    rw [hr] at hissues
  · cases c with
    | endless =>
      intro i hi hcode
      obtain rfl | hi := List.mem_cons.1 hi
      · exact absurd hcode (Issue.Kind.code_ne (k := .analysisTooDeep) nofun)
      · exact (hissues i hi hcode).resolve_left List.not_mem_nil
    | _ => trivial
  · exact fun i hi hcode => (hissues i hi hcode).resolve_left List.not_mem_nil

/-- At the begin of a statement there is only a look around. -/
theorem atStatementStart_ends_rel {R : Findings → Findings → Prop} [Std.Refl R] [Trans R R R]
    [Findings.Takes (fun _ => True) R] :
    (atStatementStart ctx).Ends f (fun _ f' => R f f') fun _ => True := by
  unfold atStatementStart
  dsimp only
  split
  · have hlook : Walk.Looks ctx R _ (Walk.globalCandidates ctx none) :=
      Walk.looks_globalCandidates none
    exact Walk.ends_bind.2 ((hlook.ends f).mono (fun _ _ h => h.2) fun _ _ => trivial)
  · exact Std.Refl.refl f

theorem allUnseen_of_findings {vm : Vm σ} {parsed : Parsed} {completion : Option Completion}
    {issues : List Issue} (hb : parsed.block = some b)
    (h : findings vm ctx parsed = .ok (completion, issues)) :
    AllUnseen (b.calls (Findings.sight ctx ⟨vm.state.heap, [varsInSight vm], [], none⟩)
      ctx.globals.has) issues := by
  let calls := b.calls (Findings.sight ctx ⟨vm.state.heap, [varsInSight vm], [], none⟩)
    ctx.globals.has
  have hhanded : ∀ {f : Findings}, AllUnseen calls f.issues → AllUnseen calls f.issues.reverse :=
    fun hf i hi => hf i (List.mem_reverse.1 hi)
  unfold findings at h
  rw [hb] at h
  refine Walk.Ends.of_handed (Q := fun _ issues => AllUnseen calls issues) ?_ h
  refine Walk.ends_bind.2 (walked_allUnseen.imp fun _ f' hf' => ?_)
  refine Walk.ends_bind.2 (Walk.ends_get.2 ?_)
  cases f'.completion with
  | some c => exact hhanded hf'
  | none =>
    have hstart : (atStatementStart ctx).Ends f' (fun _ => f'.Silent) fun _ => True :=
      atStatementStart_ends_rel
    refine hstart.imp fun _ f'' hsilent => hhanded fun i hi hcode => ?_
    exact hf' i (hsilent.issues i hi hcode) hcode

end Assist

/-- **Help says of nothing else that it is an unknown command.** What it reports so is called
in the text by a name that is not in sight there. -/
theorem Vm.unseen_of_assist {vm : Vm σ} {text : String} {caret : Int} {options : AssistOptions}
    {a : Assistance} (h : vm.assist text caret options = .ok a) {b : Block}
    (hb : (parse text Limit.nesting).block = some b) {i : Issue} (hi : i ∈ a.issues)
    (hcode : i.code = Issue.Kind.unknownCommand.code) :
    Unseen (b.calls vm.state.sees vm.state.globals.has) i := by
  obtain ⟨completion, issues, hfound, hissues, -, -⟩ := Vm.findings_of_assist h
  have hunseen := Assist.allUnseen_of_findings hb hfound
  rw [Assist.sight_start] at hunseen
  rw [hissues] at hi
  obtain hparsed | hi := List.mem_append.1 (List.mem_mergeSort.1 hi)
  · obtain ⟨k, hk, hcode'⟩ := exists_kind_of_mem_issues hparsed
    have hne : k ≠ .unknownCommand := by
      rintro rfl
      exact hk.elim nofun nofun
    exact absurd (hcode'.symm.trans hcode) (Issue.Kind.code_ne hne)
  · exact hunseen i hi hcode

end CommandScript
