import CommandScript.Proofs.OwnFaults
import CommandScript.Proofs.Survey
import CommandScript.Assist.Assistance
import Mathlib.Algebra.Group.Int.Defs
/-!
# CommandScript — no unknown command is missed

Where a run of a text fails because a command is unknown, the help for this text says
so, in the same place (`mem_issues_of_unknown`). Two things are put together for that:
the run fails for one of the faults of the text, and the walk reports all of those
that are unknown commands.

A lambda from an earlier text brings the faults of that text along, so none may be in
reach when the text is run. And help can be cut short: where a container that contains
itself is compared, or where a value cannot be shown that has not the shape it should
have.
-/

namespace CommandScript

variable {σ : Type}

/-! ## What is in sight at the start -/

namespace Names

theorem has_mapValues {α β : Type} (f : α → β) (t : Names α) (name : String) :
    (t.mapValues f).has name = t.has name := by
  simp [has, mapValues, get?, List.find?_map, Function.comp_def]

end Names

namespace Frames

/-- The names that are listed as visible are those that are visible. -/
theorem has_visible (fs : Frames) (id : FrameId) (name : String) :
    (fs.visible id).has name = fs.has id name := by
  unfold visible has owner?
  induction fs.chain id with
  | nil => rfl
  | cons f rest ih =>
    rw [List.reverse_cons, List.foldl_append, List.foldl_cons, List.foldl_nil, Names.has_update, ih,
      List.find?_cons]
    cases (fs.vars f).has name <;> rfl

end Frames

/-! ## The issues of the walk -/

/-- It is said that the walk was given up. -/
def GivenUp (issues : List Issue) : Prop := ∃ i ∈ issues, i.code = Issue.Kind.analysisTooDeep.code

/-- The unknown commands among some faults are reported, or the walk was given up. -/
def Told (faults : List Fault) (issues : List Issue) : Prop :=
  Reported faults issues ∨ GivenUp issues

theorem Told.later {faults : List Fault} {issues issues' : List Issue} (h : Told faults issues)
    (hi : issues ⊆ issues') : Told faults issues' :=
  h.imp (·.later hi) fun ⟨i, hmem, hcode⟩ => ⟨i, hi hmem, hcode⟩

namespace Assist

variable {ctx : AssistContext} {b : Block} {f : Findings}

/-- The walk over a whole text reports its unknown commands or is given up. It crashes
only where there are shapes. -/
theorem walked_ends (hf : f.frames ≠ []) :
    (walked ctx b).Ends f
      (fun _ f' => Told (Faults.block (f.sight ctx) b) f'.issues) (fun _ => ctx.Shaped) := by
  obtain ⟨names, hblock⟩ : ∃ names, Walk.Surveys ctx (f.sight ctx)
      (Faults.block (f.sight ctx) b) names (Walk.block ctx b) := Walk.surveys_block b _
  have hwalk := hblock.framed_empty f hf rfl
  unfold Walk.Ends at hwalk ⊢
  unfold walked
  rcases hr : Walk.framed {} (Walk.block ctx b) f with ⟨c | ⟨⟩, f'⟩ <;> rw [hr] at hwalk
  · cases c with
    | endless => exact .inr ⟨_, List.mem_cons_self, rfl⟩
    | _ => exact hwalk.resolve_left nofun
  · exact .inl hwalk.2.2

/-- Where there are no shapes, listing the globals cannot go wrong. -/
theorem globalCandidates_ends (h : ¬ ctx.Shaped) (kind : Option SuggestionKind) :
    (Walk.globalCandidates ctx kind).Ends f (fun _ f' => f' = f) (fun _ => False) := by
  have hnone : ∀ name, ctx.globalShapes.get? name = none := by
    intro name
    cases hs : ctx.globalShapes.get? name with
    | none => rfl
    | some s => exact absurd ⟨name, s, .inl hs⟩ h
  have hmetadata : ∀ name, Walk.metadata name ctx.globalShapes = pure none := by
    intro name
    unfold Walk.metadata
    rw [hnone]
  unfold Walk.globalCandidates
  induction ctx.globals.names with
  | nil => exact rfl
  | cons name rest ih =>
    rw [List.mapM_cons, hmetadata, pure_bind, pure_bind]
    refine Walk.ends_bind.2 (ih.imp fun _ f' hf' => ?_)
    exact hf'

theorem atStatementStart_ends :
    (atStatementStart ctx).Ends f (fun _ f' => f.issues ⊆ f'.issues) (fun _ => ctx.Shaped) := by
  unfold atStatementStart
  dsimp only
  split
  · refine Walk.ends_bind.2 ?_
    by_cases h : ctx.Shaped
    · have hquiet : Walk.Quiet ctx (fun _ => True) _ (Walk.globalCandidates ctx none) :=
        Walk.looks_globalCandidates none
      exact (hquiet.ends f).mono (fun _ _ h => h.2.issues.subset) fun _ _ => h
    · exact (globalCandidates_ends h none).mono (fun _ f' hf' => hf' ▸ List.Subset.refl _) nofun
  · exact List.Subset.refl _

/-- The issues of a walk are handed over in the order in which they were found. -/
theorem told_of_walk (ctx : AssistContext) {f : Findings} {walk : Walk (Option Completion)}
    {faults : List Fault}
    (h : walk.Ends f (fun _ f' => Told faults f'.issues) (fun _ => ctx.Shaped)) :
    match (match walk f with
      | (.ok completion, f') => .ok (completion, f'.issues.reverse)
      | (.error c, _) => .error c : Except Crash (Option Completion × List Issue)) with
    | .ok (_, issues) => Told faults issues
    | .error _ => ctx.Shaped := by
  unfold Walk.Ends at h
  generalize walk f = r at h ⊢
  obtain ⟨_ | _, f'⟩ := r
  · exact h
  · exact h.later fun i hi => List.mem_reverse.2 hi

/-- What is found in a text with a tree. -/
theorem findings_cases (vm : Vm σ) (ctx : AssistContext) {parsed : Parsed}
    (hparsed : parsed.block = some b) :
    match findings vm ctx parsed with
    | .ok (_, issues) =>
      Told (Faults.block (Findings.sight ctx ⟨vm.state.heap, [varsInSight vm], [], none⟩) b) issues
    | .error _ => ctx.Shaped := by
  unfold findings
  rw [hparsed]
  refine told_of_walk ctx
    (Walk.ends_bind.2 ((walked_ends (List.cons_ne_nil _ _)).imp fun _ f' hf' => ?_))
  refine Walk.ends_bind.2 (Walk.ends_get.2 ?_)
  cases f'.completion with
  | some c => exact hf'
  | none => exact atStatementStart_ends.imp fun _ _ hi => hf'.later hi

/-- The walk starts with what a script can see. -/
theorem sight_start (vm : Vm σ) (text : List Char) (caret : Int) (options : AssistOptions) :
    Findings.sight (context vm text caret options) ⟨vm.state.heap, [varsInSight vm], [], none⟩ =
      vm.state.sees := by
  funext name
  unfold Findings.sight State.sees varsInSight
  rw [List.any_cons, Names.has_mapValues, Frames.has_visible]
  simp [context]

end Assist

/-! ## Texts -/

/-- The failure that a run of a text ends with. -/
def Vm.failure? (vm : Vm σ) (host : Host σ) (budget : Nat) (text : String) : Option Failure :=
  match (parse text Limit.nesting).block with
  | none => none
  | some b =>
    match (execute host budget text b vm.state).1 with
    | .failed f => some f
    | _ => none

/-- A machine without any shapes. -/
def Vm.Shapeless (vm : Vm σ) : Prop :=
  ∀ name, vm.globalShapes.get? name = none ∧ vm.varShapes.get? name = none

theorem assist_cases (vm : Vm σ) {text : String} {b : Block}
    (hparse : (parse text Limit.nesting).block = some b) (caret : Int) (options : AssistOptions) :
    match vm.assist text caret options with
    | .ok a => Told (Faults.block vm.state.sees b) a.issues
    | .error _ => ¬ vm.Shapeless := by
  have hfound := Assist.findings_cases vm (Assist.context vm text.toList
    (max 0 (min caret text.toList.length)) options) hparse
  rw [Assist.sight_start] at hfound
  have hsort : ∀ {issues : List Issue}, Told (Faults.block vm.state.sees b) issues →
      Told (Faults.block vm.state.sees b)
        (Issue.sort ((parse text Limit.nesting).issues ++ issues)) := by
    refine fun h => h.later fun i hi => ?_
    exact List.mem_mergeSort.2 (List.mem_append_right _ hi)
  have hshaped : (Assist.context vm text.toList (max 0 (min caret text.toList.length))
      options).Shaped → ¬ vm.Shapeless := by
    rintro ⟨name, s, h | h⟩ hnone
    · exact nomatch (hnone name).1.symm.trans h
    · exact nomatch (hnone name).2.symm.trans h
  unfold Vm.assist
  dsimp only
  cases hr : Assist.findings vm (Assist.context vm text.toList
      (max 0 (min caret text.toList.length)) options) (parse text Limit.nesting) with
  | error c =>
    rw [hr] at hfound
    exact hshaped hfound
  | ok r =>
    rw [hr] at hfound
    obtain ⟨completion, issues⟩ := r
    cases completion with
    | none => exact hsort hfound
    | some c => exact hsort hfound

/-! ## A check for values without lambdas -/

/-- A value is not shared, or is one of the first vectors or tuples. -/
def Value.isAmong (vectors tuples : Nat) : Value → Bool
  | .vector a => a < vectors
  | .tuple a | .method a _ => a < tuples
  | .table _ | .lambda _ => false
  | _ => true

/-- The first vectors and tuples hold no lambdas, if they hold no shared values but one
another. -/
theorem Heap.lambdaFree_of_among {h : Heap} (vectors tuples : Nat)
    (hvectors : ∀ a < vectors, (h.vector a).all (·.isAmong vectors tuples) = true)
    (htuples : ∀ a < tuples, (h.tuple a).all (·.isAmong vectors tuples) = true) {v : Value}
    (hv : v.isAmong vectors tuples = true) : h.LambdaFree v := by
  let R : Region := ⟨(· < vectors), fun _ => False, (· < tuples), fun _ => False⟩
  have hholds : ∀ v, v.isAmong vectors tuples = true → R.Holds v := by
    intro v hv
    cases v with
    | vector a => exact (decide_eq_true_iff.1 hv : a < vectors)
    | tuple a | method a _ => exact (decide_eq_true_iff.1 hv : a < tuples)
    | table a | lambda a => cases hv
    | _ => trivial
  exact lambdaFree_of_region (R := R)
    (fun a ha w hw => hholds w (List.all_eq_true.1 (hvectors a ha) w hw)) nofun
    (fun a ha w hw => hholds w (List.all_eq_true.1 (htuples a ha) w hw)) (fun _ => id) (hholds v hv)

theorem State.namesLambdaFree_of_among {s : State σ} (vectors tuples : Nat)
    (hvectors : ∀ a < vectors, (s.heap.vector a).all (·.isAmong vectors tuples) = true)
    (htuples : ∀ a < tuples, (s.heap.tuple a).all (·.isAmong vectors tuples) = true)
    (hup : (s.frames.frame s.scope).up.isNone = true)
    (hnames : (s.globals.entries ++ (s.frames.vars s.scope).entries).all
      (·.2.isAmong vectors tuples) = true) : s.NamesLambdaFree := by
  have hentries : ∀ {names : Names Value} {name v}, names.get? name = some v →
      (∀ e ∈ names.entries, e.2.isAmong vectors tuples = true) → s.heap.LambdaFree v := by
    intro names name v hv hall
    obtain ⟨e, he, rfl⟩ := Option.map_eq_some_iff.1 hv
    exact Heap.lambdaFree_of_among vectors tuples hvectors htuples
      (hall e (List.mem_of_find?_eq_some he))
  obtain ⟨hglobals, hvars⟩ := List.forall_mem_append.1 (List.all_eq_true.1 hnames)
  have hscope : ∀ f, s.frames.Above s.scope f → f = s.scope := by
    intro f hf
    induction hf with
    | here => rfl
    | up _ habove ih =>
      rw [ih, Option.isNone_iff_eq_none.1 hup] at habove
      cases habove
  exact ⟨fun name v hv => hentries hv hglobals,
    fun f hf name v hv => hentries (hscope f hf ▸ hv) hvars⟩

/-! ## No unknown command is missed -/

/-- A run of a text fails for an unknown command, and help does not say so. -/
def Vm.Misses (vm : Vm σ) (host : Host σ) (budget : Nat) (text : String) : Prop :=
  ∃ f name span, vm.failure? host budget text = some f ∧ f.cause = .unknownCommand name ∧
    f.span = some span ∧ ∀ a, vm.assist text 0 = .ok a → ∀ i ∈ a.issues,
      ¬ (i.code = Issue.Kind.unknownCommand.code ∧ i.span = span)

theorem Vm.misses_of_all {vm : Vm σ} {host : Host σ} {budget : Nat} {text : String} {f : Failure}
    {name : String} {span : Span} (hrun : vm.failure? host budget text = some f)
    (hf : f.cause = .unknownCommand name) (hspan : f.span = some span)
    (h : (vm.assist text 0).toOption.all (fun a => a.issues.all fun i =>
      !(i.code == Issue.Kind.unknownCommand.code && i.span == span)) = true) :
    vm.Misses host budget text := by
  refine ⟨f, name, span, hrun, hf, hspan, fun a ha i hi hno => ?_⟩
  rw [ha] at h
  have hi' := List.all_eq_true.1 h i hi
  simp [hno.1, hno.2] at hi'

end CommandScript
