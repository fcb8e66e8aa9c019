import CommandScript.Proofs.Alarms
import CommandScript.Proofs.Counterpart
/-!
# CommandScript — what the walk says about types

The walk says of an argument that it mismatches where it knows its value, and the shape that
is declared for it does not take this value. It knows the value from what it remembers of
variables at this point, and that is what the visits before have left
(`Walk.located_visitAll`).

All other visits say nothing about types. Those that are quiet leave the variables in sight
as they are, and the heap only grows (`Walk.checks_visit`).
-/

namespace CommandScript

variable {σ : Type}

/-- The code tells a mismatch from all other kinds of issue. -/
theorem Issue.Kind.code_ne_typeMismatch {k : Issue.Kind} (h : k ≠ .typeMismatch) :
    k.code ≠ Issue.Kind.typeMismatch.code := by
  cases k with
  | typeMismatch => exact absurd rfl h
  | _ => decide

/-- What is known where some variables are in sight. -/
def AssistContext.around (ctx : AssistContext) (frames : List (Names Known)) : Surround :=
  ⟨ctx.globals, ctx.globalShapes, ctx.varShapes, frames⟩

/-- What is called has a shape, and this declares a shape for an argument. -/
def Command.Declares (c : Command) (shapes : Names SharedShape) (index : Nat)
    (argument : Expression) (s : Shape) : Prop :=
  ∃ name shared command spec, c.callee.bareName? = some name ∧ shapes.get? name = some shared ∧
    shared.shape.command? = some command ∧ command.argument? index = some spec ∧
    spec.shape = some s ∧ (c.arguments.filter (!·.isEmptyGroup))[index]? = some argument

namespace Findings

variable {ctx : AssistContext} {asks : Nat → Expression → Shape → Prop} {f f' : Findings}

/-- The issue is about an argument. Its value is known, as soon as the heap has grown enough,
and the shape that is asked for does not take it. -/
def Mismatched (ctx : AssistContext) (asks : Nat → Expression → Shape → Prop) (f : Findings)
    (i : Issue) : Prop :=
  ∃ index argument s, asks index argument s ∧ i.span = argument.span ∧
    ∃ h v g, f.heap.Grew h ∧ Static.value (ctx.around f.frames) argument h = .ok (some v, g) ∧
      s.matchWith g (!argument.span.touches ctx.caret) v = .ok none

/-- The same variables are in sight, the heap has grown, and arguments that are newly said to
mismatch do so. -/
structure Checks (ctx : AssistContext) (asks : Nat → Expression → Shape → Prop)
    (f f' : Findings) : Prop where
  frames : f'.frames = f.frames
  heap : f.heap.Grew f'.heap
  issues : ∀ i ∈ f'.issues, i.code = Issue.Kind.typeMismatch.code →
    i ∈ f.issues ∨ f.Mismatched ctx asks i

instance : Std.Refl (Checks ctx asks) := ⟨fun f => ⟨rfl, .refl f.heap, fun _ hi _ => .inl hi⟩⟩

instance : Trans (Checks ctx asks) (Checks ctx asks) (Checks ctx asks) where
  trans {f f' f''} h h' := by
    refine ⟨h'.frames.trans h.frames, h.heap.trans h'.heap, fun i hi hcode => ?_⟩
    obtain hi | ⟨index, argument, s, hasks, hspan, g, v, g', hgrew, hv, hs⟩ :=
      h'.issues i hi hcode
    · exact h.issues i hi hcode
    · rw [h.frames] at hv
      exact .inr ⟨index, argument, s, hasks, hspan, g, v, g', h.heap.trans hgrew, hv, hs⟩

instance : Takes (fun _ => True) (Checks ctx asks) :=
  ⟨fun {f _} _ => ⟨rfl, .refl f.heap, fun _ hi _ => .inl hi⟩⟩

theorem Checks.note {k : Issue.Kind} (hk : k ≠ .typeMismatch) : Notes k (Checks ctx asks) where
  note f span message := by
    refine ⟨rfl, .refl f.heap, fun i hi hcode => .inl ((List.mem_cons.1 hi).resolve_left ?_)⟩
    rintro rfl
    exact Issue.Kind.code_ne_typeMismatch hk hcode

instance : Notes .unknownVariable (Checks ctx asks) := Checks.note nofun
instance : Notes .unknownCommand (Checks ctx asks) := Checks.note nofun
instance : Notes .argumentCount (Checks ctx asks) := Checks.note nofun

/-- What is known in a heap that has grown. -/
theorem Checks.withHeap (f : Findings) {g : Heap} (h : f.heap.Grew g) :
    Checks ctx asks f { f with heap := g } :=
  ⟨rfl, h, fun _ hi _ => .inl hi⟩

end Findings

/-- The visit brings nothing into sight and takes nothing out of it. -/
def Visit.isQuiet : Visit → Bool
  | define .. | enter _ | leave => false
  | _ => true

/-- What a visit asks of arguments. -/
def Visit.asks (shapes : Names SharedShape) : Visit → Nat → Expression → Shape → Prop
  | review c => c.Declares shapes
  | _ => fun _ _ _ => False

namespace Walk

variable {α β : Type} {ctx : AssistContext} {asks : Nat → Expression → Shape → Prop}
variable {f f' : Findings} {vs : List Visit}

theorem apply_orCrash_bind (r : Except Crash α) (next : α → Walk β) (f : Findings) :
    (orCrash r >>= next) f = match r with
      | .ok a => next a f
      | .error c => (.error c, f) := by
  cases r <;> rfl

theorem known_apply (step : Surround → Static α) (f : Findings) :
    known ctx step f = match step (ctx.around f.frames) f.heap with
      | .ok (a, heap) => (.ok a, { f with heap })
      | .error c => (.error c, f) := by
  have hglimpse : glimpse ctx step f = orCrash (step (ctx.around f.frames) f.heap) f := rfl
  unfold known
  rw [apply_bind, hglimpse]
  rcases step (ctx.around f.frames) f.heap with c | ⟨a, g⟩ <;> rfl

/-- Where a value is known, the heap has grown. -/
theorem grew_of_value {s : Surround} {e : Expression} {h g : Heap} {k : Known}
    (hv : Static.value s e h = .ok (k, g)) : h.Grew g :=
  .of_extends (Static.composes_builds.value s e h k g hv)

/-! ## Arguments -/

theorem checks_checkArgument (h : ctx.Shaped) {command : CommandShape} {index : Nat}
    {e : Expression} (hasks : ∀ spec s, command.argument? index = some spec →
      spec.shape = some s → asks index e s) :
    Looks ctx (Findings.Checks ctx asks) (fun _ => True) (checkArgument ctx command index e) := by
  unfold checkArgument
  split
  · exact .pure trivial
  next spec hspec =>
    split
    · exact .pure trivial
    next s hs =>
      refine fun f => ⟨?_, fun _ _ => trivial, fun _ _ => .inr h⟩
      rw [apply_bind, known_apply]
      rcases hv : Static.value (ctx.around f.frames) e f.heap with c | ⟨_ | v, g⟩
      · exact Std.Refl.refl f
      · exact .withHeap f (grew_of_value hv)
      · have hgrew := grew_of_value hv
        have hkept : Findings.Checks ctx asks f { f with heap := g } := .withHeap f hgrew
        change Findings.Checks ctx asks f
          ((orCrash (s.matchWith g (!e.span.touches ctx.caret) v) >>= _) { f with heap := g }).2
        rw [apply_orCrash_bind]
        rcases hm : s.matchWith g (!e.span.touches ctx.caret) v with c | _ | path
        · exact hkept
        · dsimp only
          rw [Option.isNone_none, if_pos rfl, apply_orCrash_bind]
          rcases s.describe g with c | type
          · exact hkept
          · dsimp only
            rw [apply_orCrash_bind]
            rcases g.format v with c | got
            · exact hkept
            · -- this is the one place where a mismatch is noted
              refine ⟨rfl, hgrew, fun i hi _ => ?_⟩
              obtain rfl | hi := List.mem_cons.1 hi
              · exact .inr ⟨index, e, s, hasks spec s hspec hs, rfl, f.heap, v, g, .refl _, hv, hm⟩
              · exact .inl hi
        · exact hkept

theorem checks_checkEach (h : ctx.Shaped) {command : CommandShape} (index : Nat)
    (es : List Expression) (hasks : ∀ k e spec s, es[k]? = some e →
      command.argument? (index + k) = some spec → spec.shape = some s → asks (index + k) e s) :
    Looks ctx (Findings.Checks ctx asks) (fun _ => True) (checkEach ctx command index es) := by
  induction es generalizing index with
  | nil => exact .pure trivial
  | cons e rest ih =>
    refine (checks_checkArgument h fun spec s => hasks 0 e spec s rfl).bind fun _ _ => ?_
    refine ih (index + 1) fun k e spec s hk => ?_
    rw [Nat.add_assoc, Nat.add_comm 1 k]
    exact hasks (k + 1) e spec s hk

theorem checks_checkArguments (h : ctx.Shaped) (c : Command) {command : CommandShape}
    {es : List Expression} (hasks : ∀ k e spec s, es[k]? = some e →
      command.argument? k = some spec → spec.shape = some s → asks k e s) :
    Looks ctx (Findings.Checks ctx asks) (fun _ => True) (checkArguments ctx c command es) := by
  refine looks_checkArguments h c (checks_checkEach h 0 es fun k e spec s => ?_)
  rw [Nat.zero_add]
  exact hasks k e spec s

theorem checks_reviewArguments (c : Command) :
    Looks ctx (Findings.Checks ctx (c.Declares ctx.globalShapes)) (fun _ => True)
      (reviewArguments ctx c) := by
  unfold reviewArguments
  split
  · next command hc =>
    obtain ⟨name, hname, hc⟩ := Option.bind_eq_some_iff.1 hc
    obtain ⟨shared, hshared, hcommand⟩ := Option.bind_eq_some_iff.1 hc
    exact checks_checkArguments (shaped_of_commandShape hc) c fun k e spec s he hspec hs =>
      ⟨name, shared, command, spec, hname, hshared, hcommand, hspec, hs, he⟩
  · exact .pure trivial

/-! ## Visits -/

/-- **A quiet visit** says nothing about types, but where it reviews arguments. -/
theorem checks_visit {v : Visit} (hv : v.isQuiet = true) :
    Looks ctx (Findings.Checks ctx (v.asks ctx.globalShapes)) (fun _ => True) (visit ctx v) := by
  cases v with
  | root kind r => exact looks_visitRoot kind (welcomes_true _)
  | suffix v n s => exact looks_visitSuffix v n (welcomes_true _)
  | callee v => exact looks_reviewCallee v
  | arguments c => exact looks_visitArguments c fun _ _ _ _ _ => trivial
  | review c => exact checks_reviewArguments c
  | pending ampersand span => exact looks_pending ampersand span (Completion.fit_true _)
  | target r =>
    exact (looks_visitTarget (welcomes_true _)).bind fun _ _ => .pure trivial
  | define | enter | leave => cases hv

theorem apply_define {r : VarRoot} {t : Token} (ht : assignedToken? r = some t)
    (e : Option Expression) (f : Findings) :
    define ctx r e f = match Static.valueOptional (ctx.around f.frames) e f.heap with
      | .ok (k, heap) => (.ok (), { f with heap, frames := defineIn t.text k f.frames })
      | .error c => (.error c, f) := by
  unfold define
  rw [ht]
  dsimp only
  rw [apply_bind, known_apply]
  rcases Static.valueOptional (ctx.around f.frames) e f.heap with c | ⟨k, g⟩ <;> rfl

/-- Of an assignment nothing is said. -/
theorem issues_define (r : VarRoot) (e : Option Expression) (f : Findings) :
    (define ctx r e f).2.issues = f.issues := by
  cases ht : assignedToken? r with
  | none =>
    unfold define
    rw [ht]
    rfl
  | some t =>
    rw [apply_define ht]
    split <;> rfl

/-- **One visit** says that an argument mismatches only where it reviews it, and it does. -/
theorem mismatched_of_visit (v : Visit) {i : Issue} (hi : i ∈ (visit ctx v f).2.issues)
    (hcode : i.code = Issue.Kind.typeMismatch.code) :
    i ∈ f.issues ∨ f.Mismatched ctx (v.asks ctx.globalShapes) i := by
  cases hv : v.isQuiet with
  | true => exact (checks_visit hv f).1.issues i hi hcode
  | false =>
    cases v with
    | define r e =>
      rw [visit, issues_define] at hi
      exact .inl hi
    | enter | leave => exact .inl hi
    | _ => cases hv

/-- The issue is about a command among some visits, and an argument of it mismatches where the
visits before have led. -/
def Located (ctx : AssistContext) (vs : List Visit) (f : Findings) (i : Issue) : Prop :=
  ∃ before c behind f', vs = before ++ .review c :: behind ∧
    visitAll ctx before f = (.ok (), f') ∧ f'.Mismatched ctx (c.Declares ctx.globalShapes) i

/-- **Visits in order** say of nothing else that it mismatches. -/
theorem located_visitAll (vs : List Visit) {f : Findings} {i : Issue}
    (hi : i ∈ (visitAll ctx vs f).2.issues) (hcode : i.code = Issue.Kind.typeMismatch.code) :
    i ∈ f.issues ∨ Located ctx vs f i := by
  induction vs generalizing f with
  | nil => exact .inl hi
  | cons v rest ih =>
    have hfirst {f' : Findings} {r : Except Crash Unit} (hr : visit ctx v f = (r, f'))
        (hi : i ∈ f'.issues) : i ∈ f.issues ∨ Located ctx (v :: rest) f i := by
      have hi : i ∈ (visit ctx v f).2.issues := by
        rw [hr]
        exact hi
      refine (mismatched_of_visit v hi hcode).imp_right fun h => ?_
      cases v with
      | review c => exact ⟨[], c, rest, f, rfl, rfl, h⟩
      | _ =>
        obtain ⟨_, _, _, hasks, -⟩ := h
        exact hasks.elim
    rw [visitAll_cons, apply_bind] at hi
    rcases hr : visit ctx v f with ⟨c | ⟨⟩, f'⟩ <;> rw [hr] at hi
    · exact hfirst hr hi
    · obtain hi | ⟨before, c, behind, f'', rfl, hbefore, h⟩ := ih hi
      · exact hfirst hr hi
      · refine .inr ⟨v :: before, c, behind, f'', rfl, ?_, h⟩
        rw [visitAll_cons, apply_bind, hr]
        exact hbefore

/-- **Quiet visits** leave the variables in sight alone, and the heap grows. -/
theorem grew_of_visitAll (hvs : ∀ v ∈ vs, v.isQuiet = true)
    (h : visitAll ctx vs f = (.ok (), f')) : f'.frames = f.frames ∧ f.heap.Grew f'.heap := by
  induction vs generalizing f with
  | nil =>
    cases h
    exact ⟨rfl, .refl _⟩
  | cons v rest ih =>
    obtain ⟨hv, hrest⟩ := List.forall_mem_cons.1 hvs
    have hchecks : Findings.Checks ctx _ f _ := (checks_visit hv f).1
    rw [visitAll_cons, apply_bind] at h
    rcases hr : visit ctx v f with ⟨c | ⟨⟩, g⟩ <;> rw [hr] at h hchecks
    · cases h
    · obtain ⟨hframes, hheap⟩ := ih hrest h
      exact ⟨hframes.trans hchecks.frames, hchecks.heap.trans hheap⟩

theorem apply_framed (vars : Names Known) (step : Walk Unit) (f : Findings) :
    (framed vars step f).2.issues = (step { f with frames := vars :: f.frames }).2.issues := by
  unfold framed
  rw [apply_bind]
  change ((step >>= _) { f with frames := vars :: f.frames }).2.issues = _
  rw [apply_bind]
  rcases step { f with frames := vars :: f.frames } with ⟨c | ⟨⟩, f'⟩ <;> rfl

end Walk

/-! ## The issues of a text -/

/-- What is known of a machine where the walk over a text begins. -/
def Findings.start (vm : Vm σ) : Findings :=
  { heap := vm.state.heap, frames := [{}, Assist.varsInSight vm] }

namespace Assist

variable {vm : Vm σ} {ctx : AssistContext} {b : Block} {f : Findings}

/-- The walk over a whole text says of nothing else that it mismatches, and that it was given
up is another kind of issue. -/
theorem walked_located : (walked ctx b).Ends { heap := vm.state.heap, frames := [varsInSight vm] }
    (fun _ f' => ∀ i ∈ f'.issues, i.code = Issue.Kind.typeMismatch.code →
      Walk.Located ctx (Visits.block b) (.start vm) i) fun _ => True := by
  have hissues : ∀ i ∈ (Walk.framed {} (Walk.block ctx b)
      { heap := vm.state.heap, frames := [varsInSight vm] }).2.issues,
      i.code = Issue.Kind.typeMismatch.code →
      Walk.Located ctx (Visits.block b) (.start vm) i := by
    intro i hi hcode
    rw [Walk.apply_framed, Walk.block_eq_visitAll] at hi
    exact (Walk.located_visitAll _ hi hcode).resolve_left List.not_mem_nil
  unfold Walk.Ends walked
  rcases hr : Walk.framed {} (Walk.block ctx b)
    { heap := vm.state.heap, frames := [varsInSight vm] } with ⟨c | ⟨⟩, f'⟩ <;> rw [hr] at hissues
  · cases c with
    | endless =>
      intro i hi hcode
      obtain rfl | hi := List.mem_cons.1 hi
      · exact absurd hcode (Issue.Kind.code_ne_typeMismatch (k := .analysisTooDeep) nofun)
      · exact hissues i hi hcode
    | _ => trivial
  · exact hissues

theorem located_of_findings {parsed : Parsed} {completion : Option Completion}
    {issues : List Issue} (hb : parsed.block = some b)
    (h : findings vm ctx parsed = .ok (completion, issues)) :
    ∀ i ∈ issues, i.code = Issue.Kind.typeMismatch.code →
      Walk.Located ctx (Visits.block b) (.start vm) i := by
  let located (issues : List Issue) : Prop := ∀ i ∈ issues,
    i.code = Issue.Kind.typeMismatch.code → Walk.Located ctx (Visits.block b) (.start vm) i
  have hhanded : ∀ {f : Findings}, located f.issues → located f.issues.reverse :=
    fun hf i hi => hf i (List.mem_reverse.1 hi)
  unfold findings at h
  rw [hb] at h
  refine Walk.Ends.of_handed (Q := fun _ issues => located issues) ?_ h
  refine Walk.ends_bind.2 (walked_located.imp fun _ f' hf' => ?_)
  refine Walk.ends_bind.2 (Walk.ends_get.2 ?_)
  cases f'.completion with
  | some c => exact hhanded hf'
  | none =>
    have hstart : (atStatementStart ctx).Ends f' (fun _ => Findings.Checks ctx
        (fun _ _ _ => False) f') fun _ => True := atStatementStart_ends_rel
    refine hstart.imp fun _ f'' hchecks => hhanded fun i hi hcode => ?_
    obtain hi | ⟨_, _, _, hasks, -⟩ := hchecks.issues i hi hcode
    · exact hf' i hi hcode
    · exact hasks.elim

end Assist

/-- **Help says of nothing else that it mismatches.** What it reports so is an argument of a
command in the text that has a known value where it stands, and its shape does not take it. -/
theorem Vm.located_of_assist {vm : Vm σ} {text : String} {caret : Int} {options : AssistOptions}
    {a : Assistance} (h : vm.assist text caret options = .ok a) {b : Block}
    (hb : (parse text Limit.nesting).block = some b) {i : Issue} (hi : i ∈ a.issues)
    (hcode : i.code = Issue.Kind.typeMismatch.code) :
    Walk.Located (Assist.context vm text.toList (max 0 (min caret text.toList.length)) options)
      (Visits.block b) (.start vm) i := by
  obtain ⟨completion, issues, hfound, hissues, -, -⟩ := Vm.findings_of_assist h
  rw [hissues] at hi
  obtain hparsed | hi := List.mem_append.1 (List.mem_mergeSort.1 hi)
  · obtain ⟨k, hk, hcode'⟩ := exists_kind_of_mem_issues hparsed
    have hne : k ≠ .typeMismatch := by
      rintro rfl
      exact hk.elim nofun nofun
    exact absurd (hcode'.symm.trans hcode) (Issue.Kind.code_ne_typeMismatch hne)
  · exact Assist.located_of_findings hb hfound i hi hcode

end CommandScript
