import CommandScript.Proofs.Static
import CommandScript.Assist.Walk
/-!
# CommandScript — how steps of the walk end

A step of the walk ends well or crashes. Most steps are *quiet*: they look around, note
issues and say what could stand at the caret, and leave the variables in sight as they
are. Only frames that are put around a step, and assignments, change what is in sight.

Where no shapes are attached, a step crashes in one way only: a container that
contains itself is compared without end. All else that can go wrong is about shapes.
-/

namespace CommandScript

variable {α β : Type}

/-- Some name has a shape. -/
def AssistContext.Shaped (ctx : AssistContext) : Prop :=
  ∃ name s, ctx.globalShapes.get? name = some s ∨ ctx.varShapes.get? name = some s

/-- From findings to later ones with the same variables in sight: issues are added, and what
could stand at the caret is what it was, or something that fits. -/
structure Findings.Grows (fits : Completion → Prop) (f f' : Findings) : Prop where
  frames : f'.frames = f.frames
  issues : f.issues <:+ f'.issues
  completion : f'.completion = f.completion ∨ ∃ c, f'.completion = some c ∧ fits c

instance (fits : Completion → Prop) : Std.Refl (Findings.Grows fits) :=
  ⟨fun _ => ⟨rfl, List.suffix_rfl, .inl rfl⟩⟩

instance (fits : Completion → Prop) :
    Trans (Findings.Grows fits) (Findings.Grows fits) (Findings.Grows fits) where
  trans h h' := by
    refine ⟨h'.frames.trans h.frames, h.issues.trans h'.issues, ?_⟩
    obtain hsame | hnew := h'.completion
    · rw [hsame]
      exact h.completion
    · exact .inr hnew

/-- Findings with the same heap, variables in sight and issues. -/
structure Findings.Alike (f f' : Findings) : Prop where
  heap : f'.heap = f.heap
  frames : f'.frames = f.frames
  issues : f'.issues = f.issues

instance : Std.Refl Findings.Alike := ⟨fun _ => ⟨rfl, rfl, rfl⟩⟩

instance : Trans Findings.Alike Findings.Alike Findings.Alike where
  trans h h' := ⟨h'.heap.trans h.heap, h'.frames.trans h.frames, h'.issues.trans h.issues⟩

/-- To offer what fits is within a relation. -/
class Findings.Takes (fits : Completion → Prop) (R : Findings → Findings → Prop) : Prop where
  offer {f : Findings} {c : Completion} : fits c → R f { f with completion := some c }

instance (fits : Completion → Prop) : Findings.Takes fits (Findings.Grows fits) :=
  ⟨fun hc => ⟨rfl, List.suffix_rfl, .inr ⟨_, rfl, hc⟩⟩⟩

instance (fits : Completion → Prop) : Findings.Takes fits Findings.Alike :=
  ⟨fun _ => ⟨rfl, rfl, rfl⟩⟩

/-- To note an issue of a kind is within a relation. -/
class Findings.Notes (k : Issue.Kind) (R : Findings → Findings → Prop) : Prop where
  note (f : Findings) (span : Span) (message : String) :
    R f { f with issues := .raise k span message :: f.issues }

instance (k : Issue.Kind) (fits : Completion → Prop) : Findings.Notes k (Findings.Grows fits) :=
  ⟨fun _ _ _ => ⟨rfl, List.suffix_cons _ _, .inl rfl⟩⟩

/-- To know more values, and to note anything but an unknown command, is within a relation. -/
class Findings.Reviews (R : Findings → Findings → Prop) : Prop where
  heap (f : Findings) (heap : Heap) : R f { f with heap }
  note {k : Issue.Kind} : k ≠ .unknownCommand → Findings.Notes k R

instance (fits : Completion → Prop) : Findings.Reviews (Findings.Grows fits) :=
  ⟨fun _ _ => ⟨rfl, List.suffix_rfl, .inl rfl⟩, fun _ => inferInstance⟩

instance (R : Findings → Findings → Prop) [Findings.Reviews R] :
    Findings.Notes .unknownVariable R :=
  Findings.Reviews.note nofun

/-- What is offered in a place fits, if its candidates leave it there. -/
def Completion.Fit (fits : Completion → Prop) (replace : Span) : Prop :=
  ∀ c : Completion, c.replace = replace → (∀ s ∈ c.candidates, s.replace = none) → fits c

theorem Completion.fit_true (replace : Span) : Completion.Fit (fun _ => True) replace :=
  fun _ _ _ => trivial

namespace Walk

/-- From findings, a step ends well with `Q` of its result and its findings, or crashes
with `E`. -/
def Ends (step : Walk α) (f : Findings) (Q : α → Findings → Prop) (E : Crash → Prop) : Prop :=
  match step f with
  | (.ok a, f') => Q a f'
  | (.error c, _) => E c

variable {f : Findings} {Q Q' : α → Findings → Prop} {R : β → Findings → Prop}
variable {E E' : Crash → Prop}

theorem Ends.mono {step : Walk α} (h : step.Ends f Q E) (hQ : ∀ a f', Q a f' → Q' a f')
    (hE : ∀ c, E c → E' c) : step.Ends f Q' E' := by
  unfold Ends at h ⊢
  generalize step f = r at h ⊢
  obtain ⟨⟨⟩ | ⟨⟩, f'⟩ := r
  · exact hE _ h
  · exact hQ _ _ h

theorem Ends.imp {step : Walk α} (h : step.Ends f Q E) (hQ : ∀ a f', Q a f' → Q' a f') :
    step.Ends f Q' E :=
  h.mono hQ fun _ => id

theorem ends_bind {x : Walk α} {g : α → Walk β} :
    (x >>= g).Ends f R E ↔ x.Ends f (fun a f' => (g a).Ends f' R E) E := by
  unfold Ends
  simp only [bind, ExceptT.bind, ExceptT.mk, StateT.bind]
  rcases x f with ⟨⟨⟩ | ⟨⟩, f'⟩ <;> rfl

theorem ends_get {Q : Findings → Findings → Prop} :
    (get : Walk Findings).Ends f Q E ↔ Q f f := Iff.rfl

theorem ends_modify {g : Findings → Findings} {Q : PUnit → Findings → Prop} :
    (modify g : Walk PUnit).Ends f Q E ↔ Q ⟨⟩ (g f) := Iff.rfl

theorem apply_bind (x : Walk α) (g : α → Walk β) (f : Findings) :
    (x >>= g) f = match x f with
      | (.ok a, f') => g a f'
      | (.error c, f') => (.error c, f') := by
  simp only [bind, ExceptT.bind, ExceptT.mk, StateT.bind]
  rcases x f with ⟨⟨⟩ | ⟨⟩, f'⟩ <;> rfl

/-- What holds of how a walk ends well holds of what is handed over. -/
theorem Ends.of_handed {walk : Walk (Option Completion)} {Q : Option Completion → List Issue → Prop}
    {completion : Option Completion} {issues : List Issue}
    (hwalk : walk.Ends f (fun completion f' => Q completion f'.issues.reverse) fun _ => True)
    (h : (match walk f with
      | (.ok completion, f') => .ok (completion, f'.issues.reverse)
      | (.error c, _) => .error c : Except Crash (Option Completion × List Issue)) =
        .ok (completion, issues)) : Q completion issues := by
  unfold Ends at hwalk
  generalize walk f = r at hwalk h
  obtain ⟨⟨⟩ | ⟨⟩, f'⟩ := r
  · cases h
  · cases h
    exact hwalk

/-! ## Steps within a relation -/

/-- However a step ends, it goes from findings to related ones. It ends well with a result
in `P`, or crashes with `E`. -/
def Within (R : Findings → Findings → Prop) (E : Crash → Prop) (P : α → Prop) (step : Walk α) :
    Prop :=
  ∀ f, R f (step f).2 ∧ (∀ a, (step f).1 = .ok a → P a) ∧ ∀ c, (step f).1 = .error c → E c

namespace Within

variable {R : Findings → Findings → Prop} {P P' : α → Prop} {S : β → Prop} {step : Walk α}

theorem ends (h : Within R E P step) (f : Findings) :
    step.Ends f (fun a f' => P a ∧ R f f') E := by
  obtain ⟨hrel, hok, herror⟩ := h f
  unfold Ends
  rcases hr : step f with ⟨⟨⟩ | ⟨⟩, f'⟩ <;> rw [hr] at hrel hok herror
  · exact herror _ rfl
  · exact ⟨hok _ rfl, hrel⟩

theorem imp (h : Within R E P step) (hP : ∀ a, P a → P' a) : Within R E P' step :=
  fun f => ⟨(h f).1, fun a ha => hP a ((h f).2.1 a ha), (h f).2.2⟩

theorem modify {g : Findings → Findings} (h : ∀ f, R f (g f)) :
    Within R E (fun _ => True) (modify g : Walk PUnit) :=
  fun f => ⟨h f, fun _ _ => trivial, nofun⟩

section Refl

variable [Std.Refl R]

theorem pure {a : α} (ha : P a) : Within R E P (pure a) := by
  refine fun f => ⟨Std.Refl.refl f, fun b hb => ?_, nofun⟩
  cases hb
  exact ha

theorem get : Within R E (fun _ => True) (get : Walk Findings) :=
  fun f => ⟨Std.Refl.refl f, fun _ _ => trivial, nofun⟩

theorem orCrash {r : Except Crash α} (hE : ∀ c, r = .error c → E c) (hP : ∀ a, r = .ok a → P a) :
    Within R E P (orCrash r) := by
  cases r with
  | ok a => exact .pure (hP a rfl)
  | error c =>
    refine fun f => ⟨Std.Refl.refl f, nofun, fun d hd => ?_⟩
    cases hd
    exact hE c rfl

end Refl

section Trans

variable [Trans R R R] [Findings.Takes fits R]

theorem bind {x : Walk α} {g : α → Walk β} (hx : Within R E P x)
    (hg : ∀ a, P a → Within R E S (g a)) : Within R E S (x >>= g) := by
  intro f
  obtain ⟨hrel, hok, herror⟩ := hx f
  rw [apply_bind]
  rcases hr : x f with ⟨c | a, f'⟩ <;> rw [hr] at hrel hok herror
  · exact ⟨hrel, nofun, fun d hd => by cases hd; exact herror c rfl⟩
  · obtain ⟨hrel', h'⟩ := hg a (hok a rfl) f'
    exact ⟨Trans.trans hrel hrel', h'⟩

variable [Std.Refl R]

theorem mapM {g : α → Walk β} (hg : ∀ a, Within R E S (g a)) (l : List α) :
    Within R E (fun bs => ∀ b ∈ bs, S b) (l.mapM g) := by
  induction l with
  | nil => exact .pure nofun
  | cons a rest ih =>
    rw [List.mapM_cons]
    exact (hg a).bind fun b hb => ih.bind fun bs hbs => .pure (List.forall_mem_cons.2 ⟨hb, hbs⟩)

theorem filterMapM {g : α → Walk (Option β)} (hg : ∀ a, Within R E (fun b => ∀ c ∈ b, S c) (g a))
    (l : List α) : Within R E (fun bs => ∀ b ∈ bs, S b) (l.filterMapM g) := by
  induction l with
  | nil => exact .pure nofun
  | cons a rest ih =>
    rw [List.filterMapM_cons]
    refine (hg a).bind fun b hb => ?_
    cases b with
    | none => exact ih
    | some b =>
      exact ih.bind fun bs hbs => .pure (List.forall_mem_cons.2 ⟨hb b rfl, hbs⟩)

end Trans

end Within

/-! ## Looking around -/

section Looks

variable (ctx : AssistContext)

/-- A crash that is no surprise. -/
def Excused (c : Crash) : Prop := c = .endless ∨ ctx.Shaped

/-- A step stays within a relation, and has results with `P`. -/
abbrev Looks (R : Findings → Findings → Prop) (P : α → Prop) (step : Walk α) : Prop :=
  Within R (Excused ctx) P step

variable {ctx} {R : Findings → Findings → Prop} {fits : Completion → Prop} {P : α → Prop}

theorem looks_offer [Findings.Takes fits R] {c : Completion} (hc : fits c) :
    Looks ctx R (fun _ => True) (offer c) :=
  .modify fun _ => Findings.Takes.offer hc

variable [Std.Refl R]

/-- Where there are shapes, any crash is excused. -/
theorem looks_orCrash (h : ctx.Shaped) (r : Except Crash α) :
    Looks ctx R (fun _ => True) (orCrash r) :=
  .orCrash (fun _ _ => .inr h) fun _ _ => trivial

/-- What is computed beforehand goes with a heap of its own. -/
theorem looks_glimpse {step : Surround → Static α} (hE : ∀ s, (step s).EndlessOnly)
    (hP : ∀ frames h a h', step ⟨ctx.globals, ctx.globalShapes, ctx.varShapes, frames⟩ h =
      .ok (a, h') → P a) : Looks ctx R (fun r => P r.1) (glimpse ctx step) := by
  intro f
  let s : Surround := ⟨ctx.globals, ctx.globalShapes, ctx.varShapes, f.frames⟩
  have hglimpse : Looks ctx R (fun r : α × Heap => P r.1) (orCrash (step s f.heap)) :=
    .orCrash (fun c hc => .inl (hE s f.heap c hc)) fun r hr => hP f.frames f.heap r.1 r.2 hr
  exact hglimpse f

variable [Trans R R R] [Findings.Takes fits R]

theorem looks_sees (name : String) : Looks ctx R (fun _ => True) (sees name) :=
  Within.get.bind fun _ _ => .pure trivial

/-! ### What could stand at the caret -/

theorem looks_variableNames : Looks ctx R (fun _ => True) (variableNames ctx) :=
  Within.get.bind fun _ _ => .pure trivial

theorem looks_metadata (name : String) {shapes : Names SharedShape}
    (h : ∀ s, shapes.get? name = some s → ctx.Shaped) :
    Looks ctx R (fun _ => True) (metadata name shapes) := by
  unfold metadata
  split
  · exact .pure trivial
  · next s hs =>
    refine Within.get.bind fun _ _ => (looks_orCrash (h s hs) _).bind fun _ _ => ?_
    split <;> exact .pure trivial

theorem shaped_of_commandShape {name : String} {c : CommandShape}
    (h : commandShape ctx name = some c) : ctx.Shaped := by
  unfold commandShape at h
  cases hs : ctx.globalShapes.get? name with
  | none => simp [hs] at h
  | some s => exact ⟨name, s, .inl hs⟩

/-- Candidates that the walk makes itself do not say what they replace. -/
theorem looks_globalCandidates (kind : Option SuggestionKind) :
    Looks ctx R (fun cs => ∀ s ∈ cs, s.replace = none) (globalCandidates ctx kind) := by
  have hcandidate (name : String) : Looks ctx R (fun s : Suggestion => s.replace = none) (do
      return { text := name, display := name, kind, metadata := ← metadata name ctx.globalShapes }) :=
    (looks_metadata name fun s hs => ⟨name, s, .inl hs⟩).bind fun _ _ => .pure rfl
  exact .mapM hcandidate _

theorem looks_offerGlobals {replace : Span} (h : Completion.Fit fits replace) (typed : String)
    (kind : Option SuggestionKind) : Looks ctx R (fun _ => True) (offerGlobals ctx replace typed kind) := by
  refine (looks_globalCandidates kind).bind fun candidates hcandidates => ?_
  cases hc : commandShape ctx typed with
  | none =>
    exact (Within.pure trivial).bind fun _ (_ : True) => looks_offer (h _ rfl hcandidates)
  | some c =>
    refine Within.get.bind fun f _ => ?_
    exact (looks_orCrash (shaped_of_commandShape hc) _).bind fun _ _ =>
      looks_offer (h _ rfl hcandidates)

theorem looks_offerVariables {replace : Span} (h : Completion.Fit fits replace) (typed : String)
    (kind : Option SuggestionKind) : Looks ctx R (fun _ => True) (offerVariables ctx replace typed kind) := by
  have hcandidate (name : String) : Looks ctx R (fun s : Suggestion => s.replace = none) (do
      return { text := name, display := "$" ++ name, kind,
               metadata := ← metadata name ctx.varShapes }) :=
    (looks_metadata name fun s hs => ⟨name, s, .inr hs⟩).bind fun _ _ => .pure rfl
  refine looks_variableNames.bind fun names _ => ?_
  exact (Within.mapM hcandidate names).bind fun _ hcandidates => looks_offer (h _ rfl hcandidates)

theorem replace_tableCandidates (h : Heap) (v : Known) :
    ∀ s ∈ tableCandidates h v, s.replace = none := by
  unfold tableCandidates
  split
  · intro s hs
    obtain ⟨k, -, hk⟩ := List.mem_filterMap.1 hs
    split at hk <;> cases hk
    rfl
  · exact List.forall_mem_nil _

theorem looks_shapeCandidates {shape : Option Shape} (h : shape.isSome → ctx.Shaped) :
    Looks ctx R (fun cs => ∀ s ∈ cs, s.replace = none) (shapeCandidates shape) := by
  unfold shapeCandidates
  split
  · refine .filterMapM (fun e => ?_) _
    split
    · refine Within.get.bind fun _ _ => (looks_orCrash (h rfl) _).bind fun _ _ => .pure ?_
      intro s hs
      cases hs
      rfl
    · exact .pure (by rintro _ ⟨⟩)
  · exact .pure (List.forall_mem_nil _)

omit [Trans R R R] in
/-- The shape of a chain comes from a shape that was attached. -/
theorem looks_chainBefore (v : Var) (step : Nat) :
    Looks ctx R (fun r => r.1.2.isSome → ctx.Shaped)
      (glimpse ctx (Static.chainBefore · v step)) := by
  refine looks_glimpse (P := fun r => r.2.isSome → ctx.Shaped) (R := R)
    (fun s => Static.endlessOnly_suffixes s _ _ _) ?_
  intro frames h a h' ha hshape
  have hroot := Static.shape_of_suffixes ha hshape
  cases hv : v.root with
  | bare t =>
    simp only [hv, Static.root, Option.isSome_map] at hroot
    exact ⟨t.text, _, .inl (Option.some_get hroot).symm⟩
  | named dollar name span =>
    cases name with
    | none => simp [hv, Static.root] at hroot
    | some t =>
      simp only [hv, Static.root, Option.isSome_map] at hroot
      exact ⟨t.text, _, .inr (Option.some_get hroot).symm⟩
  | computed => simp [hv, Static.root] at hroot

theorem looks_offerFields (v : Var) (step : Nat) {replace : Span}
    (h : Completion.Fit fits replace) (typed : String) :
    Looks ctx R (fun _ => True) (offerFields ctx v step replace typed) :=
  (looks_chainBefore v step).bind fun _ hshape =>
    (looks_shapeCandidates hshape).bind fun _ hcandidates => looks_offer (h _ rfl
      (List.forall_mem_append.2 ⟨replace_tableCandidates _ _, hcandidates⟩))

/-- The span that an offer for an argument replaces: the token of a literal, or else nothing. -/
def argumentSpan (ctx : AssistContext) (arguments : List Expression) (index : Nat) : Span :=
  ((arguments[index]?.bind literalToken?).map (·.span)).getD (atCaret ctx)

/-- What the shape of an argument of a command offers. -/
def ArgumentOffer (ctx : AssistContext) (o : Suggestion) : Prop :=
  ∃ name c index spec s, commandShape ctx name = some c ∧ c.argument? index = some spec ∧
    spec.shape = some s ∧ ∃ h typed os, s.suggest h typed = .ok os ∧ o ∈ os

theorem looks_offerArgument (name : Option String) (arguments : List Expression) (index : Nat)
    (h : ∀ c : Completion, c.replace = argumentSpan ctx arguments index →
      (∀ s ∈ c.candidates, ArgumentOffer ctx s) → fits c) :
    Looks ctx R (fun _ => True) (offerArgument ctx (name.bind (commandShape ctx)) arguments index) := by
  have hnothing (info : Option PlaceInfo) (typed : String) :
      Looks ctx R (fun _ => True) (offer ⟨argumentSpan ctx arguments index, [], typed, info⟩) :=
    looks_offer (h _ rfl nofun)
  unfold offerArgument
  dsimp only
  cases hc : name.bind (commandShape ctx) with
  | none => exact hnothing none _
  | some c =>
    obtain ⟨n, -, hc⟩ := Option.bind_eq_some_iff.1 hc
    have hshaped := shaped_of_commandShape hc
    rw [Option.bind_some]
    cases hspec : c.argument? index with
    | none => exact hnothing none _
    | some spec =>
      refine Within.get.bind fun _ _ => (looks_orCrash hshaped _).bind fun type _ => ?_
      cases hs : spec.shape with
      | none => exact hnothing _ _
      | some s =>
        dsimp only
        split
        · refine Within.get.bind fun f _ => ?_
          refine (Within.orCrash (fun _ _ => .inr hshaped) fun os hos => hos).bind fun os hos =>
            looks_offer (h _ rfl fun o ho => ?_)
          exact ⟨n, c, index, spec, s, hc, hspec, hs, _, _, os, hos, ho⟩
        · exact hnothing _ _

/-! ### Places -/

/-- At a name and at a place without one, what is offered replaces the name or nothing. -/
structure Welcomes (ctx : AssistContext) (fits : Completion → Prop) (name : Option Token) : Prop where
  caret : Completion.Fit fits (atCaret ctx)
  token : ∀ t ∈ name, t.span.touches ctx.caret → Completion.Fit fits t.span

theorem welcomes_true (name : Option Token) : Welcomes ctx (fun _ => True) name :=
  ⟨Completion.fit_true _, fun t _ _ => Completion.fit_true t.span⟩

/-- The name of a field that is written behind a dot. -/
def fieldToken? : VarSuffix → Option Token
  | .field _ name _ => name
  | .index .. => none

theorem looks_visitSuffix (v : Var) (step : Nat) {s : VarSuffix}
    (h : Welcomes ctx fits (fieldToken? s)) : Looks ctx R (fun _ => True) (visitSuffix ctx v step s) := by
  unfold visitSuffix
  split
  · split
    · exact looks_offerFields _ _ h.caret _
    · exact .pure trivial
  · split
    · next ht => exact looks_offerFields _ _ (h.token _ rfl ht) _
    · exact .pure trivial
  · exact .pure trivial

theorem looks_visitArguments (c : Command)
    (h : ∀ index, argumentAtCaret ctx c (c.arguments.filter (!·.isEmptyGroup)) = some index →
      ∀ o : Completion, o.replace =
        argumentSpan ctx (c.arguments.filter (!·.isEmptyGroup)) index →
        (∀ s ∈ o.candidates, ArgumentOffer ctx s) → fits o) :
    Looks ctx R (fun _ => True) (visitArguments ctx c) := by
  unfold visitArguments
  dsimp only
  split
  · next index hindex => exact looks_offerArgument _ _ _ (h index hindex)
  · exact .pure trivial

/-- An ampersand with nothing behind it. -/
theorem looks_pending (ampersand : Token) (span : Span)
    (h : Completion.Fit fits (atCaret ctx)) : Looks ctx R (fun _ => True) (call ctx (.mk ampersand none span)) := by
  rw [call]
  split
  · exact looks_offerGlobals h _ _
  · exact .pure trivial

theorem looks_visitTarget {r : VarRoot} (h : Welcomes ctx fits (assignedToken? r)) :
    Looks ctx R (fun _ => True) (visitTarget ctx r) := by
  unfold visitTarget
  split
  · next t ht =>
    split
    · next htouches =>
      exact (looks_offerVariables (h.token _ ht htouches) _ _).bind fun _ _ => .pure trivial
    · exact .pure trivial
  · split
    · exact (looks_offerVariables h.caret _ _).bind fun _ _ => .pure trivial
    · exact .pure trivial
  · exact .pure trivial

end Looks

/-! ## Looking over names -/

section Notes

variable {ctx : AssistContext} {R : Findings → Findings → Prop} {fits : Completion → Prop}

theorem looks_note (k : Issue.Kind) [Findings.Notes k R] (span : Span) (message : String) :
    Looks ctx R (fun _ => True) (note k span message) :=
  .modify fun f => Findings.Notes.note f span message

variable [Std.Refl R] [Trans R R R] [Findings.Takes fits R]

theorem looks_visitRoot [Findings.Notes .unknownVariable R] (kind : Option SuggestionKind)
    {r : VarRoot} (h : Welcomes ctx fits (assignedToken? r)) :
    Looks ctx R (fun _ => True) (visitRoot ctx kind r) := by
  unfold visitRoot
  split
  · split
    · next ht => exact looks_offerGlobals (h.token _ rfl ht) _ _
    · exact .pure trivial
  · split
    · exact looks_offerVariables h.caret _ _
    · exact .pure trivial
  · split
    · next ht => exact looks_offerVariables (h.token _ rfl ht) _ _
    · refine (looks_sees _).bind fun _ _ => ?_
      split
      · exact looks_note .unknownVariable _ _
      · exact .pure trivial
  · exact .pure trivial

theorem looks_reviewCallee [Findings.Notes .unknownCommand R] (v : Var) :
    Looks ctx R (fun _ => True) (reviewCallee ctx v) := by
  unfold reviewCallee
  split
  · refine (looks_sees _).bind fun _ _ => ?_
    split
    · exact looks_note .unknownCommand _ _
    · exact .pure trivial
  · exact .pure trivial

end Notes

/-! ## Looking over arguments -/

section Reviews

variable {ctx : AssistContext} {R : Findings → Findings → Prop} {fits : Completion → Prop}
variable [Std.Refl R] [Trans R R R] [Findings.Takes fits R] [Findings.Reviews R]

omit [Std.Refl R] [Trans R R R] in
theorem looks_remark {k : Issue.Kind} (hk : k ≠ .unknownCommand) (span : Span)
    (message : String) : Looks ctx R (fun _ => True) (note k span message) :=
  have := Findings.Reviews.note (R := R) hk
  looks_note k span message

theorem looks_known {step : Surround → Static α} (hE : ∀ s, (step s).EndlessOnly) :
    Looks ctx R (fun _ => True) (known ctx step) := by
  refine (looks_glimpse (P := fun _ => True) hE fun _ _ _ _ _ => trivial).bind fun _ _ => ?_
  refine Within.bind (.modify fun f => Findings.Reviews.heap f _) fun _ (_ : True) => ?_
  exact .pure trivial

theorem looks_value (e : Expression) : Looks ctx R (fun _ => True) (known ctx (Static.value · e)) :=
  looks_known (Static.endlessOnly_value · e)

omit [Findings.Reviews R] in
theorem looks_firstMissing (h : ctx.Shaped) (given position : Nat)
    (arguments : List ArgumentShape) :
    Looks ctx R (fun _ => True) (firstMissing given position arguments) := by
  induction arguments generalizing position with
  | nil => exact .pure trivial
  | cons a rest ih =>
    have hlater : ∀ required : Bool, Looks ctx R (fun _ => True) (do
        let later ← firstMissing given (position + 1) rest
        Pure.pure (if required && given ≤ position then some a else later) : Walk _) :=
      fun _ => (ih (position + 1)).bind fun _ _ => .pure trivial
    rw [firstMissing]
    dsimp only
    split
    · exact hlater false
    · exact Within.get.bind fun _ _ => (looks_orCrash h _).bind fun _ _ => hlater _

theorem looks_checkArgument (h : ctx.Shaped) (command : CommandShape) (index : Nat)
    (argument : Expression) : Looks ctx R (fun _ => True) (checkArgument ctx command index argument) := by
  unfold checkArgument
  split
  · exact .pure trivial
  · split
    · exact .pure trivial
    · refine (looks_value argument).bind fun v _ => ?_
      split
      · exact .pure trivial
      · refine Within.get.bind fun _ _ => (looks_orCrash h _).bind fun r _ => ?_
        split
        · exact (looks_orCrash h _).bind fun _ _ =>
            (looks_orCrash h _).bind fun _ _ => looks_remark (k := .typeMismatch) nofun _ _
        · exact .pure trivial

theorem looks_checkEach (h : ctx.Shaped) (command : CommandShape) (index : Nat)
    (arguments : List Expression) : Looks ctx R (fun _ => True) (checkEach ctx command index arguments) := by
  induction arguments generalizing index with
  | nil => exact .pure trivial
  | cons a rest ih =>
    exact (looks_checkArgument h command index a).bind fun _ _ => ih (index + 1)

omit [Findings.Reviews R] in
/-- A missing argument is noted, and those that are there are checked. -/
theorem looks_checkPresent [Findings.Notes .argumentCount R] (h : ctx.Shaped) (c : Command)
    {command : CommandShape} {arguments : List Expression}
    (heach : Looks ctx R (fun _ => True) (checkEach ctx command 0 arguments)) :
    Looks ctx R (fun _ => True) (do
      match ← firstMissing arguments.length 0 command.arguments with
      | none => Pure.pure ()
      | some a =>
        if !typingBehind ctx c.span then
          note .argumentCount c.callee.span ("Missing argument `" ++ a.name ++ "` for `" ++
            command.name ++ "`")
      checkEach ctx command 0 arguments : Walk Unit) := by
  refine (looks_firstMissing h _ _ _).bind fun a _ => ?_
  split
  · exact heach
  · split
    · exact (looks_note .argumentCount _ _).bind fun _ _ => heach
    · exact heach

omit [Findings.Reviews R] in
theorem looks_checkArguments [Findings.Notes .argumentCount R] (h : ctx.Shaped) (c : Command)
    {command : CommandShape} {arguments : List Expression}
    (heach : Looks ctx R (fun _ => True) (checkEach ctx command 0 arguments)) :
    Looks ctx R (fun _ => True) (checkArguments ctx c command arguments) := by
  have hpresent : Looks ctx R (fun _ => True) _ := looks_checkPresent h c heach
  unfold checkArguments
  dsimp only
  split
  · split
    · exact hpresent
    · exact (looks_note .argumentCount _ _).bind fun _ _ => hpresent
  · exact hpresent

theorem looks_reviewArguments (c : Command) :
    Looks ctx R (fun _ => True) (reviewArguments ctx c) := by
  have hnote : Findings.Notes .argumentCount R := Findings.Reviews.note nofun
  unfold reviewArguments
  split
  · next command hc =>
    obtain ⟨name, -, hname⟩ := Option.bind_eq_some_iff.1 hc
    have hshaped := shaped_of_commandShape hname
    exact looks_checkArguments hshaped _ (looks_checkEach hshaped _ _ _)
  · exact .pure trivial

end Reviews

/-! ## Quiet steps -/

section Quiet

/-- A step leaves the variables in sight alone, takes no issue back, offers what fits, and
has results with `P`. -/
abbrev Quiet (ctx : AssistContext) (fits : Completion → Prop) (P : α → Prop) (step : Walk α) :
    Prop :=
  Looks ctx (Findings.Grows fits) P step

/-- A quiet step with any result. -/
abbrev Calm (ctx : AssistContext) (fits : Completion → Prop) (step : Walk α) : Prop :=
  Quiet ctx fits (fun _ => True) step

variable {ctx : AssistContext} {fits : Completion → Prop} {P : α → Prop}

theorem quiet_note (k : Issue.Kind) (span : Span) (message : String) :
    Calm ctx fits (note k span message) :=
  looks_note k span message

theorem quiet_reviewCallee (v : Var) : Calm ctx fits (reviewCallee ctx v) :=
  looks_reviewCallee v

end Quiet

end Walk

end CommandScript
