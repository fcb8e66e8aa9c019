import CommandScript.Proofs.Loose
import CommandScript.Proofs.Visits
import CommandScript.Proofs.Walk
import CommandScript.Assist.Assistance
import CommandScript.Host.Recorder
/-!
# CommandScript — the caret hides issues

Where someone is typing, some issues are held back: a variable that is not known yet, an
argument that is still missing, a value that only begins like the one that is expected.
Nothing is reported because of the caret. So what is found with a caret somewhere in the text
is part of what is found without one (`issues_sublist`).

Two walks are compared, visit by visit. They go through the same heap and the same variables
in sight, for what is offered at the caret changes neither. The walk with the caret may be
given up, since it looks at more: it describes shapes, and it goes on with a loose match where
an exact one has failed. What it had collected by then is part of the other walk's issues
all the same.
-/

namespace CommandScript

variable {α β : Type} {E : Crash → Prop}

/-- Of two states of a walk, the second one has the same heap and variables in sight, and
some of the issues. -/
structure Findings.Veils (f g : Findings) : Prop where
  heap : g.heap = f.heap
  frames : g.frames = f.frames
  issues : g.issues.Sublist f.issues

theorem Findings.Veils.alike {f g g' : Findings} (h : f.Veils g) (h' : g.Alike g') : f.Veils g' :=
  ⟨h'.heap.trans h.heap, h'.frames.trans h.frames, h'.issues ▸ h.issues⟩

theorem Findings.Veils.later {f f' g : Findings} (h : f.Veils g) (hheap : f'.heap = f.heap)
    (hframes : f'.frames = f.frames) (hissues : f.issues <:+ f'.issues) : f'.Veils g :=
  ⟨h.heap.trans hheap.symm, h.frames.trans hframes.symm, h.issues.trans hissues.sublist⟩

namespace Walk

/-- Where a step ends well, another one notes no more than it does: it ends with the same
result, the same heap and the same variables, or it crashes. -/
def Veils (x y : Walk α) : Prop :=
  ∀ f g, f.Veils g → ∀ a f', x f = (.ok a, f') → f.issues <:+ f'.issues ∧
    (∀ b g', y g = (.ok b, g') → b = a ∧ f'.Veils g') ∧
    ∀ c g', y g = (.error c, g') → g'.issues.Sublist f'.issues

namespace Veils

theorem sublist {x y : Walk α} {f g : Findings} {a : α} (h : Veils x y) (hfg : f.Veils g)
    (hx : (x f).1 = .ok a) : (y g).2.issues.Sublist (x f).2.issues := by
  obtain ⟨-, hends, hcrashes⟩ := h f g hfg a (x f).2 (Prod.ext hx rfl)
  rcases hy : y g with ⟨c | b, g'⟩
  · exact hcrashes c g' hy
  · exact (hends b g' hy).2.issues

theorem pure (a : α) : Veils (pure a) (pure a) := by
  intro f g h b f' hx
  cases hx
  refine ⟨List.suffix_rfl, fun b g' hy => ?_, nofun⟩
  cases hy
  exact ⟨rfl, h⟩

theorem orCrash (r : Except Crash α) : Veils (orCrash r) (orCrash r) := by
  cases r with
  | ok a => exact pure a
  | error c => exact fun _ _ _ _ _ hx => by cases hx

theorem bind {x y : Walk α} {k l : α → Walk β} (h : Veils x y) (hk : ∀ a, Veils (k a) (l a)) :
    Veils (x >>= k) (y >>= l) := by
  intro f g hfg b f' hx
  rw [apply_bind] at hx
  rcases hxf : x f with ⟨c | a, f₁⟩ <;> rw [hxf] at hx
  · cases hx
  obtain ⟨hgrows, hends, hcrashes⟩ := h f g hfg a f₁ hxf
  rw [apply_bind]
  rcases hyg : y g with ⟨c | a', g₁⟩
  · -- the other step is over, and only more issues can be found here
    obtain ⟨hgrows', -, -⟩ := hk a f₁ f₁ ⟨rfl, rfl, List.Sublist.refl _⟩ b f' hx
    refine ⟨hgrows.trans hgrows', nofun, fun c' g' hy => ?_⟩
    cases hy
    exact (hcrashes c g₁ hyg).trans hgrows'.sublist
  · obtain ⟨rfl, hveils⟩ := hends a' g₁ hyg
    obtain ⟨hgrows', hends', hcrashes'⟩ := hk a' f₁ g₁ hveils b f' hx
    exact ⟨hgrows.trans hgrows', hends', hcrashes'⟩

/-- What is read off the findings is the same for both. -/
theorem get {k l : Findings → Walk β} (h : ∀ f g, f.Veils g → Veils (k f) (l g)) :
    Veils (MonadState.get >>= k) (MonadState.get >>= l) :=
  fun f g hfg => h f g hfg f g hfg

theorem modify {change : Findings → Findings} (hissues : ∀ f, (change f).issues = f.issues)
    (h : ∀ f g, f.Veils g → (change f).Veils (change g)) :
    Veils (modify change : Walk PUnit) (modify change) := by
  intro f g hfg a f' hx
  cases hx
  refine ⟨hissues f ▸ List.suffix_rfl, fun b g' hy => ?_, nofun⟩
  cases hy
  exact ⟨rfl, h f g hfg⟩

theorem frames (change : List (Names Known) → List (Names Known)) :
    Veils (MonadState.modifyGet fun f => (⟨⟩, { f with frames := change f.frames }) : Walk PUnit)
      (MonadState.modifyGet fun f => (⟨⟩, { f with frames := change f.frames })) :=
  .modify (fun _ => rfl) fun _ _ h => ⟨h.heap, congrArg change h.frames, h.issues⟩

theorem note (k : Issue.Kind) (span : Span) (message : String) :
    Veils (note k span message) (note k span message) := by
  intro f g hfg a f' hx
  cases hx
  refine ⟨List.suffix_cons _ _, fun b g' hy => ?_, nofun⟩
  cases hy
  exact ⟨rfl, hfg.heap, hfg.frames, hfg.issues.cons_cons _⟩

/-- An issue is held back. -/
theorem held (k : Issue.Kind) (span : Span) (message : String) :
    Veils (Walk.note k span message) (Pure.pure ()) := by
  intro f g hfg a f' hx
  cases hx
  refine ⟨List.suffix_cons _ _, fun b g' hy => ?_, nofun⟩
  cases hy
  exact ⟨rfl, hfg.heap, hfg.frames, hfg.issues.cons _⟩

/-- An issue is noted under a condition, or held back. -/
theorem held_ite (b : Bool) (k : Issue.Kind) (span : Span) (message : String) :
    Veils (if b then Walk.note k span message else Pure.pure ()) (Pure.pure ()) := by
  cases b with
  | true => exact held k span message
  | false => exact pure ()

theorem note_ite (b : Bool) (k : Issue.Kind) (span : Span) (message : String) :
    Veils (if b then Walk.note k span message else Pure.pure ())
      (if b then Walk.note k span message else Pure.pure ()) := by
  cases b with
  | true => exact note k span message
  | false => exact pure ()

/-- Where the one step crashes there is nothing to say. -/
theorem crashed (c : Crash) (k : α → Walk β) (y : Walk β) :
    Veils (Walk.orCrash (.error c) >>= k) y :=
  fun _ _ _ _ _ hx => by cases hx

/-- Only the one step looks for something first. -/
theorem looked {x : Walk α} {P : α → Prop} {k : α → Walk β} {y : Walk β}
    (hx : Within Findings.Alike E P x) (h : ∀ a, Veils (k a) y) : Veils (x >>= k) y := by
  intro f g hfg b f' hf
  have halike := (hx f).1
  rw [apply_bind] at hf
  rcases hxf : x f with ⟨c | a, f₁⟩ <;> rw [hxf] at hf halike
  · cases hf
  · obtain ⟨hheap, hframes, hissues⟩ := halike
    rw [← hissues]
    exact h a f₁ g (hfg.later hheap hframes (hissues ▸ List.suffix_rfl)) b f' hf

/-- Where the other step crashes, it has noted nothing. -/
theorem fails {x : Walk Unit} (h : Veils x (Pure.pure ())) (c : Crash) (k : α → Walk Unit) :
    Veils x (Walk.orCrash (.error c) >>= k) := by
  intro f g hfg a f' hx
  obtain ⟨hgrows, hends, -⟩ := h f g hfg a f' hx
  obtain ⟨-, hveils⟩ := hends () g rfl
  refine ⟨hgrows, fun b g' hy => ?_, fun c' g' hy => ?_⟩ <;> cases hy
  exact hveils.issues

/-- A step that only offers something is as good as none. -/
theorem offering {x y : Walk Unit} {P : Unit → Prop}
    (h : Veils x (Pure.pure ())) (hy : Within Findings.Alike E P y) : Veils x y := by
  intro f g hfg a f' hx
  obtain ⟨hgrows, hends, -⟩ := h f g hfg a f' hx
  obtain ⟨-, hveils⟩ := hends () g rfl
  have halike := (hy g).1
  refine ⟨hgrows, fun b g' hyg => ?_, fun c g' hyg => ?_⟩ <;> rw [hyg] at halike
  · exact ⟨rfl, hveils.alike halike⟩
  · exact halike.issues ▸ hveils.issues

end Veils

/-! ## Steps that are the same with the caret and without it -/

section Visits

variable {ctx : AssistContext}

theorem veils_sees (name : String) : Veils (sees name) (sees name) :=
  .get fun _ _ h => h.frames ▸ .pure _

theorem veils_known (step : Surround → Static α) : Veils (known ctx step) (known ctx step) := by
  have hglimpse : Veils (glimpse ctx step) (glimpse ctx step) := by
    refine .bind (.get fun _ _ h => h.frames ▸ .pure _) fun s => .get fun _ _ h => ?_
    rw [h.heap]
    exact .orCrash _
  refine hglimpse.bind fun r => .bind (.modify (fun _ => rfl) fun f g h => ?_) fun _ => .pure _
  exact ⟨rfl, h.frames, h.issues⟩

theorem veils_firstMissing (given position : Nat) (arguments : List ArgumentShape) :
    Veils (firstMissing given position arguments) (firstMissing given position arguments) := by
  induction arguments generalizing position with
  | nil => exact .pure _
  | cons a rest ih =>
    have hlater (required : Bool) : Veils (do
        let later ← firstMissing given (position + 1) rest
        Pure.pure (if required && given ≤ position then some a else later) : Walk _) (do
        let later ← firstMissing given (position + 1) rest
        Pure.pure (if required && given ≤ position then some a else later)) :=
      (ih (position + 1)).bind fun _ => .pure _
    rw [firstMissing]
    dsimp only
    split
    · exact hlater false
    · refine .get fun _ _ h => ?_
      rw [h.heap]
      exact .bind (.orCrash _) fun _ => hlater _

theorem veils_reviewCallee (v : Var) : Veils (reviewCallee ctx v) (reviewCallee ctx v) := by
  unfold reviewCallee
  split
  · exact (veils_sees _).bind fun _ => .note_ite _ _ _ _
  · exact .pure ()

theorem veils_define (r : VarRoot) (e : Option Expression) :
    Veils (define ctx r e) (define ctx r e) := by
  unfold define
  split
  · exact .pure ()
  · next t _ => exact (veils_known _).bind fun v => .frames (defineIn t.text v)

/-! ## What is done with the caret and without it -/

/-- The context without a caret. -/
def bare (ctx : AssistContext) : AssistContext := { ctx with caret := -1 }

theorem not_le_caret_bare (n : Nat) : ¬ (n : Int) ≤ (bare ctx).caret := by
  simp only [bare]
  omega

theorem ne_caret_bare (n : Nat) : (n : Int) ≠ (bare ctx).caret :=
  fun h => not_le_caret_bare n (Int.le_of_eq h)

theorem touches_bare (s : Span) : s.touches (bare ctx).caret = false := by
  simp [Span.touches, not_le_caret_bare]

theorem typingBehind_bare (s : Span) : typingBehind (bare ctx) s = false := by
  simp [typingBehind, not_le_caret_bare]

theorem argumentAtCaret_bare (c : Command) (arguments : List Expression) :
    argumentAtCaret (bare ctx) c arguments = none := by
  have hbefore : (bare ctx).caret ≤ c.callee.span.stop :=
    Int.le_of_not_le (not_le_caret_bare c.callee.span.stop)
  simp [argumentAtCaret, hbefore]

/-- A value that has to match exactly without the caret may have to match loosely with it. -/
theorem veils_matching {s : Shape} (hs : s.isPlain = true) (h : Heap) (v : Value) (exact : Bool)
    {told : Walk Unit} (htold : Veils told told) (hheld : Veils told (pure ())) :
    Veils (do if (← orCrash (s.matchWith h true v)).isNone then told)
      (do if (← orCrash (s.matchWith h exact v)).isNone then told) := by
  cases exact with
  | true =>
    refine .bind (.orCrash _) fun r => ?_
    split
    · exact htold
    · exact .pure ()
  | false =>
    have hfollows := Shape.follows_matchWith (h := h) s v hs
    cases hexact : s.matchWith h true v with
    | error c => exact .crashed c _ _
    | ok r =>
      rw [hexact] at hfollows
      cases hloose : s.matchWith h false v with
      | error c =>
        refine .fails ?_ c _
        cases r with
        | none => exact hheld
        | some path => exact .pure ()
      | ok r' =>
        rw [hloose] at hfollows
        cases r with
        | some path =>
          cases r' with
          | some path' => exact .pure ()
          | none => exact absurd (hfollows rfl false rfl) (by simp)
        | none =>
          cases r' with
          | some path' => exact hheld
          | none => exact htold

/-- The shapes that arguments of a command are matched against are plain. -/
def PlainArguments (command : CommandShape) : Prop :=
  ∀ index spec s, command.argument? index = some spec → spec.shape = some s → s.isPlain = true

theorem isPlain_of_plainArguments {l : List ArgumentShape} (h : Shape.plainArguments l = true) :
    ∀ a ∈ l, ∀ s, a.shape = some s → s.isPlain = true := by
  induction l with
  | nil => nofun
  | cons a rest ih =>
    obtain ⟨name, description, shape, variadic⟩ := a
    rw [Shape.plainArguments, Bool.and_eq_true] at h
    intro b hb s hs
    rcases List.mem_cons.1 hb with rfl | hb
    · obtain rfl : shape = some s := hs
      exact h.1
    · exact ih h.2 b hb s hs

theorem plainArguments_of_isPlain {s : Shape} {command : CommandShape} (h : s.isPlain = true)
    (hs : s.command? = some command) : PlainArguments command := by
  intro index spec t hspec ht
  cases s with
  | command c =>
    obtain rfl : c = command := Option.some.inj hs
    obtain ⟨name, description, arguments⟩ := c
    refine isPlain_of_plainArguments (l := arguments) ?_ spec ?_ t ht
    · simpa [Shape.isPlain, Shape.plainCommand] using h
    · unfold CommandShape.argument? at hspec
      split at hspec
      · next a ha =>
        cases hspec
        exact List.mem_of_getElem? ha
      · exact List.mem_of_getLast? (Option.eq_some_of_filter_eq_some hspec)
  | _ => cases hs

variable {command : CommandShape}

theorem veils_checkArgument (hplain : PlainArguments command) (index : Nat)
    (argument : Expression) :
    Veils (checkArgument (bare ctx) command index argument)
      (checkArgument ctx command index argument) := by
  unfold checkArgument
  cases hspec : command.argument? index with
  | none => exact .pure ()
  | some spec =>
    dsimp only
    cases hs : spec.shape with
    | none => exact .pure ()
    | some s =>
      refine .bind (veils_known (Static.value · argument)) fun v => ?_
      cases v with
      | none => exact .pure ()
      | some v =>
        refine .get fun _ _ h => ?_
        rw [h.heap, touches_bare]
        refine veils_matching (hplain index spec s hspec hs) _ v _ ?_ ?_
        · exact .bind (.orCrash _) fun type => .bind (.orCrash _) fun got => .note _ _ _
        · have hlook (r : Except Crash String) :
              Within Findings.Alike (fun _ => True) (fun _ => True) (orCrash r) :=
            .orCrash (fun _ _ => trivial) fun _ _ => trivial
          exact .looked (hlook _) fun type => .looked (hlook _) fun got => .held _ _ _

theorem veils_checkEach (hplain : PlainArguments command) (index : Nat)
    (arguments : List Expression) :
    Veils (checkEach (bare ctx) command index arguments) (checkEach ctx command index arguments) := by
  induction arguments generalizing index with
  | nil => exact .pure ()
  | cons a rest ih => exact (veils_checkArgument hplain index a).bind fun _ => ih (index + 1)

variable (ctx) in
/-- That an argument is missing is not said while someone types behind the command. -/
theorem veils_checkPresent (hplain : PlainArguments command) (c : Command)
    (arguments : List Expression) : Veils (do
      match ← firstMissing arguments.length 0 command.arguments with
      | none => Pure.pure ()
      | some a =>
        if !typingBehind (bare ctx) c.span then
          note .argumentCount c.callee.span ("Missing argument `" ++ a.name ++ "` for `" ++
            command.name ++ "`")
      checkEach (bare ctx) command 0 arguments : Walk Unit) (do
      match ← firstMissing arguments.length 0 command.arguments with
      | none => Pure.pure ()
      | some a =>
        if !typingBehind ctx c.span then
          note .argumentCount c.callee.span ("Missing argument `" ++ a.name ++ "` for `" ++
            command.name ++ "`")
      checkEach ctx command 0 arguments) := by
  have heach : Veils (checkEach (bare ctx) command 0 arguments) (checkEach ctx command 0 arguments) :=
    veils_checkEach hplain 0 arguments
  refine (veils_firstMissing _ _ _).bind fun a => ?_
  cases a with
  | none => exact heach
  | some a =>
    dsimp only
    rw [typingBehind_bare]
    cases typingBehind ctx c.span with
    | true => exact .bind (.held _ _ _) fun _ => heach
    | false => exact .bind (.note _ _ _) fun _ => heach

theorem veils_checkArguments (hplain : PlainArguments command) (c : Command)
    (arguments : List Expression) :
    Veils (checkArguments (bare ctx) c command arguments) (checkArguments ctx c command arguments) := by
  have hpresent : Veils _ _ := veils_checkPresent ctx hplain c arguments
  unfold checkArguments
  dsimp only
  split
  · split
    · exact hpresent
    · exact .bind (.note _ _ _) fun _ => hpresent
  · exact hpresent

/-! ## Visits -/

variable (ctx) in
/-- No shape of a global has an exact test of its own. -/
def PlainGlobals : Prop :=
  ∀ name s, ctx.globalShapes.get? name = some s → s.shape.isPlain = true

theorem veils_reviewArguments (h : PlainGlobals ctx) (c : Command) :
    Veils (reviewArguments (bare ctx) c) (reviewArguments ctx c) := by
  unfold reviewArguments
  rw [show commandShape (bare ctx) = commandShape ctx from rfl]
  cases hc : c.callee.bareName?.bind (commandShape ctx) with
  | none => exact .pure ()
  | some command =>
    obtain ⟨name, -, hname⟩ := Option.bind_eq_some_iff.1 hc
    obtain ⟨s, hs, hcommand⟩ := Option.bind_eq_some_iff.1 hname
    exact veils_checkArguments (plainArguments_of_isPlain (h name s hs) hcommand) c _

theorem veils_visitRoot (kind : Option SuggestionKind) (r : VarRoot) :
    Veils (visitRoot (bare ctx) kind r) (visitRoot ctx kind r) := by
  have hoffer (t : Token) : Looks ctx Findings.Alike (fun _ => True)
      (offerVariables ctx t.span t.text kind) :=
    looks_offerVariables (Completion.fit_true _) _ _
  cases r with
  | bare t =>
    simp only [visitRoot, touches_bare, Bool.false_eq_true, if_false]
    split
    · exact .offering (.pure ())
        (looks_offerGlobals (Completion.fit_true _) _ _)
    · exact .pure ()
  | named dollar name span =>
    cases name with
    | none =>
      simp only [visitRoot, ne_caret_bare, if_false]
      split
      · exact .offering (.pure ())
          (looks_offerVariables (Completion.fit_true _) _ _)
      · exact .pure ()
    | some t =>
      simp only [visitRoot, touches_bare, Bool.false_eq_true, if_false]
      split
      · -- at the caret it is not said that the variable is unknown
        have hsees : Looks ctx Findings.Alike (fun _ => True) (sees t.text) := looks_sees t.text
        exact .offering (.looked hsees fun _ => .held_ite _ _ _ _) (hoffer t)
      · exact (veils_sees _).bind fun _ => .note_ite _ _ _ _
  | computed => exact .pure ()

/-- **A visit with the caret notes no more than one without it.** -/
theorem veils_visit (h : PlainGlobals ctx) (v : Visit) : Veils (visit (bare ctx) v) (visit ctx v) := by
  cases v with
  | root kind r => exact veils_visitRoot kind r
  | suffix v n s =>
    have hnone : visit (bare ctx) (.suffix v n s) = pure () := by
      cases s with
      | field period name span =>
        cases name <;> simp [visit, visitSuffix, touches_bare, ne_caret_bare]
      | index => rfl
    rw [hnone]
    exact .offering (.pure ()) (looks_visitSuffix v n (welcomes_true _))
  | callee v => exact veils_reviewCallee v
  | «arguments» c =>
    have hnone : visit (bare ctx) (.arguments c) = pure () := by
      simp [visit, visitArguments, argumentAtCaret_bare]
    rw [hnone]
    exact .offering (.pure ()) (looks_visitArguments c
      fun _ _ _ _ _ => trivial)
  | review c => exact veils_reviewArguments h c
  | pending ampersand span =>
    have hnone : visit (bare ctx) (.pending ampersand span) = pure () := by
      simp [visit, call, ne_caret_bare]
    rw [hnone]
    exact .offering (.pure ()) (looks_pending ampersand span (Completion.fit_true _))
  | target r =>
    have hnone : visit (bare ctx) (.target r) = pure () := by
      cases r with
      | bare t => simp [visit, visitTarget, assignedToken?, touches_bare]
      | named dollar name span =>
        cases name <;>
          simp [visit, visitTarget, assignedToken?, touches_bare, ne_caret_bare]
      | computed => rfl
    rw [hnone]
    exact .offering (.pure ()) ((looks_visitTarget (welcomes_true _)).bind
      fun _ _ => .pure (P := fun _ => True) trivial)
  | define r e => exact veils_define r e
  | enter names => exact .frames (names.foldl (fun t n => t.insert n none) {} :: ·)
  | leave => exact .frames List.tail

theorem veils_visitAll (h : PlainGlobals ctx) (vs : List Visit) :
    Veils (visitAll (bare ctx) vs) (visitAll ctx vs) := by
  induction vs with
  | nil => exact .pure ()
  | cons v rest ih => exact (veils_visit h v).bind fun _ => ih

theorem veils_block (h : PlainGlobals ctx) (b : Block) :
    Veils (framed {} (block (bare ctx) b)) (framed {} (block ctx b)) := by
  rw [block_eq_visitAll, block_eq_visitAll]
  exact .bind (.frames ({} :: ·)) fun _ => (veils_visitAll h _).bind fun _ => .frames List.tail

end Visits

end Walk

/-! ## Texts -/

theorem eq_ok_of_isOk {ε : Type} {r : Except ε Unit} (h : r.isOk = true) : r = .ok () := by
  cases r with
  | ok => rfl
  | error => cases h

variable {σ : Type}

/-- The walk over a text from where a machine stands: how it ends, and what it finds till
then. -/
def Vm.walk (vm : Vm σ) (text : String) (caret : Int) (options : AssistOptions) :
    Except Crash Unit × Findings :=
  let walk : Walk Unit := match (parse text Limit.nesting).block with
    | some b => Walk.framed {} (Walk.block (Assist.context vm text.toList caret options) b)
    | none => pure ()
  walk { heap := vm.state.heap, frames := [Assist.varsInSight vm] }

/-- The issues that the walk collects, in order. -/
def Vm.collected (vm : Vm σ) (text : String) (caret : Int) (options : AssistOptions) :
    List Issue :=
  (vm.walk text caret options).2.issues.reverse

/-- No shape that a machine checks arguments against has an exact test of its own. -/
def Vm.Plain (vm : Vm σ) : Prop :=
  ∀ name s, vm.globalShapes.get? name = some s → s.shape.isPlain = true

/-- What is collected with a caret is part of what is collected without one. -/
theorem collected_sublist {vm : Vm σ} (hplain : vm.Plain) {text : String} {options : AssistOptions}
    (h : (vm.walk text (-1) options).1 = .ok ()) (caret : Int) :
    (vm.collected text caret options).Sublist (vm.collected text (-1) options) := by
  refine List.Sublist.reverse ?_
  unfold Vm.walk at h ⊢
  cases hparse : (parse text Limit.nesting).block with
  | none => exact .refl _
  | some b =>
    rw [hparse] at h
    have hglobals : Walk.PlainGlobals (Assist.context vm text.toList caret options) := hplain
    exact (Walk.veils_block hglobals b).sublist ⟨rfl, rfl, .refl _⟩ h

namespace Assist

variable {ctx : AssistContext} {f : Findings}

theorem looks_atStatementStart :
    Walk.Looks ctx Findings.Alike (fun _ => True) (atStatementStart ctx) := by
  unfold atStatementStart
  dsimp only
  split
  · exact (Walk.looks_globalCandidates none).bind fun _ _ => .pure trivial
  · exact .pure trivial

/-- Issues are those that were collected, and perhaps one more at the end that says that the
walk was given up. -/
def UpTo (collected issues : List Issue) : Prop :=
  issues = collected ∨ ∃ i, i.code = Issue.Kind.analysisTooDeep.code ∧ issues = collected ++ [i]

theorem walked_upTo (b : Block) :
    (walked ctx b).Ends f (fun _ f' => UpTo (Walk.framed {} (Walk.block ctx b) f).2.issues.reverse
      f'.issues.reverse) fun _ => True := by
  unfold Walk.Ends walked
  rcases Walk.framed {} (Walk.block ctx b) f with ⟨c | ⟨⟩, f'⟩
  · cases c with
    | endless => exact .inr ⟨.of .analysisTooDeep b.span, rfl, List.reverse_cons⟩
    | _ => trivial
  · exact .inl rfl

/-- What is found is what the walk has collected. -/
theorem upTo_of_findings {vm : Vm σ} {text : String} {caret : Int} {options : AssistOptions}
    {completion : Option Completion} {found : List Issue}
    (h : findings vm (context vm text.toList caret options) (parse text Limit.nesting) =
      .ok (completion, found)) : UpTo (vm.collected text caret options) found := by
  have hstart (f : Findings) : (atStatementStart (context vm text.toList caret options)).Ends f
      (fun _ f' => f'.issues = f.issues) fun _ => True :=
    (looks_atStatementStart.ends f).mono (fun _ _ h => h.2.issues) fun _ _ => trivial
  unfold findings at h
  unfold Vm.collected Vm.walk
  cases hblock : (parse text Limit.nesting).block with
  | none =>
    rw [hblock] at h
    refine Walk.Ends.of_handed (Q := fun _ issues => UpTo _ issues) ?_ h
    refine Walk.ends_bind.2 (Walk.ends_get.2 ?_)
    exact (hstart _).imp fun _ f' hf' => .inl (congrArg _ hf')
  | some b =>
    rw [hblock] at h
    refine Walk.Ends.of_handed (Q := fun _ issues => UpTo _ issues) ?_ h
    refine Walk.ends_bind.2 ((walked_upTo b).imp fun _ f' hf' =>
      Walk.ends_bind.2 (Walk.ends_get.2 ?_))
    cases f'.completion with
    | none => exact (hstart f').imp fun _ f'' hf'' => by rw [hf'']; exact hf'
    | some c => exact hf'

end Assist

/-- **The caret hides issues and adds none.** If the walk over a text without a caret comes to
its end, what is collected with a caret anywhere in the text is part of what is collected
without one, in the same order, up to where the walk with the caret ends. So it is with the
issues that help tells of, beside those of reading the text and the one that says that the
walk was given up. -/
theorem issues_sublist {vm : Vm σ} (hplain : vm.Plain) {text : String} {options : AssistOptions}
    (h : (vm.walk text (-1) options).1 = .ok ()) (caret : Int) :
    (vm.collected text caret options).Sublist (vm.collected text (-1) options) ∧
      ∀ a, vm.assist text caret options = .ok a → ∃ l found,
        l.Sublist (vm.collected text (-1) options) ∧ Assist.UpTo l found ∧
          a.issues = Issue.sort ((parse text Limit.nesting).issues ++ found) := by
  refine ⟨collected_sublist hplain h caret, fun a ha => ?_⟩
  let k : Int := max 0 (min caret text.toList.length)
  unfold Vm.assist at ha
  dsimp only at ha
  cases hr : Assist.findings vm (Assist.context vm text.toList k options)
      (parse text Limit.nesting) with
  | error c =>
    rw [hr] at ha
    cases ha
  | ok r =>
    rw [hr] at ha
    obtain ⟨completion, found⟩ := r
    refine ⟨vm.collected text k options, found, collected_sublist hplain h k,
      Assist.upTo_of_findings hr, ?_⟩
    cases completion <;> cases ha <;> rfl

/-- A machine whose only shape is that of a command with one argument. -/
def Recorder.shaped (state : State Recorder) (s : Shape) : Vm Recorder where
  state
  globalShapes := ⟨[("record", ⟨.command (.mk "record" none [.mk "what" "" (some s) false]), 0⟩)]⟩

theorem Recorder.plain_shaped {state : State Recorder} {s : Shape} (hs : s.isPlain = true) :
    (shaped state s).Plain := by
  intro name t ht
  obtain ⟨e, he, rfl⟩ := Option.map_eq_some_iff.1 ht
  obtain rfl := List.mem_singleton.1 (List.mem_of_find?_eq_some he)
  simpa [Shape.isPlain, Shape.plainCommand, Shape.plainArguments, Shape.plainOptional] using hs

/-- While a text is typed that begins like the one that is expected, nothing is said of it. -/
theorem issues_sublist_typing :
    let vm := Recorder.shaped Recorder.ready (.literal (.string "alpha"))
    let text := "record \"al\"\nrecord $y"
    let hidden := vm.collected text 9 {}
    let all := vm.collected text (-1) {}
    vm.Plain ∧ (vm.walk text (-1) {}).1 = .ok () ∧ hidden.Sublist all ∧
      hidden.length = 1 ∧ all.length = 2 := by
  intro vm text hidden all
  have hplain : vm.Plain := Recorder.plain_shaped rfl
  have hends : (vm.walk text (-1) {}).1 = .ok () := eq_ok_of_isOk (by decide +kernel)
  obtain ⟨hsublist, -⟩ := issues_sublist hplain hends 9
  exact ⟨hplain, hends, hsublist, by decide +kernel, by decide +kernel⟩

/-- **What is found only at the caret.** A table that contains itself does not match, and that
cannot be said, for it cannot be shown: the walk is given up. At the caret it matches loosely,
and the walk goes on to an unknown command. -/
theorem collected_beyond :
    let cyclic : State Recorder := { Recorder.ready with
      heap := { tables := #[⟨[(.string "self", .table 0)]⟩] }
      frames := Frames.first.set 0 "t" (.table 0) }
    let vm := Recorder.shaped cyclic
      (.table (some ⟨[(.string "name", .literal (.string "x"))]⟩) none none none)
    let text := "record $t\nnope"
    vm.Plain ∧ (vm.walk text (-1) {}).1.isOk = false ∧ (vm.walk text 9 {}).1.isOk = true ∧
      ¬ (vm.collected text 9 {}).Sublist (vm.collected text (-1) {}) := by
  intro cyclic vm text
  exact ⟨Recorder.plain_shaped rfl, by decide +kernel, by decide +kernel, by decide +kernel⟩

end CommandScript
