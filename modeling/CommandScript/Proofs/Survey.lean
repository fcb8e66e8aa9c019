import CommandScript.Proofs.Walk
import CommandScript.Proofs.Fault
import CommandScript.Proofs.Scope
/-!
# CommandScript — the walk reports unknown commands

The walk keeps frames of variables while it goes over a text, and so knows at every
command which names are in sight there. Where it comes to an end it has reported each
command that the text calls without a name for it in sight (`surveys_block`).

Only the names of variables matter, and not what is known of their values. Inside a
block and behind it the frames around it have the same names as before, since a new
name always goes to the innermost frame.
-/

namespace CommandScript

variable {α β : Type}

namespace Findings

/-- The names that are in sight where the walk is. -/
def sight (ctx : AssistContext) (f : Findings) : Sight :=
  fun name => ctx.globals.has name || f.frames.any (·.has name)

/-- The names in each frame. -/
def scopes (f : Findings) : List Sight := f.frames.map fun vars name => vars.has name

/-- From some findings to later ones: no issue is taken back, and in all frames but the
innermost one the names are the same. -/
structure Leads (f f' : Findings) : Prop where
  issues : f.issues ⊆ f'.issues
  inner : f'.frames ≠ []
  outer : f'.scopes.tail = f.scopes.tail

theorem sight_eq (ctx : AssistContext) (f : Findings) :
    f.sight ctx = fun name => ctx.globals.has name || f.scopes.any (· name) := by
  funext name
  simp [sight, scopes, Function.comp_def]

theorem Leads.trans {f f' f'' : Findings} (h : f.Leads f') (h' : f'.Leads f'') : f.Leads f'' :=
  ⟨fun _ hi => h'.issues (h.issues hi), h'.inner, h'.outer.trans h.outer⟩

/-- The same names in all frames. -/
theorem Leads.of_scopes {f f' : Findings} (hissues : f.issues ⊆ f'.issues) (hf : f.frames ≠ [])
    (h : f'.scopes = f.scopes) : f.Leads f' := by
  refine ⟨hissues, fun hnil => hf ?_, by rw [h]⟩
  unfold scopes at h
  rw [hnil] at h
  exact List.map_eq_nil_iff.1 h.symm

end Findings

/-- The faults that are unknown commands are among some issues, in their places. -/
def Reported (faults : List Fault) (issues : List Issue) : Prop :=
  ∀ x ∈ faults, ∀ name, x.cause = .unknownCommand name →
    ∃ i ∈ issues, i.code = Issue.Kind.unknownCommand.code ∧ i.span = x.span

/-- No fault is an unknown command. -/
def NoneUnknown (faults : List Fault) : Prop :=
  ∀ x ∈ faults, ∀ name, x.cause ≠ .unknownCommand name

theorem Reported.later {faults : List Fault} {issues issues' : List Issue}
    (h : Reported faults issues) (hi : issues ⊆ issues') : Reported faults issues' := by
  intro x hx name hname
  obtain ⟨i, hmem, hcode⟩ := h x hx name hname
  exact ⟨i, hi hmem, hcode⟩

theorem Reported.append {xs ys : List Fault} {issues : List Issue} (hx : Reported xs issues)
    (hy : Reported ys issues) : Reported (xs ++ ys) issues := by
  intro x hmem
  obtain h | h := List.mem_append.1 hmem
  · exact hx x h
  · exact hy x h

theorem NoneUnknown.reported {faults : List Fault} (h : NoneUnknown faults) (issues : List Issue) :
    Reported faults issues :=
  fun x hx name hname => absurd hname (h x hx name)

theorem noneUnknown_nil : NoneUnknown [] := nofun

theorem noneUnknown_singleton {x : Fault} (h : ∀ name, x.cause ≠ .unknownCommand name) :
    NoneUnknown [x] := by
  intro y hy
  obtain rfl := List.mem_singleton.1 hy
  exact h

namespace Walk

section Surveys

variable (ctx : AssistContext)

/-- Where the names in sight are the known ones, a step that ends well has reported
some faults and has brought some names into sight. -/
def Surveys (known : Sight) (faults : List Fault) (names : List String) (step : Walk α) : Prop :=
  ∀ f : Findings, f.frames ≠ [] → f.sight ctx = known →
    step.Ends f (fun _ f' =>
      f.Leads f' ∧ f'.sight ctx = known.with names ∧ Reported faults f'.issues) (Excused ctx)

variable {ctx} {known : Sight} {xs ys : List Fault} {names more : List String}

theorem Within.surveys {P : α → Prop} {step : Walk α} (h : Quiet ctx (fun _ => True) P step)
    (hx : NoneUnknown xs) : Surveys ctx known xs [] step := by
  intro f hf hknown
  refine (h.ends f).imp fun a f' ⟨_, hgrows⟩ => ?_
  have hscopes : f'.scopes = f.scopes := by rw [Findings.scopes, hgrows.frames, Findings.scopes]
  refine ⟨.of_scopes hgrows.issues.subset hf hscopes, ?_, hx.reported _⟩
  rw [Sight.with_nil, ← hknown, Findings.sight_eq, hscopes, ← Findings.sight_eq]

theorem surveys_pure (a : α) : Surveys ctx known [] [] (pure a : Walk α) :=
  (Within.pure (P := fun _ => True) trivial).surveys noneUnknown_nil

/-- Two steps in a row; the second one has the names in sight that the first one
brings. -/
theorem Surveys.bind {x : Walk α} {g : α → Walk β} (hx : Surveys ctx known xs names x)
    (hg : ∀ a, Surveys ctx (known.with names) ys more (g a)) :
    Surveys ctx known (xs ++ ys) (names ++ more) (x >>= g) := by
  intro f hf hknown
  refine ends_bind.2 ((hx f hf hknown).imp fun a f' ⟨hleads, hsight, hreported⟩ => ?_)
  refine (hg a f' hleads.inner hsight).imp fun b f'' ⟨hleads', hsight', hreported'⟩ => ?_
  rw [Sight.with_append]
  exact ⟨hleads.trans hleads', hsight', (hreported.later hleads'.issues).append hreported'⟩

/-- Two steps in a row that bring no names into sight. -/
theorem Surveys.seq {x : Walk α} {g : α → Walk β} (hx : Surveys ctx known xs [] x)
    (hg : ∀ a, Surveys ctx known ys [] (g a)) : Surveys ctx known (xs ++ ys) [] (x >>= g) :=
  hx.bind fun a => (Sight.with_nil known).symm ▸ hg a

/-- A quiet step behind another one. -/
theorem Surveys.before {P : β → Prop} {x : Walk α} {g : α → Walk β}
    (hx : Surveys ctx known xs names x) (hg : ∀ a, Quiet ctx (fun _ => True) P (g a)) :
    Surveys ctx known xs names (x >>= g) := by
  have h := hx.bind fun a => (hg a).surveys noneUnknown_nil
  rwa [List.append_nil, List.append_nil] at h

/-- A quiet step before another one. -/
theorem Surveys.after {P : α → Prop} {x : Walk α} {g : α → Walk β} (hx : Quiet ctx (fun _ => True) P x)
    (hg : ∀ a, P a → Surveys ctx known ys names (g a)) : Surveys ctx known ys names (x >>= g) := by
  intro f hf hknown
  refine ends_bind.2 ((hx.ends f).imp fun a f' ⟨ha, hgrows⟩ => ?_)
  have hsight : f'.sight ctx = known := by
    rw [← hknown]
    unfold Findings.sight
    rw [hgrows.frames]
  refine (hg a ha f' (hgrows.frames ▸ hf) hsight).imp fun b f'' ⟨hleads, h⟩ =>
    ⟨⟨?_, hleads.inner, ?_⟩, h⟩
  · exact fun i hi => hleads.issues (hgrows.issues.subset hi)
  · rw [hleads.outer, Findings.scopes, hgrows.frames, Findings.scopes]

/-- Where no fault is an unknown command, there is nothing to report. -/
theorem Surveys.incomplete {step : Walk α} (h : Surveys ctx known xs names step)
    (hy : NoneUnknown ys) : Surveys ctx known ys names step :=
  fun f hf hknown => (h f hf hknown).imp fun _ _ ⟨hleads, hsight, _⟩ =>
    ⟨hleads, hsight, hy.reported _⟩

/-- A frame of variables around a step: what the step brings into sight goes with it. -/
theorem Surveys.framed {vars : Names Known} {inner : List String} {step : Walk Unit}
    (hvars : ∀ name, vars.has name = inner.contains name)
    (h : Surveys ctx (known.with inner) xs names step) :
    Surveys ctx known xs [] (framed vars step) := by
  intro f hf hknown
  refine ends_bind.2 (ends_modify.2 (ends_bind.2 ?_))
  have hsight : Findings.sight ctx { f with frames := vars :: f.frames } = known.with inner := by
    funext name
    unfold Findings.sight Sight.with
    rw [List.any_cons, hvars, ← hknown]
    unfold Findings.sight
    cases ctx.globals.has name <;> cases inner.contains name <;> simp
  refine (h _ (List.cons_ne_nil _ _) hsight).imp fun _ f' ⟨hleads, _, hreported⟩ => ?_
  refine ends_modify.2 ?_
  have hscopes : Findings.scopes { f' with frames := f'.frames.tail } = f.scopes := by
    have houter := hleads.outer
    unfold Findings.scopes at houter ⊢
    rw [List.map_tail, houter]
    rfl
  refine ⟨.of_scopes hleads.issues hf hscopes, ?_, hreported⟩
  rw [Sight.with_nil, ← hknown, Findings.sight_eq, hscopes, ← Findings.sight_eq]

/-- A frame without variables around a step. -/
theorem Surveys.framed_empty {step : Walk Unit} (h : Surveys ctx known xs names step) :
    Surveys ctx known xs [] (Walk.framed {} step) :=
  .framed (fun _ => rfl) ((Sight.with_nil known).symm ▸ h)

/-! ## Names come into sight -/

/-- A frame that has a name keeps its names where the name is assigned to. -/
theorem scopes_modify {name : String} {frames : List (Names Known)} {i : Nat} (v : Known)
    (hi : ∀ vars, frames[i]? = some vars → vars.has name = true) :
    (frames.modify i (·.insert name v)).map (fun vars n => vars.has n) =
      frames.map fun vars n => vars.has n := by
  refine List.ext_getElem? fun j => ?_
  rw [List.getElem?_map, List.getElem?_map, List.getElem?_modify]
  cases hj : frames[j]? with
  | none => rfl
  | some vars =>
    by_cases hij : i = j
    · subst hij
      have hhas : (fun n => decide (n = name) || vars.has n) = fun n => vars.has n := by
        funext n
        by_cases hn : n = name
        · simp [hn, hi vars hj]
        · simp [hn]
      simpa using hhas
    · simp [hij]

/-- Assigning to a name: it is in sight behind, and all frames but the innermost one have
the names they had. -/
theorem leads_defineIn (ctx : AssistContext) (name : String) (v : Known) {f : Findings} (hf : f.frames ≠ []) :
    f.Leads { f with frames := defineIn name v f.frames } ∧
      Findings.sight ctx { f with frames := defineIn name v f.frames } =
        (f.sight ctx).with [name] := by
  unfold defineIn
  cases hfind : f.frames.findIdx? (·.has name) with
  | some i =>
    obtain ⟨hlt, hi, -⟩ := List.findIdx?_eq_some_iff_getElem.1 hfind
    have hscopes : Findings.scopes { f with frames := f.frames.modify i (·.insert name v) } =
        f.scopes := by
      refine scopes_modify v fun vars hvars => ?_
      rw [List.getElem?_eq_getElem hlt] at hvars
      exact Option.some.inj hvars ▸ hi
    refine ⟨.of_scopes (List.Subset.refl _) hf hscopes, ?_⟩
    rw [Findings.sight_eq, hscopes, ← Findings.sight_eq]
    -- The name was in sight before.
    funext n
    have hname : f.frames.any (·.has name) = true :=
      List.any_eq_true.2 ⟨_, List.getElem_mem hlt, hi⟩
    by_cases hn : n = name
    · simp [Findings.sight, Sight.with, hn, hname]
    · simp [Sight.with, hn]
  | none =>
    obtain ⟨vars, rest, hframes⟩ := List.exists_cons_of_ne_nil hf
    dsimp only
    rw [hframes, List.modify_zero_cons]
    refine ⟨⟨List.Subset.refl _, List.cons_ne_nil _ _, ?_⟩, ?_⟩
    · simp [Findings.scopes, hframes]
    · funext n
      unfold Findings.sight Sight.with
      rw [hframes, List.any_cons, Names.has_insert]
      cases hg : ctx.globals.has n <;> by_cases hn : n = name <;> simp [hg, hn]

/-- What is called and is not in sight is reported. -/
theorem surveys_reviewCallee (v : Var) :
    Surveys ctx known (Faults.callee known v) [] (reviewCallee ctx v) := by
  unfold reviewCallee Faults.callee
  cases v.bareName? with
  | none => exact surveys_pure ()
  | some name =>
    dsimp only
    intro f hf hknown
    have hsees : (ctx.globals.has name || f.frames.any (·.has name)) = known name :=
      congrFun hknown name
    refine ends_bind.2 (show Ends (ite _ _ _) f _ _ from ?_)
    rw [hsees, Sight.with_nil]
    cases known name with
    | true => exact ⟨.of_scopes (List.Subset.refl _) hf rfl, hknown, noneUnknown_nil.reported _⟩
    | false =>
      refine ⟨.of_scopes (List.subset_cons_self _ _) hf rfl, hknown, fun x hx _ _ => ?_⟩
      obtain rfl := List.mem_singleton.1 hx
      exact ⟨_, List.mem_cons_self, rfl, rfl⟩

theorem surveys_define (r : VarRoot) (e : Option Expression) :
    Surveys ctx known [] r.defined (define ctx r e) := by
  have hassign : ∀ name, Surveys ctx known [] [name] (do
      let v ← Walk.known ctx (Static.valueOptional · e)
      modify fun f => { f with frames := defineIn name v f.frames } : Walk Unit) := by
    intro name
    refine Surveys.after (looks_known (Static.endlessOnly_valueOptional · e))
      fun v _ f hf hknown => ?_
    obtain ⟨hleads, hsight⟩ := leads_defineIn ctx name v hf
    exact ends_modify.2 ⟨hleads, hknown ▸ hsight, noneUnknown_nil.reported _⟩
  cases r with
  | bare t => exact hassign t.text
  | named dollar name span =>
    cases name with
    | none => exact surveys_pure ()
    | some t => exact hassign t.text
  | computed => exact surveys_pure ()

/-- Where there is something to offer at a target, its name is not computed. -/
theorem quiet_visitTarget_root (r : VarRoot) (known : Sight) :
    Quiet ctx (fun _ => True) (fun b => b = true → NoneUnknown (Faults.root known r))
      (visitTarget ctx r) := by
  have hquiet : Calm ctx (fun _ => True) (visitTarget ctx r) := looks_visitTarget (welcomes_true _)
  cases r with
  | bare t => exact hquiet.imp fun _ _ _ => noneUnknown_nil
  | named dollar name span =>
    cases name with
    | none => exact hquiet.imp fun _ _ _ => noneUnknown_singleton nofun
    | some t => exact hquiet.imp fun _ _ _ => noneUnknown_nil
  | computed dollar brackets e span => exact Within.pure nofun

/-! ## The walk -/

mutual

theorem surveys_expression : ∀ (e : Expression) (known : Sight),
    Surveys ctx known (Faults.expression known e) [] (expression ctx e)
  | .nil _, known | .boolean _, known | .number _, known | .string _, known => by
    rw [Faults.expression, expression]
    exact surveys_pure ()
  | .binary l _ r span, known => by
    rw [Faults.expression, expression]
    exact (surveys_expression l known).seq fun _ => surveys_optional r known span
  | .unary _ v span, known => by
    rw [Faults.expression, expression]
    exact surveys_optional v known span
  | .vector _ is _, known => by
    rw [Faults.expression, expression]
    exact surveys_items is known
  | .table _ fs _, known => by
    rw [Faults.expression, expression]
    exact surveys_fields fs known
  | .lambda b, known => by
    rw [Faults.expression, expression]
    exact surveys_body b known
  | .group _ none _, known => by
    rw [Faults.expression, expression, optional]
    exact surveys_pure ()
  | .group _ (some e) _, known => by
    rw [Faults.expression, expression, optional]
    exact surveys_expression e known
  | .var v, known => by
    rw [Faults.expression, expression]
    exact surveys_chain v (some .expression) known
  | .call c, known => by
    rw [Faults.expression, expression]
    exact surveys_call c known
  | .skipped k, known => by
    rw [Faults.expression, expression]
    exact (surveys_pure ()).incomplete (noneUnknown_singleton nofun)

theorem surveys_optional : ∀ (e : Option Expression) (known : Sight) (span : Span),
    Surveys ctx known (Faults.required known span e) [] (optional ctx e)
  | none, known, span => by
    rw [Faults.required, optional]
    exact (surveys_pure ()).incomplete (noneUnknown_singleton nofun)
  | some e, known, span => by
    rw [Faults.required, optional]
    exact surveys_expression e known

theorem surveys_item : ∀ (i : SeparatedItem Expression) (known : Sight),
    Surveys ctx known (Faults.item known i) [] (item ctx i)
  | ⟨v, _, span⟩, known => by
    rw [Faults.item, item]
    exact surveys_optional v known span

theorem surveys_items : ∀ (is : List (SeparatedItem Expression)) (known : Sight),
    Surveys ctx known (Faults.items known is) [] (items ctx is)
  | [], known => by
    rw [Faults.items, items]
    exact surveys_pure ()
  | i :: rest, known => by
    rw [Faults.items, items]
    exact (surveys_item i known).seq fun _ => surveys_items rest known

theorem surveys_field : ∀ (f : TableField) (known : Sight),
    Surveys ctx known (Faults.field known f) [] (field ctx f)
  | .named _ _ v span, known => by
    rw [Faults.field, field]
    exact surveys_optional v known span
  | .keyed _ k _ v span, known => by
    rw [Faults.field, field]
    exact (surveys_optional k known span).seq fun _ => surveys_optional v known span
  | .positional v _, known => by
    rw [Faults.field, field]
    exact surveys_expression v known

theorem surveys_fieldItem : ∀ (i : SeparatedItem TableField) (known : Sight),
    Surveys ctx known (Faults.fieldItem known i) [] (fieldItem ctx i)
  | ⟨none, _, _⟩, known => by
    rw [Faults.fieldItem, fieldItem]
    exact surveys_pure ()
  | ⟨some f, _, _⟩, known => by
    rw [Faults.fieldItem, fieldItem]
    exact surveys_field f known

theorem surveys_fields : ∀ (fs : List (SeparatedItem TableField)) (known : Sight),
    Surveys ctx known (Faults.fields known fs) [] (fields ctx fs)
  | [], known => by
    rw [Faults.fields, fields]
    exact surveys_pure ()
  | i :: rest, known => by
    rw [Faults.fields, fields]
    exact (surveys_fieldItem i known).seq fun _ => surveys_fields rest known

theorem surveys_body : ∀ (b : FunctionBody) (known : Sight),
    Surveys ctx known (Faults.body known b) [] (body ctx b)
  | .mk _ _ none _, known => by
    rw [Faults.body, body]
    exact surveys_pure ()
  | .mk bars ps (some b) span, known => by
    rw [Faults.body, body]
    obtain ⟨names, hbody⟩ :=
      surveys_bracedBody b (known.with (FunctionBody.mk bars ps none span).names)
    refine Surveys.framed (fun name => ?_) hbody
    rw [Names.has_foldl_insert (fun n => n) (fun _ => none), List.map_id', List.contains_eq_mem]
    exact Bool.or_false _

theorem surveys_bracedBody : ∀ (b : Braced) (known : Sight),
    ∃ names, Surveys ctx known (Faults.braced known b) names (bracedBody ctx b)
  | .mk _ b, known => by
    rw [Faults.braced, bracedBody]
    exact surveys_block b known

theorem surveys_root : ∀ (r : VarRoot) (kind : Option SuggestionKind) (known : Sight),
    Surveys ctx known (Faults.root known r) [] (root ctx kind r)
  | .bare t, kind, known => by
    simp only [Faults.root, root]
    exact (looks_visitRoot kind (welcomes_true _)).surveys noneUnknown_nil
  | .named dollar (some t) span, kind, known => by
    simp only [Faults.root, root]
    exact (looks_visitRoot kind (welcomes_true _)).surveys noneUnknown_nil
  | .named dollar none span, kind, known => by
    simp only [Faults.root, root]
    exact (looks_visitRoot kind (welcomes_true _)).surveys (noneUnknown_singleton nofun)
  | .computed _ _ e span, kind, known => by
    rw [Faults.root, root]
    exact surveys_optional e known span

theorem surveys_chain : ∀ (v : Var) (kind : Option SuggestionKind) (known : Sight),
    Surveys ctx known (Faults.chain known v) [] (chain ctx kind v)
  | .mk r ss span, kind, known => by
    rw [Faults.chain, chain]
    exact (surveys_root r kind known).seq fun _ => surveys_steps ss _ 0 known

theorem surveys_step : ∀ (s : VarSuffix) (v : Var) (n : Nat) (known : Sight),
    Surveys ctx known (Faults.suffix known s) [] (step ctx v n s)
  | .field period (some t) span, v, n, known => by
    simp only [Faults.suffix, step]
    exact (looks_visitSuffix v n (welcomes_true _)).surveys noneUnknown_nil
  | .field period none span, v, n, known => by
    simp only [Faults.suffix, step]
    exact (looks_visitSuffix v n (welcomes_true _)).surveys (noneUnknown_singleton nofun)
  | .index _ _ e span, v, n, known => by
    rw [Faults.suffix, step]
    exact surveys_optional e known span

theorem surveys_steps : ∀ (ss : List VarSuffix) (v : Var) (n : Nat) (known : Sight),
    Surveys ctx known (Faults.suffixes known ss) [] (steps ctx v n ss)
  | [], v, n, known => by
    rw [Faults.suffixes, steps]
    exact surveys_pure ()
  | s :: rest, v, n, known => by
    rw [Faults.suffixes, steps]
    exact (surveys_step s v n known).seq fun _ => surveys_steps rest v (n + 1) known

theorem surveys_arguments : ∀ (es : List Expression) (known : Sight),
    Surveys ctx known (Faults.arguments known es) [] (arguments ctx es)
  | [], known => by
    rw [Faults.arguments, arguments]
    exact surveys_pure ()
  | e :: rest, known => by
    rw [Faults.arguments, arguments]
    exact (surveys_expression e known).seq fun _ => surveys_arguments rest known

theorem surveys_command : ∀ (c : Command) (kind : Option SuggestionKind) (known : Sight),
    Surveys ctx known (Faults.command known c) [] (command ctx kind c)
  | .mk v es span, kind, known => by
    rw [Faults.command, command, List.append_assoc]
    exact (surveys_chain v kind known).seq fun _ => (surveys_reviewCallee v).seq fun _ =>
      Surveys.after (looks_visitArguments _ fun _ _ _ _ _ => trivial) fun _ _ =>
        (surveys_arguments es known).before fun _ => looks_reviewArguments _

theorem surveys_call : ∀ (c : Call) (known : Sight),
    Surveys ctx known (Faults.call known c) [] (call ctx c)
  | .mk ampersand none span, known => by
    rw [Faults.call]
    exact (looks_pending ampersand span (Completion.fit_true _)).surveys
      (noneUnknown_singleton nofun)
  | .mk _ (some c) _, known => by
    rw [Faults.call, call]
    exact surveys_command c (some .expression) known

theorem surveys_target : ∀ (v : Var) (e : Option Expression) (known : Sight),
    Surveys ctx known (Faults.chain known v) (if v.suffixes.isEmpty then v.root.defined else [])
      (target ctx e v)
  | .mk r [] span, e, known => by
    rw [Faults.chain, target, Faults.suffixes, List.append_nil]
    have hdefine : Surveys ctx known [] r.defined (define ctx r e) := surveys_define r e
    refine Surveys.after (quiet_visitTarget_root r known) fun b hb => ?_
    cases b with
    | true => exact hdefine.incomplete (hb rfl)
    | false =>
      have hroot := (surveys_computedRoot r known).bind fun _ =>
        (Sight.with_nil known).symm ▸ hdefine
      rwa [List.append_nil] at hroot
  | .mk r (s :: ss) span, e, known => by
    rw [Faults.chain, target]
    exact (surveys_root r (some .assign) known).seq fun _ => surveys_steps (s :: ss) _ 0 known

theorem surveys_computedRoot : ∀ (r : VarRoot) (known : Sight),
    Surveys ctx known (Faults.root known r) [] (computedRoot ctx r)
  | .bare _, known | .named _ (some _) _, known => by
    simp only [Faults.root, computedRoot]
    exact surveys_pure ()
  | .named _ none _, known => by
    simp only [Faults.root, computedRoot]
    exact (surveys_pure ()).incomplete (noneUnknown_singleton nofun)
  | .computed _ _ e span, known => by
    rw [Faults.root, computedRoot]
    exact surveys_optional e known span

theorem surveys_statement : ∀ (s : Statement) (known : Sight),
    Surveys ctx known (Faults.statement known s) s.defined (statement ctx s)
  | .command c, known => by
    rw [Faults.statement, statement]
    exact surveys_command c none known
  | .call c, known => by
    rw [Faults.statement, statement]
    exact surveys_call c known
  | .expression e, known => by
    rw [Faults.statement, statement]
    exact surveys_expression e known
  | .assign (.mk r [] whole) equals e span, known => by
    rw [Faults.statement, statement]
    exact (surveys_optional e known span).bind fun _ =>
      (Sight.with_nil known).symm ▸ surveys_target (.mk r [] whole) e known
  | .assign (.mk r (s :: ss) whole) equals e span, known => by
    rw [Faults.statement, statement]
    exact (surveys_optional e known span).seq fun _ =>
      surveys_target (.mk r (s :: ss) whole) e known
  | .conditional _ first others o _, known => by
    rw [Faults.statement, statement, List.append_assoc]
    exact (surveys_branch first known).seq fun _ => (surveys_elseIfs others known).seq fun _ =>
      surveys_otherwise o known
  | .whileLoop _ (some c) (some b) _, known => by
    rw [Faults.statement, statement]
    exact (surveys_condition (some c) known).seq fun _ => surveys_braced (some b) known
  | .whileLoop _ none b _, known => by
    simp only [Faults.statement, statement]
    exact ((surveys_condition none known).seq fun _ => surveys_braced b known).incomplete
      (noneUnknown_singleton nofun)
  | .whileLoop _ (some c) none _, known => by
    simp only [Faults.statement, statement]
    exact ((surveys_condition (some c) known).seq fun _ => surveys_braced none known).incomplete
      (noneUnknown_singleton nofun)
  | .forLoop _ (some c) (some e) span, known => by
    rw [Faults.statement, statement]
    exact (surveys_condition (some c) known).seq fun _ => surveys_optional (some e) known span
  | .forLoop _ none e span, known => by
    simp only [Faults.statement, statement]
    exact ((surveys_condition none known).seq fun _ => surveys_optional e known span).incomplete
      (noneUnknown_singleton nofun)
  | .forLoop _ (some c) none span, known => by
    simp only [Faults.statement, statement]
    exact ((surveys_condition (some c) known).seq fun _ =>
      surveys_optional none known span).incomplete (noneUnknown_singleton nofun)
  | .skipped k, known => by
    rw [Faults.statement, statement]
    exact (surveys_pure ()).incomplete (noneUnknown_singleton nofun)

theorem surveys_condition : ∀ (c : Option Condition) (known : Sight),
    Surveys ctx known (c.elim [] (Faults.condition known)) [] (condition ctx c)
  | none, known => by
    rw [condition]
    exact surveys_pure ()
  | some (.mk brackets e), known => by
    rw [Option.elim, Faults.condition, condition]
    exact surveys_optional e known _

theorem surveys_branch : ∀ (b : Branch) (known : Sight),
    Surveys ctx known (Faults.branch known b) [] (branch ctx b)
  | .mk none b span, known => by
    rw [Faults.branch, branch]
    exact ((surveys_condition none known).seq fun _ => surveys_braced b known).incomplete
      (noneUnknown_singleton nofun)
  | .mk (some c) none span, known => by
    rw [Faults.branch, branch]
    refine (surveys_condition (some c) known).seq fun _ => ?_
    exact (surveys_braced none known).incomplete (noneUnknown_singleton nofun)
  | .mk (some c) (some b) _, known => by
    rw [Faults.branch, branch]
    exact (surveys_condition (some c) known).seq fun _ => surveys_braced (some b) known

theorem surveys_elseIf : ∀ (e : ElseIf) (known : Sight),
    Surveys ctx known (Faults.elseIf known e) [] (elseIf ctx e)
  | .mk _ b _, known => by
    rw [Faults.elseIf, elseIf]
    exact surveys_branch b known

theorem surveys_elseIfs : ∀ (es : List ElseIf) (known : Sight),
    Surveys ctx known (Faults.elseIfs known es) [] (elseIfs ctx es)
  | [], known => by
    rw [Faults.elseIfs, elseIfs]
    exact surveys_pure ()
  | e :: rest, known => by
    rw [Faults.elseIfs, elseIfs]
    exact (surveys_elseIf e known).seq fun _ => surveys_elseIfs rest known

theorem surveys_otherwise : ∀ (o : Option Otherwise) (known : Sight),
    Surveys ctx known (Faults.otherwise known o) [] (otherwise ctx o)
  | none, known => by
    rw [Faults.otherwise, otherwise]
    exact surveys_pure ()
  | some (.mk _ none span), known => by
    rw [Faults.otherwise, otherwise, braced]
    exact (surveys_pure ()).incomplete (noneUnknown_singleton nofun)
  | some (.mk _ (some b) _), known => by
    rw [Faults.otherwise, otherwise]
    exact surveys_braced (some b) known

theorem surveys_braced : ∀ (b : Option Braced) (known : Sight),
    Surveys ctx known (b.elim [] (Faults.braced known)) [] (braced ctx b)
  | none, known => by
    rw [braced]
    exact surveys_pure ()
  | some (.mk _ b), known => by
    obtain ⟨names, hblock⟩ := surveys_block b known
    rw [Option.elim, Faults.braced, braced]
    exact hblock.framed_empty

theorem surveys_statements : ∀ (ss : List Statement) (known : Sight),
    Surveys ctx known (Faults.statements known ss) (ss.flatMap (·.defined)) (statements ctx ss)
  | [], known => by
    rw [Faults.statements, statements]
    exact surveys_pure ()
  | s :: rest, known => by
    rw [Faults.statements, statements, List.flatMap_cons]
    exact (surveys_statement s known).bind fun _ => surveys_statements rest _

theorem surveys_last : ∀ (l : LastStatement) (known : Sight),
    Surveys ctx known (Faults.last known l) [] (last ctx l)
  | .return _ vs _, known => by
    rw [Faults.last, last]
    exact surveys_items vs known
  | .break _, known | .continue _, known => by
    simp only [Faults.last, last]
    exact surveys_pure ()

theorem surveys_block : ∀ (b : Block) (known : Sight),
    ∃ names, Surveys ctx known (Faults.block known b) names (block ctx b)
  | .mk ss none _, known => by
    rw [Faults.block, block]
    exact ⟨_, surveys_statements ss known⟩
  | .mk ss (some l) _, known => by
    rw [Faults.block, block]
    exact ⟨_, (surveys_statements ss known).bind fun _ => surveys_last l _⟩

end

end Surveys

end Walk

end CommandScript
