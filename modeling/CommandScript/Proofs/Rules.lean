import CommandScript.Proofs.Discipline
import CommandScript.Proofs.Scope
/-!
# CommandScript — the rules under a discipline

Every rule of the evaluator keeps to a discipline, if what it asks for inside
itself does (`Discipline.Obeys`). There is one lemma for each rule, in the order of
the rules; `obeys_rule` puts them together, and `obeys_run` closes the circle by
induction on the budget.
-/

namespace CommandScript

namespace Discipline

open Exec

variable {σ : Type} {K : Discipline σ} {host : Host σ}
variable {self : String → (t : Task σ) → Exec σ t.Result} {source : String}
variable {s : State σ} {known : Sight}

/-- What is asked of everything that is evaluated. -/
structure Obeys (K : Discipline σ) (eval : String → (t : Task σ) → Exec σ t.Result) : Prop where
  value : ∀ {source s known e}, K.Fine s → K.Covers s known →
    K.Permits (Faults.expression known e) → K.Calm s K.region.Holds (eval source (.value e))
  body : ∀ {source s known b}, K.Fine s → K.Covers s known → K.Permits (Faults.block known b) →
    K.Drifting s (fun _ => True) (eval source (.body b))
  call : ∀ {source s a arguments}, K.Fine s → K.region.lambda a → K.region.Held arguments →
    K.Calm s K.region.Held (eval source (.call a arguments false))
  loop : ∀ {source s a arguments}, K.Fine s → K.region.lambda a → K.region.Held arguments →
    K.Tidy s (fun _ => True) (eval source (.call a arguments true))
  reply : ∀ {source s r}, K.Fine s → r.Follows K.Fine K.Rel K.region.Holds s →
    (eval source (.reply r)).Ends s (fun v t => K.region.Holds v ∧ K.Fine t ∧ K.Rel s t)
      (fun e t => K.Answers e t ∧ K.Rel s t)

section Rules

variable (hK : K.Laws host) (ho : K.Obeys self)

include hK

/-! ## Values and containers -/

theorem calm_shown (hs : K.Fine s) (v : Value) : K.Calm s (fun _ => True) (Eval.shown v) := by
  refine .get (.orCrash hK hs ?_ fun _ _ => trivial)
  refine (s.heap.format_crashesOnly v).mono fun c hc => ?_
  obtain rfl | rfl := hc
  · exact .endless
  · exact .tooManyDigits

/-- A failure that shows a value. -/
theorem calm_shownFail {α : Type} {P : α → Prop} (hs : K.Fine s) (v : Value)
    {cause : String → Cause} (span : Span) (hc : ∀ text, (cause text).isOfTree = false) :
    K.Calm s P (do fail (cause (← Eval.shown v)) span : Exec σ α) :=
  (calm_shown hK hs v).bind hK fun text _ _ ht _ => .fail hK ht (hc text)

theorem calm_operated {span : Span} {r : Except OperatorFault Value} (hs : K.Fine s)
    (hr : ∀ v, r = .ok v → K.region.Holds v) (hc : ∀ c, r = .error (.crashed c) → c.Own) :
    K.Calm s K.region.Holds (Eval.operated span r : Exec σ Value) := by
  obtain ⟨_ | c⟩ | v := r
  · exact .fail hK hs rfl
  · exact .crash hK hs (hc c rfl)
  · exact .pure hK hs (hr v rfl)

theorem calm_tableKey (hs : K.Fine s) (key : Value) (span : Span) :
    K.Calm s (·.isKey = true) (Eval.tableKey key span : Exec σ Value) := by
  unfold Eval.tableKey
  split
  · exact .fail hK hs rfl
  · split
    · next hk => exact .pure hK hs hk
    · exact .fail hK hs rfl

theorem calm_vectorIndex (hs : K.Fine s) (key : Value) (span : Span) :
    K.Calm s (fun _ => True) (Eval.vectorIndex key span : Exec σ Int) := by
  unfold Eval.vectorIndex
  split
  · split
    · exact .pure hK hs trivial
    · exact calm_shownFail hK hs _ span fun _ => rfl
  · exact calm_shownFail hK hs _ span fun _ => rfl

/-- The field of something that only the host knows how to look into. -/
theorem calm_objectField (hs : K.Fine s) {container : Value} (hc : K.region.Holds container)
    (key : Value) (span : Span) :
    K.Calm s K.region.Holds (match key with
      | .string name =>
        if name.startsWith "_" then fail (.privateField name) span
        else match container with
          | .object o => return host.field o name (← get)
          | .tuple a => return ((TupleMethod.ofName? name).map (.method a)).getD .nil
          | _ => return .nil
      | key => fail (.objectKey key.kind) span : Exec σ Value) := by
  split
  · next name =>
    split
    · exact .fail hK hs rfl
    · cases container with
      | object o => exact .get (.pure hK hs (hK.field o name hs))
      | tuple a =>
        refine .pure hK hs ?_
        cases TupleMethod.ofName? name with
        | none => trivial
        | some m => exact hc
      | _ => exact .pure hK hs trivial
  · exact .fail hK hs rfl

theorem calm_index (hs : K.Fine s) {container : Value} (hc : K.region.Holds container)
    (key : Value) (span : Span) :
    K.Calm s K.region.Holds (Eval.index host container key span) := by
  cases container with
  | nil => exact calm_shownFail hK hs key span fun _ => rfl
  | table a =>
    have hget : K.Calm s K.region.Holds (do
        let key ← Eval.tableKey key span
        return (((← get).heap.table a).get? key).getD .nil : Exec σ Value) :=
      (calm_tableKey hK hs key span).bind hK fun k t _ ht _ =>
        .get (.pure hK ht ((hK.table ht hc).get k))
    cases key with
    | nil => exact .pure hK hs trivial
    | _ => exact hget
  | vector a =>
    refine (calm_vectorIndex hK hs key span).bind hK fun i t _ ht _ => ?_
    split
    · exact .get (.pure hK ht ((hK.vector ht hc).getD _))
    · exact .pure hK ht trivial
  | string _ | bool _ | number _ => exact .fail hK hs rfl
  | tuple _ | lambda _ | command _ | object _ | method _ _ =>
    exact calm_objectField hK hs hc key span

/-- What is shared is changed by an assignment, as variables are. -/
theorem ends_setIndex (hs : K.Fine s) {container value : Value} (hc : K.region.Holds container)
    (hv : K.region.Holds value) (key : Value) (span : Span) :
    (Eval.setIndex container key value span : Exec σ Unit).Ends s
      (fun _ t => True ∧ K.Fine t ∧ K.Drift s t) (fun e t => K.Stops e t ∧ K.Drift s t) := by
  have hfail : ∀ {t : State σ} {cause : Cause}, K.Fine t → cause.isOfTree = false →
      (fail cause span : Exec σ Unit).Ends t (fun _ u => True ∧ K.Fine u ∧ K.Drift t u)
        (fun e u => K.Stops e u ∧ K.Drift t u) :=
    fun ht hcause => (Calm.fail hK ht hcause).drift hK
  cases container with
  | nil => exact (calm_shownFail hK hs key span fun _ => rfl).drift hK
  | table a =>
    refine ends_seq (R := K.Drift) hK.drift_trans ((calm_tableKey hK hs key span).drift hK)
      fun k t hk ht _ => ends_modify.2 ⟨trivial, ?_⟩
    have htable := hK.table ht hc
    dsimp only
    split
    · exact hK.setTable ht hc (htable.erase k) (.forget k)
    · next hnil =>
      exact hK.setTable ht hc (htable.insert (Region.holds_of_isKey hk) hv) (.put hk hnil)
  | vector a =>
    refine ends_seq (R := K.Drift) hK.drift_trans ((calm_vectorIndex hK hs key span).drift hK)
      fun i t _ ht _ => ends_bind.2 (ends_get.2 ?_)
    have hitems := hK.vector ht hc
    dsimp only
    split
    · exact ends_modify.2 ⟨trivial, hK.setVector ht hc (hitems.set _ hv)⟩
    · split
      · refine ends_modify.2 ⟨trivial, hK.setVector ht hc (hitems.append ?_)⟩
        exact Region.held_cons.2 ⟨hv, Region.held_nil⟩
      · split
        · exact hfail ht rfl
        · exact (Calm.crash hK ht .tooManyDigits).drift hK
  | _ => exact hfail hs rfl

/-! ## Variables -/

include ho

theorem calm_required (hs : K.Fine s) (hn : K.Covers s known) {e : Option Expression} {span : Span}
    (hf : K.Permits (Faults.required known span e)) :
    K.Calm s K.region.Holds (Eval.required self source e span) := by
  cases e with
  | none =>
    simp only [Faults.required, permits_cons] at hf
    exact .fault hK hs hf.1
  | some e =>
    simp only [Faults.required] at hf
    exact ho.value hs hn hf

theorem calm_rootName (hs : K.Fine s) (hn : K.Covers s known) {r : VarRoot}
    (hf : K.Permits (Faults.root known r)) :
    K.Calm s (fun name => ∀ n ∈ r.defined, n = name) (Eval.rootName self source r) := by
  cases r with
  | bare t => exact .pure hK hs fun _ => List.mem_singleton.1
  | named dollar name span =>
    cases name with
    | none =>
      simp only [Faults.root, permits_cons] at hf
      exact .fault hK hs hf.1
    | some t => exact .pure hK hs fun _ => List.mem_singleton.1
  | computed dollar brackets inner span =>
    simp only [Faults.root] at hf
    refine (calm_required hK ho hs hn hf).bind hK fun v t _ ht _ => ?_
    split
    · exact .pure hK ht fun n hn => absurd hn List.not_mem_nil
    · exact .fail hK ht rfl

theorem calm_rootValue (hs : K.Fine s) (hn : K.Covers s known) {r : VarRoot}
    (hf : K.Permits (Faults.root known r)) :
    K.Calm s K.region.Holds (Eval.rootValue self source r) := by
  have hlocal : ∀ {t}, K.Fine t → K.Rel s t → K.Calm t K.region.Holds (do
      let name ← Eval.rootName self source r
      return (← get).frames.get (← get).scope name) := fun ht hst =>
    (calm_rootName hK ho ht (hn.later hK hst) hf).bind hK fun name u _ hu _ =>
      .get (.get (.pure hK hu (hK.get name hu)))
  cases r with
  | bare t =>
    have hglobal : K.Calm s (· = s.globals.get? t.text)
        (pure (s.globals.get? t.text) : Exec σ (Option Value)) := .pure hK hs rfl
    refine .get (hglobal.bind hK fun o u hu ht hst => ?_)
    cases o with
    | some v => exact .pure hK ht (hK.globals hs t.text v hu.symm)
    | none => exact hlocal ht hst
  | named _ _ _ | computed _ _ _ _ =>
    have hnone : K.Calm s (· = none) (pure none : Exec σ (Option Value)) := .pure hK hs rfl
    refine hnone.bind hK fun o u hu ht hst => ?_
    cases hu
    exact hlocal ht hst

theorem calm_suffixKey (hs : K.Fine s) (hn : K.Covers s known) {x : VarSuffix}
    (hf : K.Permits (Faults.suffix known x)) :
    K.Calm s K.region.Holds (Eval.suffixKey self source x) := by
  cases x with
  | field period name span =>
    cases name with
    | none =>
      simp only [Faults.suffix, permits_cons] at hf
      exact .fault hK hs hf.1
    | some t => exact .pure hK hs trivial
  | index period brackets inner span =>
    simp only [Faults.suffix] at hf
    exact calm_required hK ho hs hn hf

theorem calm_followSuffixes {xs : List VarSuffix} {v : Value} (hs : K.Fine s)
    (hn : K.Covers s known) (hf : K.Permits (Faults.suffixes known xs)) (hv : K.region.Holds v) :
    K.Calm s K.region.Holds (Eval.followSuffixes host self source xs v) := by
  induction xs generalizing v s with
  | nil => exact .pure hK hs hv
  | cons x rest ih =>
    simp only [Faults.suffixes, permits_append] at hf
    refine (calm_suffixKey hK ho hs hn hf.1).bind hK fun key t _ ht hst => ?_
    refine (calm_index hK ht hv key x.span).bind hK fun w u hw hu htu => ?_
    exact ih hu ((hn.later hK hst).later hK htu) hf.2 hw

theorem calm_varValue (hs : K.Fine s) (hn : K.Covers s known) {v : Var}
    (hf : K.Permits (Faults.chain known v)) :
    K.Calm s K.region.Holds (Eval.varValue host self source v) := by
  obtain ⟨r, xs, span⟩ := v
  simp only [Faults.chain, permits_append] at hf
  refine (calm_rootValue hK ho hs hn hf.1).bind hK fun w t hw ht hst => ?_
  exact calm_followSuffixes hK ho ht (hn.later hK hst) hf.2 hw

/-- An assignment to a step of a chain is a matter of the container. -/
theorem ends_assignStep (hs : K.Fine s) (hn : K.Covers s known) {target : Var} {value : Value}
    {last : VarSuffix} (hlast : target.suffixes.getLast? = some last)
    (hf : K.Permits (Faults.chain known target)) (hv : K.region.Holds value) :
    (Eval.assign host self source target value).Ends s
      (fun _ t => True ∧ K.Fine t ∧ K.Drift s t) (fun e t => K.Stops e t ∧ K.Drift s t) := by
  obtain ⟨r, xs, whole⟩ := target
  obtain ⟨ys, rfl⟩ := List.getLast?_eq_some_iff.1 hlast
  simp only [Faults.chain, Faults.suffixes_append, Faults.suffixes, permits_append] at hf
  unfold Eval.assign
  simp only [Var.suffixes, Var.root, List.getLast?_concat, List.dropLast_concat]
  refine ends_seq (R := K.Drift) hK.drift_trans ((calm_rootValue hK ho hs hn hf.1).drift hK)
    fun root t hr ht hst => ?_
  have hnt := hn.drift hK hst
  refine ends_seq (R := K.Drift) hK.drift_trans
    ((calm_followSuffixes hK ho ht hnt hf.2.1 hr).drift hK) fun c u hc hu htu => ?_
  have hnu := hnt.drift hK htu
  refine ends_seq (R := K.Drift) hK.drift_trans
    ((calm_suffixKey hK ho hu hnu hf.2.2.1).drift hK) fun key w _ hw _ => ?_
  exact ends_setIndex hK hw hc hv key last.span

/-- Behind an assignment, the name it assigned to is in sight. -/
theorem calm_assign (hs : K.Fine s) (hn : K.Covers s known) {target : Var} {value : Value}
    (hf : K.Permits (Faults.chain known target)) (hv : K.region.Holds value) (equals : Token)
    (e : Option Expression) (span : Span) :
    (Eval.assign host self source target value).Ends s
      (fun _ t => True ∧ (K.Fine t ∧ ∀ name ∈ (Statement.assign target equals e span).defined,
        K.Sees t name) ∧ K.Drift s t)
      (fun e t => K.Stops e t ∧ K.Drift s t) := by
  obtain ⟨r, xs, whole⟩ := target
  cases hx : xs.getLast? with
  | none =>
    rw [List.getLast?_eq_none_iff] at hx
    subst hx
    simp only [Faults.chain, permits_append] at hf
    refine ends_seq (R := K.Drift) hK.drift_trans ((calm_rootName hK ho hs hn hf.1).drift hK)
      fun name t hname ht _ => ?_
    obtain ⟨hu, htu, hsees⟩ := hK.assign name ht hv
    exact ⟨trivial, ⟨hu, fun n hnr => hname n hnr ▸ hsees⟩, htu⟩
  | some last =>
    have hdefined : (Statement.assign (.mk r xs whole) equals e span).defined = [] := by
      cases xs with
      | nil => cases hx
      | cons x rest => rfl
    have hlast : (Var.mk r xs whole).suffixes.getLast? = some last := hx
    refine Exec.Ends.imp (ends_assignStep hK ho hs hn hlast hf hv) fun _ t ht => ?_
    rw [hdefined]
    exact ⟨trivial, ⟨ht.2.1, fun _ hn => absurd hn List.not_mem_nil⟩, ht.2.2⟩

/-! ## Calls -/

/-- The body of a lambda, in the frame of its call. -/
theorem drifting_lambdaBody (source : String) (hs : K.Fine s) {a : Address} (ha : K.region.lambda a)
    {closure : Closure} (hc : s.heap.lambdas[a]? = some closure) {arguments : List Value}
    (harg : K.region.Held arguments) :
    let b := Bracket.lambda (σ := σ) closure.frame (Bracket.parameters closure.body.names arguments)
    K.Respects s b ∧ K.Drifting (b.enter s) (fun _ => True) (match closure.body.block with
      | some b => self source (.body b.block)
      | none => pure () : Exec σ Unit) := by
  obtain ⟨hb, known, hn, hf⟩ := hK.lambda hs ha hc (Bracket.held_parameters closure.body.names harg)
    (Bracket.has_parameters closure.body.names arguments)
  refine ⟨hb, ?_⟩
  obtain ⟨⟨bars, ps, block, span⟩, frame, origin⟩ := closure
  cases block with
  | none => exact ((Calm.pure hK hb.enter trivial).tidy hK).drifting hK
  | some braced =>
    obtain ⟨brackets, block⟩ := braced
    simp only [Faults.body, Faults.braced] at hf
    exact ho.body hb.enter hn hf

omit ho in
/-- What a body does in the frame of a call, it does for the one who calls; what goes
on without end there is a failure of the call. -/
theorem ends_calling {outer : FrameId} {vars : Names Value} {body : Exec σ Unit} {span : Span}
    (hb : K.Respects s (.lambda outer vars))
    (hbody : K.Drifting ((Bracket.lambda outer vars).enter s) (fun _ => True) body) :
    (finishing
      (tryCatch (within (s.frames.child outer true).1 body) fun
        | .crashed .endless => fail .endless span
        | e => throw e)
      fun s => { s with depth := s.depth - 1 }).Ends
      { s with
        frames := (s.frames.child outer true).2.setVars (s.frames.child outer true).1 vars
        depth := s.depth + 1 }
      (fun _ t => K.Loose t ∧ K.Rel s t) (fun e t => K.Stops e t ∧ K.Rel s t) := by
  simp only [ends_finishing, ends_tryCatch, ends_within]
  refine Exec.Ends.mono hbody (fun _ t ht => ⟨hb.loose ht.2.2 ht.2.1, hb.rel ht.2.2⟩)
    fun e t het => ?_
  obtain ⟨ht, hst⟩ := het
  have hleave := hb.rel hst
  split
  · refine ends_fail.2 ⟨?_, hleave⟩
    have hfailed : K.Stops (.failed ⟨.endless, some span, t.calls.reverse⟩) t :=
      hK.failed (hK.fine_of_crashed ht) fun h => absurd h Bool.false_ne_true
    exact hb.stops (t := t) hst hfailed
  · exact ends_throw.2 ⟨hb.stops (t := t) hst ht, hleave⟩

/-- What is taken up behind a call of a lambda. -/
def valuesOfCall (loop : Bool) : Exec σ (List Value) := do
  match (← get).pending with
  | none => pure []
  | some p =>
    if loop then return []
    modify fun s => { s with pending := none }
    match p.statement with
    | .return .. => return p.values
    | other => fail (.leavesLambda other.token.text) other.span

omit ho in
theorem ends_valuesOfCall (hs : K.Loose s) :
    (valuesOfCall false).Ends s (fun vs t => K.region.Held vs ∧ K.Fine t ∧ K.Rel s t)
      (fun e t => K.Stops e t ∧ K.Rel s t) := by
  refine ends_bind.2 (ends_get.2 ?_)
  split
  · next hp => exact ⟨Region.held_nil, hK.fine_of_loose hs hp, hK.rel_refl s⟩
  · next p hp =>
    obtain ⟨ht, hst⟩ := hK.settle hs
    refine ends_bind.2 (ends_modify.2 ?_)
    split
    · exact ⟨hK.pending hs hp, ht, hst⟩
    · exact ends_fail.2 ⟨hK.failed ht fun h => absurd h Bool.false_ne_true, hst⟩

omit hK ho in
/-- A loop leaves everything on its way. -/
theorem ends_valuesOfCall_true {Q : List Value → State σ → Prop} {E : Stop → State σ → Prop} :
    (valuesOfCall true).Ends s Q E ↔ Q [] s := by
  refine ends_bind.trans (ends_get.trans ?_)
  split <;> exact Iff.rfl

/-- A call of a lambda: the body in its frame, and what is taken up behind it. -/
theorem ends_callLambda (hs : K.Fine s) {a : Address} (ha : K.region.lambda a)
    {arguments : List Value} (harg : K.region.Held arguments) {loop : Bool}
    {Q : List Value → State σ → Prop} (hnone : Q [] s)
    (hvalues : ∀ t, K.Loose t → K.Rel s t → (valuesOfCall loop).Ends t Q
      (fun e t => K.Stops e t ∧ K.Rel s t)) :
    (Eval.callLambda self source a arguments loop).Ends s Q
      (fun e t => K.Stops e t ∧ K.Rel s t) := by
  refine ends_bind.2 (ends_get.2 ?_)
  cases hc : s.heap.lambdas[a]? with
  | none => exact ends_pure.2 hnone
  | some closure =>
    obtain ⟨hb, hbody⟩ := drifting_lambdaBody hK ho source hs ha hc harg
    dsimp only
    split
    · refine ends_bind.2 (ends_fail.2 ⟨hK.failed hs nofun, hK.rel_refl s⟩)
    · refine ends_bind.2 (ends_set.2 (ends_bind.2 ?_))
      exact (ends_calling hK hb hbody).imp fun _ t ⟨ht, hst⟩ => hvalues t ht hst

theorem calm_callLambda (hs : K.Fine s) {a : Address} (ha : K.region.lambda a)
    {arguments : List Value} (harg : K.region.Held arguments) :
    K.Calm s K.region.Held (Eval.callLambda self source a arguments false) := by
  refine ends_callLambda hK ho hs ha harg ⟨Region.held_nil, hs, hK.rel_refl s⟩ fun t ht hst => ?_
  exact (ends_valuesOfCall hK ht).mono
    (fun _ _ ⟨hv, hu, htu⟩ => ⟨hv, hu, hK.rel_trans hst htu⟩)
    fun _ _ ⟨hu, htu⟩ => ⟨hu, hK.rel_trans hst htu⟩

theorem tidy_callLambda (hs : K.Fine s) {a : Address} (ha : K.region.lambda a)
    {arguments : List Value} (harg : K.region.Held arguments) :
    K.Tidy s (fun _ => True) (Eval.callLambda self source a arguments true) :=
  ends_callLambda hK ho hs ha harg ⟨trivial, hK.loose_of_fine hs, hK.rel_refl s⟩
    fun _ ht hst => ends_valuesOfCall_true.2 ⟨trivial, ht, hst⟩

omit ho in
/-- Several values as one. -/
theorem keeps_unpacked (hs : K.Fine s) {vs : List Value} (hv : K.region.Held vs) :
    K.Keeps s (s.heap.unpacked vs) := by
  match vs with
  | [] => exact ⟨trivial, hs, hK.rel_refl s⟩
  | [v] => exact ⟨(Region.held_cons.1 hv).1, hs, hK.rel_refl s⟩
  | _ :: _ :: _ => exact hK.newTuple hs hv

omit ho in
/-- One value as several. -/
theorem held_packed (hs : K.Fine s) {v : Value} (hv : K.region.Holds v) :
    K.region.Held (s.heap.packed v) := by
  cases v with
  | nil => exact Region.held_nil
  | tuple a => exact hK.tuple hs hv
  | _ => exact Region.held_cons.2 ⟨hv, Region.held_nil⟩

/-- What a call for the host is asked for. -/
def Answered (K : Discipline σ) (s : State σ) (step : Exec σ Value) : Prop :=
  step.Ends s (fun v t => K.region.Holds v ∧ K.Fine t ∧ K.Rel s t)
    (fun e t => K.Answers e t ∧ K.Rel s t)

omit ho in
theorem Calm.answered {step : Exec σ Value} (h : K.Calm s K.region.Holds step) :
    K.Answered s step := by
  refine Exec.Ends.mono h (fun _ _ => id) fun e t ⟨ht, hst⟩ => ⟨?_, hst⟩
  cases e with
  | crashed c => exact hK.fine_of_crashed ht
  | _ => exact ht

theorem answered_callForHost (hs : K.Fine s) {f : Value} {arguments : List Value}
    (hf : K.region.Holds f) (harg : K.region.Held arguments) :
    K.Answered s (Eval.callForHost host self source f arguments) := by
  cases f with
  | lambda a =>
    refine Calm.answered hK (.get ?_)
    refine (ho.call hs hf harg).bind hK fun vs t hv ht _ => ?_
    exact .make (keeps_unpacked hK ht hv)
  | command name => exact ends_bind.2 (ends_get.2 (ho.reply hs (hK.reply name arguments hs harg)))
  | method a m =>
    refine ends_bind.2 (ends_get.2 ?_)
    cases hm : m.answer s.heap a arguments with
    | ok v => exact ends_orCrash_ok.2 ⟨Region.holds_answer hm, hs, hK.rel_refl s⟩
    | error c => exact ends_orCrash_error.2 ⟨hs, hK.rel_refl s⟩
  | _ => exact ends_crash.2 ⟨hs, hK.rel_refl s⟩

/-- A reply is followed to its end, call by call. -/
theorem answered_follow (hs : K.Fine s) {r : Reply σ}
    (hr : r.Follows K.Fine K.Rel K.region.Holds s) :
    K.Answered s (r.follow (Eval.callForHost host self source)) := by
  induction hr with
  | value ht hst hv => exact ends_bind.2 (ends_set.2 (ends_pure.2 ⟨hv, ht, hst⟩))
  | crash ht hst => exact ends_bind.2 (ends_set.2 (ends_crash.2 ⟨ht, hst⟩))
  | call ht hst hf harg _ ih =>
    refine ends_follow_call.2 ?_
    refine (answered_callForHost hK ho ht hf harg).mono (fun v u ⟨hv, hu, htu⟩ => ?_)
      fun _ _ ⟨hu, htu⟩ => ⟨hu, hK.rel_trans hst htu⟩
    exact (ih v u hv hu hu).mono
      (fun _ _ ⟨hw, hz, huz⟩ => ⟨hw, hz, hK.rel_trans hst (hK.rel_trans htu huz)⟩)
      fun _ _ ⟨hz, huz⟩ => ⟨hz, hK.rel_trans hst (hK.rel_trans htu huz)⟩

omit ho in
/-- A call is open while it runs. -/
theorem calm_open (hs : K.Fine s) {entry : TraceEntry} {step : Exec σ (List Value)}
    (h : K.Calm ((Bracket.invocation entry).enter s) K.region.Held step) :
    K.Calm s K.region.Held (do
      modify fun s => { s with calls := entry :: s.calls }
      finishing step fun s => { s with calls := s.calls.tail } : Exec σ (List Value)) := by
  have hb := hK.invocation entry hs
  refine ends_bind.2 (ends_modify.2 (ends_finishing.2 ?_))
  exact Exec.Ends.mono h
    (fun _ t ⟨hv, ht, hst⟩ => ⟨hv, hb.fine (t := t) hst ht, hb.rel (t := t) hst⟩)
    fun _ t ⟨ht, hst⟩ => ⟨hb.stops (t := t) hst ht, hb.rel (t := t) hst⟩

/-- An error of the host is a failure of the script. -/
theorem calm_hostCall (hs : K.Fine s) {callee : Value} {arguments : List Value}
    (hc : K.region.Holds callee) (harg : K.region.Held arguments) (name : String) (span : Span) :
    K.Calm s K.region.Held (do
      let result ← tryCatch (Eval.callForHost host self source callee arguments) fun
        | .crashed crash => fail (.commandFailed name crash.message) span
        | e => throw e
      return (← get).heap.packed result : Exec σ (List Value)) := by
  refine Calm.bind hK (P := K.region.Holds) (ends_tryCatch.2 ?_) fun v t hv ht _ =>
    .get (.pure hK ht (held_packed hK ht hv))
  refine (answered_callForHost hK ho hs hc harg).mono (fun _ _ => id) fun e t ⟨ht, hst⟩ => ?_
  cases e with
  | crashed c => exact ends_fail.2 ⟨hK.failed ht nofun, hst⟩
  | failed f => exact ends_throw.2 ⟨ht, hst⟩
  | exhausted => exact ends_throw.2 ⟨ht, hst⟩

theorem calm_invoke (hs : K.Fine s) {callee : Value} {arguments : List Value}
    (hc : K.region.Holds callee) (harg : K.region.Held arguments) (name : String) (span : Span) :
    K.Calm s K.region.Held (Eval.invoke host self source callee arguments name span) := by
  cases callee with
  | lambda a =>
    exact calm_open hK hs (ho.call (hK.invocation _ hs).enter hc harg)
  | _ => exact calm_open hK hs (calm_hostCall hK ho (hK.invocation _ hs).enter hc harg name span)

/-- Parentheses around nothing have no faults. -/
theorem calm_argumentValues {es : List Expression} (hs : K.Fine s) (hn : K.Covers s known)
    (hf : K.Permits (Faults.arguments known es)) :
    K.Calm s K.region.Held (Eval.argumentValues self source es) := by
  induction es generalizing s with
  | nil => exact .pure hK hs Region.held_nil
  | cons e rest ih =>
    simp only [Faults.arguments, permits_append] at hf
    unfold Eval.argumentValues
    split
    · exact ih hs hn hf.2
    · refine (ho.value hs hn hf.1).bind hK fun v t hv ht hst => ?_
      refine (ih ht (hn.later hK hst) hf.2).bind hK fun vs u hvs hu _ => ?_
      exact .pure hK hu (Region.held_cons.2 ⟨hv, hvs⟩)

theorem calm_calleeValue (hs : K.Fine s) (hn : K.Covers s known) {v : Var}
    (hf : K.Permits (Faults.chain known v)) (hc : K.Permits (Faults.callee known v)) :
    K.Calm s K.region.Holds (Eval.calleeValue host self source v) := by
  refine .get ?_
  unfold Faults.callee at hc
  split
  · next name hname =>
    rw [hname] at hc
    dsimp only at hc
    split
    · exact calm_varValue hK ho hs hn hf
    · next hsees =>
      refine .fault hK hs ?_
      cases hk : known name with
      | false =>
        rw [hk] at hc
        exact (permits_cons.1 hc).1
      | true => exact hK.unseen hs (hn name hk) (by simpa [State.sees] using hsees)
  · exact calm_varValue hK ho hs hn hf

theorem calm_command (hs : K.Fine s) (hn : K.Covers s known) {c : Command}
    (hf : K.Permits (Faults.command known c)) :
    K.Calm s K.region.Held (Eval.command host self source c) := by
  obtain ⟨callee, arguments, span⟩ := c
  simp only [Faults.command, permits_append] at hf
  refine (calm_calleeValue hK ho hs hn hf.1.1 hf.1.2).bind hK fun f t hcallee ht hst => ?_
  refine (calm_argumentValues hK ho ht (hn.later hK hst) hf.2).bind hK fun vs u hvs hu _ => ?_
  split
  · exact calm_invoke hK ho hu hcallee hvs _ _
  · split
    · exact .pure hK hu (Region.held_cons.2 ⟨hcallee, Region.held_nil⟩)
    · exact .fail hK hu rfl

theorem calm_call (hs : K.Fine s) (hn : K.Covers s known) {c : Call}
    (hf : K.Permits (Faults.call known c)) :
    K.Calm s K.region.Held (Eval.call host self source c) := by
  obtain ⟨ampersand, command, span⟩ := c
  cases command with
  | none =>
    simp only [Faults.call, permits_cons] at hf
    exact .fault hK hs hf.1
  | some command =>
    simp only [Faults.call] at hf
    exact calm_command hK ho hs hn hf

/-! ## Expressions -/

theorem calm_itemValues {is : Separated Expression} (hs : K.Fine s) (hn : K.Covers s known)
    (hf : K.Permits (Faults.items known is)) :
    K.Calm s K.region.Held (Eval.itemValues self source is) := by
  induction is generalizing s with
  | nil => exact .pure hK hs Region.held_nil
  | cons i rest ih =>
    obtain ⟨e, separator, span⟩ := i
    simp only [Faults.items, Faults.item, permits_append] at hf
    refine (calm_required hK ho hs hn hf.1).bind hK fun v t hv ht hst => ?_
    refine (ih ht (hn.later hK hst) hf.2).bind hK fun vs u hvs hu _ => ?_
    exact .pure hK hu (Region.held_cons.2 ⟨hv, hvs⟩)

theorem calm_fieldKey (hs : K.Fine s) (hn : K.Covers s known) {f : TableField} (position : Int)
    (hf : K.Permits (Faults.field known f)) :
    K.Calm s (·.isKey = true) (Eval.fieldKey self source position f) := by
  cases f with
  | named name equals value span => exact .pure hK hs rfl
  | keyed brackets key equals value span =>
    simp only [Faults.field, permits_append] at hf
    exact (calm_required hK ho hs hn hf.1).bind hK fun v t _ ht _ => calm_tableKey hK ht v span
  | positional value span => exact .pure hK hs rfl

theorem calm_fieldValue (hs : K.Fine s) (hn : K.Covers s known) {f : TableField}
    (hf : K.Permits (Faults.field known f)) :
    K.Calm s K.region.Holds (Eval.required self source f.value f.span) := by
  cases f with
  | named name equals value span => exact calm_required hK ho hs hn hf
  | keyed brackets key equals value span =>
    simp only [Faults.field, permits_append] at hf
    exact calm_required hK ho hs hn hf.2
  | positional value span => exact ho.value hs hn hf

theorem calm_fieldEntries {fs : Separated TableField} (hs : K.Fine s) (hn : K.Covers s known)
    (hf : K.Permits (Faults.fields known fs)) {position : Int} {t : Table Value}
    (ht : K.region.HeldTable t ∧ t.Lawful) :
    K.Calm s (fun t => K.region.HeldTable t ∧ t.Lawful)
      (Eval.fieldEntries self source position t fs) := by
  induction fs generalizing s position t with
  | nil => exact .pure hK hs ht
  | cons i rest ih =>
    obtain ⟨_ | f, separator, span⟩ := i
    · exact ih hs hn hf ht
    · simp only [Faults.fields, Faults.fieldItem, permits_append] at hf
      refine (calm_fieldKey hK ho hs hn position hf.1).bind hK fun key u hkey hu hsu => ?_
      have hnu := hn.later hK hsu
      refine (calm_fieldValue hK ho hu hnu hf.1).bind hK fun v w hv hw huw => ?_
      have hnw := hnu.later hK huw
      split
      · exact ih hw hnw hf.2 ht
      · next hnil =>
        have hheld := ht.1.insert (Region.holds_of_isKey hkey) hv
        exact ih hw hnw hf.2 ⟨hheld, ht.2.insert hkey hnil⟩

theorem calm_binary (hs : K.Fine s) (hn : K.Covers s known) {l : Expression} {o : Token}
    {r : Option Expression} {span : Span} (hl : K.Permits (Faults.expression known l))
    (hr : K.Permits (Faults.required known span r)) :
    K.Calm s K.region.Holds (Eval.binary self source l o r span) := by
  refine (ho.value hs hn hl).bind hK fun v t hv ht hst => ?_
  have hright : K.Calm t K.region.Holds (Eval.required self source r span) :=
    calm_required hK ho ht (hn.later hK hst) hr
  split
  · split
    · exact hright
    · exact .pure hK ht hv
  · split
    · exact .pure hK ht hv
    · exact hright
  · refine hright.bind hK fun w u _ hu _ => .get ?_
    refine calm_operated hK hu (fun _ => Region.holds_binary) fun c hc => ?_
    obtain rfl | ⟨rfl, -⟩ := Operator.binary_crashed hc
    · exact .endless
    · exact .zeroToNegativePower

theorem calm_value (hs : K.Fine s) (hn : K.Covers s known) {e : Expression}
    (hf : K.Permits (Faults.expression known e)) :
    K.Calm s K.region.Holds (Eval.value host self source e) := by
  cases e with
  | nil t => exact .pure hK hs trivial
  | boolean t => exact .pure hK hs trivial
  | number t =>
    unfold Eval.value
    dsimp only
    split
    · exact .pure hK hs trivial
    · exact .fail hK hs rfl
  | string t => exact .pure hK hs trivial
  | binary l o r span =>
    simp only [Faults.expression, permits_append] at hf
    exact calm_binary hK ho hs hn hf.1 hf.2
  | unary o v span =>
    simp only [Faults.expression] at hf
    refine (calm_required hK ho hs hn hf).bind hK fun w t _ ht _ => ?_
    exact calm_operated hK ht (fun _ => Region.holds_unary)
      fun _ hc => absurd hc Operator.unary_ne_crashed
  | vector brackets is span =>
    simp only [Faults.expression] at hf
    exact (calm_itemValues hK ho hs hn hf).bind hK fun vs t hvs ht _ =>
      .make (hK.newVector ht hvs)
  | table brackets fs span =>
    simp only [Faults.expression] at hf
    have hempty : K.region.HeldTable {} ∧ ({} : Table Value).Lawful :=
      ⟨Region.heldTable_empty, Table.lawful_empty⟩
    exact (calm_fieldEntries hK ho hs hn hf hempty).bind hK fun t u ht hu _ =>
      .make (hK.newTable hu ht.1 ht.2)
  | lambda body =>
    simp only [Faults.expression] at hf
    exact .get (.make (hK.newLambda hs hn hf))
  | group brackets inner span =>
    cases inner with
    | none => exact .pure hK hs trivial
    | some e =>
      simp only [Faults.expression] at hf
      exact ho.value hs hn hf
  | var v =>
    simp only [Faults.expression] at hf
    exact calm_varValue hK ho hs hn hf
  | call c =>
    simp only [Faults.expression] at hf
    exact (calm_call hK ho hs hn hf).bind hK fun vs t hvs ht _ => .pure hK ht hvs.headD
  | skipped k =>
    simp only [Faults.expression, permits_cons] at hf
    exact .fault hK hs hf.1

/-! ## Statements and blocks -/

theorem tidy_block (hs : K.Fine s) (hn : K.Covers s known) {b : Block}
    (hf : K.Permits (Faults.block known b)) :
    K.Tidy s (fun _ => True) (Eval.block self source b) := by
  obtain ⟨hb, hsees⟩ := hK.scope false hs
  refine ends_bind.2 (ends_get.2 (ends_bind.2 (ends_set.2 (ends_within.2 ?_))))
  refine Exec.Ends.mono (ho.body hb.enter (fun name hk => hsees name (hn name hk)) hf)
    (fun _ t ⟨_, ht, hst⟩ => ⟨trivial, hb.loose (t := t) hst ht, hb.rel (t := t) hst⟩)
    fun _ t ⟨ht, hst⟩ => ⟨hb.stops (t := t) hst ht, hb.rel (t := t) hst⟩

theorem tidy_branches (hs : K.Fine s) (hn : K.Covers s known) {otherwise : Exec σ Unit}
    {bs : List Branch} (hf : ∀ b ∈ bs, K.Permits (Faults.branch known b))
    (ho' : ∀ t, K.Fine t → K.Covers t known → K.Tidy t (fun _ => True) otherwise) :
    K.Tidy s (fun _ => True) (Eval.branches self source otherwise bs) := by
  induction bs generalizing s with
  | nil => exact ho' s hs hn
  | cons b rest ih =>
    obtain ⟨condition, block, span⟩ := b
    have hb := hf _ List.mem_cons_self
    cases condition with
    | none =>
      simp only [Faults.branch, permits_cons] at hb
      exact (Calm.fault hK hs hb.1).tidy hK
    | some c =>
      obtain ⟨brackets, inner⟩ := c
      have hc : K.Permits (Faults.required known (brackets.expressionSpan inner) inner) := by
        cases block <;> simp only [Faults.branch, Faults.condition, permits_append] at hb <;>
          exact hb.1
      refine (calm_required hK ho hs hn hc).bind_tidy hK fun v t _ ht hst => ?_
      have hnt := hn.later hK hst
      split
      · cases block with
        | none =>
          simp only [Faults.branch, permits_append, permits_cons] at hb
          exact (Calm.fault hK ht hb.2.1).tidy hK
        | some braced =>
          obtain ⟨_, block⟩ := braced
          simp only [Faults.branch, Faults.braced, permits_append] at hb
          exact tidy_block hK ho ht hnt hb.2
      · exact ih ht hnt fun b hb => hf b (List.mem_cons_of_mem _ hb)

omit ho in
/-- Behind a round: where the loop goes on, nothing is on its way. -/
theorem ends_goesOn (hs : K.Loose s) :
    (Eval.goesOn : Exec σ Bool).Ends s
      (Round (fun t => K.Fine t ∧ K.Rel s t) (fun t => K.Loose t ∧ K.Rel s t))
      (fun e t => K.Stops e t ∧ K.Rel s t) := by
  refine ends_bind.2 (ends_get.2 ?_)
  obtain ⟨ht, hst⟩ := hK.settle hs
  split
  · next hp => exact ends_pure.2 (round_true.2 ⟨hK.fine_of_loose hs hp, hK.rel_refl s⟩)
  · split
    · refine ends_bind.2 (ends_modify.2 (ends_pure.2 (round_false.2 ?_)))
      exact ⟨hK.loose_of_fine ht, hst⟩
    · exact ends_bind.2 (ends_modify.2 (ends_pure.2 (round_true.2 ⟨ht, hst⟩)))
    · exact ends_pure.2 (round_false.2 ⟨hs, hK.rel_refl s⟩)

omit ho in
/-- A round whose body is tidy, in a loop that started at a state. -/
theorem ends_round_goesOn {t : State σ} (hst : K.Rel s t) {α : Type} {step : Exec σ α}
    (h : K.Tidy t (fun _ => True) step) :
    (do let _ ← step; Eval.goesOn : Exec σ Bool).Ends t
      (Round (fun u => K.Fine u ∧ K.Rel s u) (fun u => K.Loose u ∧ K.Rel s u))
      (fun e u => K.Stops e u ∧ K.Rel s u) := by
  refine ends_bind.2 (Exec.Ends.mono h (fun _ u hu => ?_)
    fun _ _ hu => ⟨hu.1, hK.rel_trans hst hu.2⟩)
  have hsu := hK.rel_trans hst hu.2.2
  refine (ends_goesOn hK hu.2.1).mono (fun _ _ hr => ?_)
    fun _ _ hw => ⟨hw.1, hK.rel_trans hsu hw.2⟩
  exact Round.imp (fun _ hw => ⟨hw.1, hK.rel_trans hsu hw.2⟩)
    (fun _ hw => ⟨hw.1, hK.rel_trans hsu hw.2⟩) hr

theorem tidy_whileLoop {budget : Nat} (hs : K.Fine s) (hn : K.Covers s known) {c : Condition}
    {b : Block} (hc : K.Permits (Faults.condition known c))
    (hb : K.Permits (Faults.block known b)) :
    K.Tidy s (fun _ => True) (Eval.whileLoop budget self source c b) := by
  obtain ⟨brackets, inner⟩ := c
  simp only [Faults.condition] at hc
  refine (ends_repeated (I := fun t => K.Fine t ∧ K.Rel s t) (J := fun t => K.Loose t ∧ K.Rel s t)
    (fun t ht => ?_) (fun t ht => ⟨hK.exhausted ht.1, ht.2⟩) ⟨hs, hK.rel_refl s⟩).imp
    fun _ _ ht => ⟨trivial, ht⟩
  have hnt := hn.later hK ht.2
  refine ends_bind.2 (Exec.Ends.mono (calm_required hK ho ht.1 hnt hc) (fun v u hu => ?_)
    fun _ _ hu => ⟨hu.1, hK.rel_trans ht.2 hu.2⟩)
  have hsu := hK.rel_trans ht.2 hu.2.2
  split
  · exact ends_round_goesOn hK hsu (tidy_block hK ho hu.2.1 (hnt.later hK hu.2.2) hb)
  · exact ends_pure.2 (round_false.2 ⟨hK.loose_of_fine hu.2.1, hsu⟩)

theorem tidy_forLoop (hs : K.Fine s) {subject : Value} (hv : K.region.Holds subject) (span : Span)
    {a : Address} (ha : K.region.lambda a) :
    K.Tidy s (fun _ => True) (Eval.forLoop self source subject span a) := by
  have hround : ∀ {arguments}, K.region.Held arguments → ∀ t, K.Fine t ∧ K.Rel s t →
      (do let _ ← self source (.call a arguments true); Eval.goesOn : Exec σ Bool).Ends t
        (Round (fun u => K.Fine u ∧ K.Rel s u) (fun u => K.Loose u ∧ K.Rel s u))
        (fun e u => K.Stops e u ∧ K.Rel s u) :=
    fun harg t ht => ends_round_goesOn hK ht.2 (ho.loop ht.1 ha harg)
  have hleave : ∀ t, K.Fine t ∧ K.Rel s t → K.Loose t ∧ K.Rel s t :=
    fun t ht => ⟨hK.loose_of_fine ht.1, ht.2⟩
  have hstart : K.Fine s ∧ K.Rel s s := ⟨hs, hK.rel_refl s⟩
  cases subject with
  | vector b =>
    refine ends_bind.2 (ends_get.2
      ((ends_forEach hleave (fun arguments hmem => hround ?_) hstart).imp
        fun _ _ ht => ⟨trivial, ht⟩))
    obtain ⟨i, hi, rfl⟩ := List.mem_mapIdx.1 hmem
    exact Region.held_cons.2 ⟨hK.vector hs hv _ (List.getElem_mem hi),
      Region.held_cons.2 ⟨trivial, Region.held_nil⟩⟩
  | table b =>
    refine ends_bind.2 (ends_get.2
      ((ends_forEach hleave (fun arguments hmem => hround ?_) hstart).imp
        fun _ _ ht => ⟨trivial, ht⟩))
    obtain ⟨e, he, rfl⟩ := List.mem_map.1 hmem
    obtain ⟨hkey, hvalue⟩ := hK.table hs hv e he
    exact Region.held_cons.2 ⟨hvalue, Region.held_cons.2 ⟨hkey, Region.held_nil⟩⟩
  | number n =>
    unfold Eval.forLoop
    dsimp only
    split
    · exact (Calm.crash hK hs .beyondFloat).tidy hK
    · split
      · exact (calm_shownFail hK hs _ span fun _ => rfl).tidy hK
      · refine (ends_forCount hleave (fun i => hround ?_) hstart).imp fun _ _ ht => ⟨trivial, ht⟩
        exact Region.held_cons.2 ⟨trivial, Region.held_nil⟩
  | _ => exact (Calm.fail hK hs rfl).tidy hK

/-- The values of a statement, or of a text, if it has any. -/
def HeldAny (K : Discipline σ) (values : Option (List Value)) : Prop :=
  ∀ vs ∈ values, K.region.Held vs

/-- What comes of a statement: what it defines is in sight behind it. -/
def Stated (K : Discipline σ) (s : State σ) (names : List String)
    (step : Exec σ (Option (List Value))) : Prop :=
  step.Ends s
    (fun vs t => K.HeldAny vs ∧ (K.Loose t ∧ ∀ name ∈ names, K.Sees t name) ∧ K.Drift s t)
    (fun e t => K.Stops e t ∧ K.Drift s t)

omit hK ho in
theorem heldAny_none : K.HeldAny none := nofun

omit hK ho in
theorem heldAny_some {vs : List Value} (h : K.region.Held vs) : K.HeldAny (some vs) :=
  fun _ hvs => Option.some.inj hvs ▸ h

omit ho in
theorem Tidy.stated {step : Exec σ (Option (List Value))} (h : K.Tidy s K.HeldAny step) :
    K.Stated s [] step :=
  Exec.Ends.imp (h.drifting hK) fun _ _ ht => ⟨ht.1, ⟨ht.2.1, nofun⟩, ht.2.2⟩

omit hK ho in
theorem permits_elseIfs {es : List ElseIf} :
    K.Permits (Faults.elseIfs known es) ↔
      ∀ b ∈ es.map (·.branch), K.Permits (Faults.branch known b) := by
  induction es with
  | nil => simp [Faults.elseIfs]
  | cons e rest ih =>
    obtain ⟨token, b, span⟩ := e
    simp [Faults.elseIfs, Faults.elseIf, ElseIf.branch, ih]

theorem tidy_otherwise (hs : K.Fine s) (hn : K.Covers s known) (o : Option Otherwise) :
    K.Permits (Faults.otherwise known o) → K.Tidy s (fun _ => True) (match o with
      | none => pure ()
      | some o =>
        match o.block with
        | none => fail .missingElseBlock o.span
        | some b => Eval.block self source b.block : Exec σ Unit) := by
  intro hf
  rcases o with _ | ⟨token, _ | ⟨brackets, b⟩, span⟩
  · exact (Calm.pure hK hs trivial).tidy hK
  · simp only [Faults.otherwise, permits_cons] at hf
    exact (Calm.fault hK hs hf.1).tidy hK
  · simp only [Faults.otherwise, Faults.braced] at hf
    exact tidy_block hK ho hs hn hf

omit ho in
/-- A statement without a value. -/
theorem Tidy.none {step : Exec σ Unit} (h : K.Tidy s (fun _ => True) step) :
    K.Tidy s K.HeldAny (do step; pure none : Exec σ (Option (List Value))) :=
  h.bind hK fun _ t _ ht _ => ends_pure.2 ⟨heldAny_none, ht, hK.rel_refl t⟩

/-- Only an assignment brings names into the current frame. -/
theorem tidy_statement {budget : Nat} (hs : K.Fine s) (hn : K.Covers s known) {st : Statement}
    (hst : ∀ target equals e span, st ≠ .assign target equals e span)
    (hf : K.Permits (Faults.statement known st)) :
    K.Tidy s K.HeldAny (Eval.statement host budget self source st) := by
  have hvalues : ∀ {step : Exec σ (List Value)}, K.Calm s K.region.Held step →
      K.Tidy s K.HeldAny (some <$> step) := fun h => (h.map hK fun _ => heldAny_some).tidy hK
  cases st with
  | command c =>
    simp only [Faults.statement] at hf
    exact hvalues (calm_command hK ho hs hn hf)
  | call c =>
    simp only [Faults.statement] at hf
    exact hvalues (calm_call hK ho hs hn hf)
  | expression e =>
    simp only [Faults.statement] at hf
    refine Calm.tidy hK ?_
    refine (ho.value hs hn hf).bind hK fun v t hv ht _ => .pure hK ht (heldAny_some ?_)
    exact Region.held_cons.2 ⟨hv, Region.held_nil⟩
  | assign target equals e span => exact absurd rfl (hst target equals e span)
  | conditional token first others otherwise span =>
    simp only [Faults.statement, permits_append] at hf
    refine Tidy.none hK (tidy_branches hK ho hs hn (fun b hb => ?_) fun t ht hnt =>
      tidy_otherwise hK ho ht hnt otherwise hf.2)
    obtain rfl | hb := List.mem_cons.1 hb
    · exact hf.1.1
    · exact permits_elseIfs.1 hf.1.2 b hb
  | whileLoop token condition body span =>
    rcases condition with _ | c <;> rcases body with _ | ⟨brackets, b⟩
    case some.some =>
      simp only [Faults.statement, Faults.braced, permits_append] at hf
      exact Tidy.none hK (tidy_whileLoop hK ho hs hn hf.1 hf.2)
    all_goals
      simp only [Faults.statement, permits_cons] at hf
      exact Tidy.none hK ((Calm.fault hK hs hf.1).tidy hK)
  | forLoop token subject body span =>
    rcases subject with _ | ⟨brackets, inner⟩ <;> rcases body with _ | e
    case some.some =>
      simp only [Faults.statement, Faults.condition, permits_append] at hf
      refine (calm_required hK ho hs hn hf.1).bind_tidy hK fun v t hv ht hst => ?_
      refine (ho.value ht (hn.later hK hst) hf.2).bind_tidy hK fun w u hw hu _ => ?_
      cases w with
      | lambda a => exact Tidy.none hK (tidy_forLoop hK ho hu hv _ hw)
      | _ => exact Tidy.none hK ((Calm.fail hK hu rfl).tidy hK)
    all_goals
      simp only [Faults.statement, permits_cons] at hf
      exact Tidy.none hK ((Calm.fault hK hs hf.1).tidy hK)
  | skipped k =>
    simp only [Faults.statement, permits_cons] at hf
    exact (Calm.fault hK hs hf.1).tidy hK

theorem stated_statement {budget : Nat} (hs : K.Fine s) (hn : K.Covers s known) {st : Statement}
    (hf : K.Permits (Faults.statement known st)) :
    K.Stated s st.defined (Eval.statement host budget self source st) := by
  cases st with
  | assign target equals e span =>
    simp only [Faults.statement, permits_append] at hf
    refine ends_seq (R := K.Drift) hK.drift_trans ((calm_required hK ho hs hn hf.1).drift hK)
      fun v t hv ht hst => ?_
    refine ends_seq (R := K.Drift) hK.drift_trans
      (calm_assign hK ho ht (hn.drift hK hst) hf.2 hv equals e span) fun _ u _ hu _ => ?_
    refine ends_pure.2 ⟨heldAny_none, ⟨hK.loose_of_fine hu.1, hu.2⟩, ?_⟩
    exact hK.drift_of_rel (hK.rel_refl u)
  | _ =>
    refine Tidy.stated hK (tidy_statement hK ho hs hn (fun _ _ _ _ h => ?_) hf)
    cases h

theorem tidy_leave (hs : K.Fine s) (hn : K.Covers s known) {l : LastStatement}
    (hf : K.Permits (Faults.last known l)) :
    K.Tidy s (fun _ => True) (Eval.leave self source l) := by
  have hpend : ∀ {vs t}, K.region.Held vs → K.Fine t → K.Tidy t (fun _ => True)
      (modify fun s => { s with pending := some ⟨s.scope, l, vs⟩ } : Exec σ PUnit) :=
    fun hvs ht => ends_modify.2 ⟨trivial, hK.pend ht hvs⟩
  cases l with
  | «return» token vs span =>
    simp only [Faults.last] at hf
    exact (calm_itemValues hK ho hs hn hf).bind_tidy hK fun vs t hvs ht _ => hpend hvs ht
  | «break» token | «continue» token =>
    refine Calm.bind_tidy hK (P := fun vs => vs = []) (.pure hK hs rfl) fun vs t hvs ht _ => ?_
    cases hvs
    exact hpend Region.held_nil ht

theorem drifting_statements {budget : Nat} (hs : K.Fine s) (hn : K.Covers s known)
    {last : Option LastStatement} {result : Option (List Value)} (hresult : K.HeldAny result)
    {ss : List Statement} (hf : K.Permits (Faults.statements known ss))
    (hl : ∀ l, last = some l → K.Permits (Faults.last (known.with (ss.flatMap (·.defined))) l)) :
    K.Drifting s K.HeldAny (Eval.statements host budget self source last result ss) := by
  induction ss generalizing s known result with
  | nil =>
    rw [List.flatMap_nil, Sight.with_nil] at hl
    unfold Eval.statements
    cases last with
    | none => exact ((Calm.pure hK hs hresult).tidy hK).drifting hK
    | some l =>
      exact ((tidy_leave hK ho hs hn (hl l rfl)).bind hK
        fun _ t _ ht _ => ends_pure.2 ⟨hresult, ht, hK.rel_refl t⟩).drifting hK
  | cons st rest ih =>
    simp only [Faults.statements, permits_append] at hf
    rw [List.flatMap_cons, Sight.with_append] at hl
    refine ends_seq (R := K.Drift) hK.drift_trans (stated_statement hK ho hs hn hf.1)
      fun vs t hvs ht hst => ?_
    refine ends_bind.2 (ends_get.2 ?_)
    split
    · exact ends_pure.2 ⟨hvs, ht.1, hK.drift_of_rel (hK.rel_refl t)⟩
    · next hp =>
      refine ih (hK.fine_of_loose ht.1 (by simpa using hp)) (fun name hname => ?_) hvs hf.2 hl
      rcases Bool.or_eq_true_iff.1 hname with hname | hname
      · exact ht.2 name (by simpa using hname)
      · exact hn.drift hK hst name hname

theorem drifting_body {budget : Nat} (hs : K.Fine s) (hn : K.Covers s known) {b : Block}
    (hf : K.Permits (Faults.block known b)) :
    K.Drifting s K.HeldAny (Eval.statements host budget self source b.last none b.body) := by
  obtain ⟨ss, last, span⟩ := b
  cases last with
  | none => exact drifting_statements hK ho hs hn heldAny_none hf nofun
  | some l =>
    simp only [Faults.block, permits_append] at hf
    exact drifting_statements hK ho hs hn heldAny_none hf.1 fun _ hl => Option.some.inj hl ▸ hf.2

end Rules

/-! ## All tasks -/

/-- **Every rule keeps to the discipline**, if what it asks for does. -/
theorem obeys_rule (hK : K.Laws host) (ho : K.Obeys self) (budget : Nat) :
    K.Obeys (fun source t => Eval.rule host budget self source t) where
  value hs hn hf := calm_value hK ho hs hn hf
  body hs hn hf := ends_seq (R := K.Drift) hK.drift_trans (drifting_body hK ho hs hn hf)
    fun _ t _ ht _ => ends_pure.2 ⟨trivial, ht, hK.drift_of_rel (hK.rel_refl t)⟩
  call hs ha harg := calm_callLambda hK ho hs ha harg
  loop hs ha harg := tidy_callLambda hK ho hs ha harg
  reply hs hr := answered_follow hK ho hs hr

/-- **Every evaluation keeps to the discipline**, whatever its budget is. -/
theorem obeys_run (hK : K.Laws host) (budget : Nat) : K.Obeys (Eval.run host budget) := by
  induction budget with
  | zero =>
    have hstop : ∀ {s}, K.Fine s → K.Stops .exhausted s ∧ K.Rel s s :=
      fun hs => ⟨hK.exhausted hs, hK.rel_refl _⟩
    exact ⟨fun hs _ _ => hstop hs, fun hs _ _ => (hstop hs).imp_right hK.drift_of_rel,
      fun hs _ _ => hstop hs, fun hs _ _ => hstop hs, fun hs _ => hstop hs⟩
  | succ n ih => exact obeys_rule hK ih n

/-! ## Whole texts -/

/-- The statements of a text: nothing is left on its way behind them. -/
theorem ends_runBlock (hK : K.Laws host) (hs : K.Fine s) (hn : K.Covers s known) {b : Block}
    (hf : K.Permits (Faults.block known b)) (budget : Nat) :
    (runBlock host budget source b).Ends s (fun vs t => K.HeldAny vs ∧ K.Fine t ∧ K.Drift s t)
      (fun e t => K.Stops e t ∧ K.Drift s t) := by
  refine ends_seq (R := K.Drift) hK.drift_trans (drifting_body hK (obeys_run hK budget) hs hn hf)
    fun vs t hvs ht _ => ?_
  refine ends_bind.2 (ends_get.2 ?_)
  obtain ⟨hu, htu⟩ := (hK.settle ht).imp_right hK.drift_of_rel
  split
  · next hp =>
    exact ends_pure.2 ⟨hvs, hK.fine_of_loose ht hp, hK.drift_of_rel (hK.rel_refl t)⟩
  · next p hp =>
    refine ends_bind.2 (ends_modify.2 ?_)
    split
    · exact ends_pure.2 ⟨heldAny_some (hK.pending ht hp), hu, htu⟩
    · exact ends_fail.2 ⟨hK.failed hu fun h => absurd h Bool.false_ne_true, htu⟩

/-- What is known of the end of a run of a text. -/
def Ended (K : Discipline σ) (s : State σ) : Outcome → State σ → Prop
  | .done vs, t => K.HeldAny vs ∧ K.Fine t ∧ K.Rel s t
  | .failed f, t => ∃ e u, t = u.settled ∧ K.Stops e u ∧ K.Rel s u ∧
    (e = .failed f ∨ e = .crashed .endless ∧ f = { cause := .endless })
  | .crashed c, t => c ≠ .endless ∧ K.Stops (.crashed c) t ∧ K.Rel s t
  | .exhausted, t => K.Stops .exhausted t ∧ K.Rel s t

/-- **A run of a text keeps to the discipline**, however it ends. -/
theorem Laws.ended_execute (hK : K.Laws host) (hs : K.Fine s) (hn : K.Covers s known) {b : Block}
    (hf : K.Permits (Faults.block known b)) (budget : Nat) (source : String) :
    K.Ended s (execute host budget source b s).1 (execute host budget source b s).2 := by
  obtain ⟨hb, hsees⟩ := hK.scope true hs
  have hrun : (within (s.frames.child s.scope true).1 (runBlock host budget source b)).Ends
      { s with frames := (s.frames.child s.scope true).2 }
      (fun vs t => K.HeldAny vs ∧ K.Fine t ∧ K.Rel s t) (fun e t => K.Stops e t ∧ K.Rel s t) := by
    refine ends_within.2 (Exec.Ends.mono (ends_runBlock hK hb.enter
      (fun name hk => hsees name (hn name hk)) hf budget) (fun _ t ht => ?_) fun _ t ht => ?_)
    · exact ⟨ht.1, hb.fine (t := t) ht.2.2 ht.2.1, hb.rel (t := t) ht.2.2⟩
    · exact ⟨hb.stops (t := t) ht.2 ht.1, hb.rel (t := t) ht.2⟩
  unfold execute
  dsimp only
  unfold Exec.Ends at hrun
  split <;> rename_i heq <;> rw [heq] at hrun
  · exact hrun
  · exact ⟨_, _, rfl, hrun.1, hrun.2, .inl rfl⟩
  · exact ⟨_, _, rfl, hrun.1, hrun.2, .inr ⟨rfl, rfl⟩⟩
  · next hne => exact ⟨hne, hrun⟩
  · exact hrun

/-- Where all faults may be met, nothing need be known of the tree. -/
theorem Laws.ended_execute_of_all (hK : K.Laws host) (hs : K.Fine s) (hall : ∀ x, K.Allows x)
    (budget : Nat) (source : String) (b : Block) :
    K.Ended s (execute host budget source b s).1 (execute host budget source b s).2 := by
  have hnone : K.Covers s (fun _ => false) := fun _ h => nomatch h
  exact hK.ended_execute hs hnone (fun x _ => hall x) budget source

end Discipline

end CommandScript
