import CommandScript.Proofs.Idle
/-!
# CommandScript — who takes up what leaves a block

A `break`, `continue` or `return` is put into one place, deep inside nested blocks, and
taken out of it in three: behind a round of a loop, behind a call, and at the end of a
text. In between it is on its way, and nothing may be run. So nothing is on its way
behind an expression, a call or an assignment; behind a loop there can only be a
`return`; and behind a block there is what stopped it, with nothing of the block run
after that.

The host is asked to leave alone what is on its way, and nothing else.
-/

namespace CommandScript

open Exec

variable {σ : Type}

namespace Statement

/-- The statement is a loop. -/
def isLoop : Statement → Bool
  | whileLoop .. | forLoop .. => true
  | _ => false

theorem isLoop_of_isCompound {st : Statement} (h : st.isCompound = true) :
    (∃ token first others otherwise span, st = .conditional token first others otherwise span) ∨
      st.isLoop = true := by
  cases st with
  | conditional token first others otherwise span => exact .inl ⟨_, _, _, _, _, rfl⟩
  | whileLoop | forLoop => exact .inr rfl
  | command | call | expression | assign | skipped => cases h

end Statement

/-- Nothing is on its way. -/
abbrev State.Clear (s : State σ) : Prop := s.pending = none

/-- No `break` or `continue` is on its way; a `return` may be. -/
def State.OutOfLoops (s : State σ) : Prop := ∀ p, s.pending = some p → p.statement.isReturn = true

theorem State.OutOfLoops.of_clear {s : State σ} (h : s.Clear) : s.OutOfLoops :=
  fun _ hp => nomatch h.symm.trans hp

/-- The commands of the host leave alone what is on its way. -/
def Host.LeavesPending (host : Host σ) : Prop :=
  ∀ name arguments s, (host.command name arguments s).Follows (fun _ => True)
    (fun s t => t.pending = s.pending) (fun _ => True) s

theorem Host.LeavesControl.leavesPending {host : Host σ} (h : host.LeavesControl) :
    host.LeavesPending := fun name arguments s =>
  (h name arguments s).mono (fun _ => id) (fun _ _ _ _ hst => ⟨trivial, hst.pending⟩) trivial

/-! ## Evaluating with nothing on its way -/

/-- Where something is evaluated nothing is on its way. -/
def clearing (σ : Type) : Discipline σ where
  region := .all
  Fine := State.Clear
  Loose _ := True
  Stops _ := State.Clear
  Rel _ _ := True
  Sees _ _ := True
  Allows _ := True

theorem clearing_laws {host : Host σ} (hhost : host.LeavesPending) : (clearing σ).Laws host where
  rel_refl _ := trivial
  rel_trans _ _ := trivial
  drift_of_rel := id
  drift_trans _ _ := trivial
  sees_of_drift _ _ := trivial
  loose_of_fine _ := trivial
  fine_of_loose _ := id
  fine_of_crashed := id
  failed hs _ := hs
  crashed hs _ := hs
  exhausted := id
  unseen _ _ _ := trivial
  globals _ _ _ _ := Region.holds_all _
  get _ _ := Region.holds_all _
  vector _ _ _ _ := Region.holds_all _
  table _ _ _ _ := ⟨Region.holds_all _, Region.holds_all _⟩
  tuple _ _ _ _ := Region.holds_all _
  field _ _ _ := Region.holds_all _
  pending _ _ _ _ := Region.holds_all _
  newVector hs _ := ⟨Region.holds_all _, hs, trivial⟩
  newTable hs _ _ := ⟨Region.holds_all _, hs, trivial⟩
  newTuple hs _ := ⟨Region.holds_all _, hs, trivial⟩
  newLambda hs _ _ := ⟨Region.holds_all _, hs, trivial⟩
  setVector hs _ _ := ⟨hs, trivial⟩
  setTable hs _ _ _ := ⟨hs, trivial⟩
  assign _ hs _ := ⟨hs, trivial, trivial⟩
  pend _ _ := ⟨trivial, trivial⟩
  settle _ := ⟨rfl, trivial⟩
  scope _ hs := ⟨⟨hs, fun _ => id, fun _ => id, fun _ => id, fun _ => trivial⟩, fun _ _ => trivial⟩
  invocation _ hs := ⟨hs, fun _ => id, fun _ => id, fun _ => id, fun _ => trivial⟩
  lambda hs _ _ _ _ := ⟨⟨hs, fun _ => id, fun _ => id, fun _ => id, fun _ => trivial⟩,
    fun _ => false, fun _ _ => trivial, fun _ _ => trivial⟩
  reply {s} name arguments hs _ := by
    have hstep : ∀ s t : State σ, s.Clear → True → t.pending = s.pending → t.Clear ∧ True :=
      fun _ _ hs _ h => ⟨h.trans hs, trivial⟩
    have hreply := (hhost name arguments s).mono (fun _ _ => trivial) hstep hs
    rw [← Region.holds_all_eq] at hreply
    exact hreply

/-- If a step ends well, `Q` holds of the state it ends in. -/
abbrev Exec.EndsIn {α : Type} (step : Exec σ α) (s : State σ) (Q : State σ → Prop) : Prop :=
  step.Ends s (fun _ => Q) (fun _ _ => True)

theorem Exec.EndsIn.of_ok {α : Type} {step : Exec σ α} {s t : State σ} {Q : State σ → Prop} {a : α}
    (h : step.EndsIn s Q) (hstep : step s = (.ok a, t)) : Q t := (ends_of_ok hstep).1 h

theorem Exec.EndsIn.any {α : Type} {s : State σ} (step : Exec σ α) :
    step.EndsIn s fun _ => True := by
  unfold Exec.EndsIn Exec.Ends
  split <;> trivial

namespace Eval

section Rules

variable {host : Host σ} {budget : Nat}
variable {self : String → (t : Task σ) → Exec σ t.Result} {source : String}
variable {s t : State σ} {p : Pending}

/-- What evaluates something leaves nothing on its way. -/
theorem endsIn_of_calm {α : Type} {P : α → Prop} {step : Exec σ α}
    (h : (clearing σ).Calm s P step) : step.EndsIn s State.Clear :=
  h.mono (fun _ _ hu => hu.2.1) fun _ _ _ => trivial

theorem covers_nothing (s : State σ) : (clearing σ).Covers s fun _ => false := fun _ h => nomatch h

theorem permits_all (faults : List Fault) : (clearing σ).Permits faults := fun _ _ => trivial

/-- What a loop looks at behind each of its rounds: where it goes on, nothing is on its way,
and where it is left, no `break` or `continue` is. -/
theorem ends_round_of_any {α : Type} (body : Exec σ α) :
    (do let _ ← body; goesOn : Exec σ Bool).Ends s (Round State.Clear State.OutOfLoops)
      (fun _ _ => True) := by
  have hgoesOn : ∀ u : State σ, (goesOn : Exec σ Bool).Ends u
      (Round State.Clear State.OutOfLoops) (fun _ _ => True) := by
    intro u
    refine ends_bind.2 (ends_get.2 ?_)
    split
    · next hp => exact ends_pure.2 (round_true.2 hp)
    · next p hp =>
      split
      · exact ends_bind.2 (ends_modify.2 (ends_pure.2 (round_false.2 (.of_clear rfl))))
      · exact ends_bind.2 (ends_modify.2 (ends_pure.2 (round_true.2 rfl)))
      · next hl =>
        refine ends_pure.2 (round_false.2 fun q hq => ?_)
        cases hp.symm.trans hq
        rw [hl]
        rfl
  exact ends_bind.2 ((EndsIn.any body).imp fun _ u _ => hgoesOn u)

variable (hhost : host.LeavesPending) (ho : (clearing σ).Obeys self)

include hhost ho

theorem endsIn_required (hs : s.Clear) (e : Option Expression) (span : Span) :
    (required self source e span).EndsIn s State.Clear :=
  endsIn_of_calm (Discipline.calm_required (clearing_laws hhost) ho hs (covers_nothing s)
    (permits_all _))

theorem endsIn_command (hs : s.Clear) (c : Command) :
    (command host self source c).EndsIn s State.Clear :=
  endsIn_of_calm (Discipline.calm_command (clearing_laws hhost) ho hs (covers_nothing s)
    (permits_all _))

/-- **No statement but a compound one leaves anything on its way.** -/
theorem endsIn_statement {st : Statement} (hst : st.isCompound = false) (hs : s.Clear) :
    (statement host budget self source st).EndsIn s State.Clear := by
  have hK := clearing_laws hhost
  have hnone := covers_nothing s
  cases st with
  | command c => exact ends_map.2 (endsIn_command hhost ho hs c)
  | call c =>
    exact ends_map.2 (endsIn_of_calm (Discipline.calm_call hK ho hs hnone (permits_all _)))
  | expression e =>
    exact ends_bind.2 (endsIn_of_calm (ho.value hs hnone (permits_all _)))
  | assign target equals e span =>
    refine ends_bind.2 ((endsIn_required hhost ho hs e span).imp fun v u hu => ends_bind.2 ?_)
    refine Ends.mono (Discipline.calm_assign hK ho hu (covers_nothing u) (permits_all _)
      (Region.holds_all v) equals e span) (fun _ _ hw => ?_) fun _ _ _ => trivial
    exact hw.2.1.1
  | skipped k => exact ends_fail.2 trivial
  | conditional | whileLoop | forLoop => cases hst

theorem endsIn_whileLoop (hs : s.Clear) (c : Condition) (b : Block) :
    (whileLoop budget self source c b).EndsIn s State.OutOfLoops := by
  refine ends_repeated (I := State.Clear) (fun u hu => ?_) (fun _ _ => trivial) hs
  refine ends_bind.2 ((endsIn_required hhost ho hu c.inner c.span).imp fun v w hw => ?_)
  split
  · exact ends_round_of_any _
  · exact ends_pure.2 (round_false.2 (.of_clear hw))

omit hhost ho in
theorem endsIn_forLoop (hs : s.Clear) (subject : Value) (span : Span) (a : Address) :
    (forLoop self source subject span a).EndsIn s State.OutOfLoops := by
  have hout : ∀ u : State σ, u.Clear → u.OutOfLoops := fun _ => .of_clear
  cases subject with
  | vector b | table b =>
    exact ends_bind.2 (ends_get.2 (ends_forEach hout (fun _ _ _ _ => ends_round_of_any _) hs))
  | number n =>
    unfold forLoop
    dsimp only
    split
    · exact ends_crash.2 trivial
    · split
      · exact ends_bind.2 ((EndsIn.any _).imp fun _ _ _ => ends_fail.2 trivial)
      · exact ends_forCount hout (fun _ _ _ => ends_round_of_any _) hs
  | _ => exact ends_fail.2 trivial

/-- **A loop leaves nothing but a `return` on its way.** -/
theorem endsIn_loop {st : Statement} (hst : st.isLoop = true) (hs : s.Clear) :
    (statement host budget self source st).EndsIn s State.OutOfLoops := by
  have hvalue : ∀ {u : State σ} e, u.Clear → (self source (.value e)).EndsIn u State.Clear :=
    fun {u} _ hu => endsIn_of_calm (ho.value hu (covers_nothing u) (permits_all _))
  cases st with
  | whileLoop token condition body span =>
    rcases condition with _ | c <;> rcases body with _ | b
    case some.some => exact ends_bind.2 (endsIn_whileLoop hhost ho hs c b.block)
    all_goals exact ends_bind.2 (ends_fail.2 trivial)
  | forLoop token subject body span =>
    rcases subject with _ | c <;> rcases body with _ | e
    case some.some =>
      refine ends_bind.2 ((endsIn_required hhost ho hs c.inner c.span).imp fun v u hu => ?_)
      refine ends_bind.2 ((hvalue e hu).imp fun f w hw => ?_)
      cases f with
      | lambda a => exact ends_bind.2 (endsIn_forLoop hw v c.span a)
      | _ => exact ends_bind.2 (ends_fail.2 trivial)
    all_goals exact ends_bind.2 (ends_fail.2 trivial)
  | command | call | expression | assign | conditional | skipped => cases hst

end Rules

/-! ## What stopped a block -/

section Stopped

variable (host : Host σ) (budget : Nat)
variable (self : String → (t : Task σ) → Exec σ t.Result) (source : String)

/-- Where conditions are looked at one after the other from a state, a block is taken in
another one: that of the first branch whose condition holds, or the one behind `else`. -/
inductive Takes (otherwise : Option Otherwise) : List Branch → State σ → Block → State σ → Prop
  | here {c : Condition} {brackets : Brackets} {b : Block} {span : Span} {rest : List Branch}
      {s u : State σ} {v : Value} :
      required self source c.inner c.span s = (.ok v, u) → v.isTruthy = true →
      Takes otherwise (.mk (some c) (some (.mk brackets b)) span :: rest) s b u
  | later {c : Condition} {braced : Option Braced} {span : Span} {rest : List Branch} {b : Block}
      {s u w : State σ} {v : Value} :
      required self source c.inner c.span s = (.ok v, u) → v.isTruthy = false →
      Takes otherwise rest u b w → Takes otherwise (.mk (some c) braced span :: rest) s b w
  | otherwise {token : Token} {brackets : Brackets} {b : Block} {span : Span} {s : State σ} :
      otherwise = some (.mk token (some (.mk brackets b)) span) → Takes otherwise [] s b s

/-- What put something on its way between two states: a statement with branches, in the
block that it took, or a loop that a `return` left. -/
inductive Puts (p : Pending) : Statement → State σ → State σ → Prop
  | conditional {token : Token} {first : Branch} {others : List ElseIf}
      {otherwise : Option Otherwise} {span : Span} {b : Block} {s u t : State σ} :
      Takes self source otherwise (first :: others.map (·.branch)) s b u → u.Clear →
      block self source b u = (.ok (), t) →
      Puts p (.conditional token first others otherwise span) s t
  | loop {st : Statement} {s t : State σ} :
      st.isLoop = true → p.statement.isReturn = true → Puts p st s t

/-- All of some statements were run between two states, with nothing on its way behind any
of them. -/
inductive Runs : List Statement → State σ → State σ → Prop
  | nil {s : State σ} : Runs [] s s
  | cons {st : Statement} {rest : List Statement} {values : Option (List Value)} {s u t : State σ} :
      statement host budget self source st s = (.ok values, u) → u.Clear → Runs rest u t →
      Runs (st :: rest) s t

/-- Where statements were stopped that ran between two states: at the last one, which is
what is on its way, or at one of the others, which put it there. All statements before it
were run, and none of those behind it: the run ends where it ends. -/
inductive Stopped (p : Pending) (last : Option LastStatement) (ss : List Statement)
    (s t : State σ) : Prop
  | last {l : LastStatement} {u : State σ} :
      last = some l → Runs host budget self source ss s u →
      leave self source l u = (.ok (), t) → p.statement = l → Stopped p last ss s t
  | inside {before behind : List Statement} {st : Statement} {values : Option (List Value)}
      {u : State σ} :
      ss = before ++ st :: behind → Runs host budget self source before s u →
      statement host budget self source st u = (.ok values, t) → Puts self source p st u t →
      Stopped p last ss s t

end Stopped

section Stopping

variable {host : Host σ} {budget : Nat}
variable {self : String → (t : Task σ) → Exec σ t.Result} {source : String}
variable {s t u : State σ} {p : Pending}

theorem statement_of_leave {l : LastStatement} (h : leave self source l s = (.ok (), t))
    (hp : t.pending = some p) : p.statement = l := by
  have hmodify : ∀ {values u}, (modify fun s => { s with pending := some ⟨s.scope, l, values⟩ } :
      Exec σ PUnit) u = (.ok (), t) → p.statement = l := by
    intro values u hu
    cases hu
    cases hp
    rfl
  cases l with
  | «return» =>
    obtain ⟨values, u, -, hu⟩ := bind_eq_ok h
    exact hmodify hu
  | «break» | «continue» => exact hmodify h

/-- A statement in front of others that were stopped is one of those that were run. -/
theorem Stopped.cons {st : Statement} {values : Option (List Value)}
    {last : Option LastStatement} {ss : List Statement}
    (hst : statement host budget self source st s = (.ok values, u)) (hu : u.Clear)
    (h : Stopped host budget self source p last ss u t) :
    Stopped host budget self source p last (st :: ss) s t := by
  cases h with
  | last hl hruns hleave hp => exact .last hl (.cons hst hu hruns) hleave hp
  | inside hss hruns hstops hputs =>
    subst hss
    exact .inside (List.cons_append ..).symm (.cons hst hu hruns) hstops hputs

variable (hhost : host.LeavesPending) (ho : (clearing σ).Obeys self)

include hhost ho

/-- Branches that leave something on its way do so in the block that was taken. -/
theorem takes_of_branches {otherwise : Option Otherwise} {bs : List Branch} (hs : s.Clear)
    (h : branches self source
      (match otherwise with
        | none => pure ()
        | some o =>
          match o.block with
          | none => fail .missingElseBlock o.span
          | some b => block self source b.block) bs s = (.ok (), t))
    (hp : t.pending = some p) :
    ∃ b u, Takes self source otherwise bs s b u ∧ u.Clear ∧
      block self source b u = (.ok (), t) := by
  induction bs generalizing s with
  | nil =>
    rcases otherwise with _ | ⟨token, _ | ⟨brackets, b⟩, span⟩
    · cases h
      cases hs.symm.trans hp
    · cases h
    · exact ⟨b, s, .otherwise rfl, hs, h⟩
  | cons b rest ih =>
    obtain ⟨_ | c, braced, span⟩ := b
    · cases h
    obtain ⟨v, u, hc, h⟩ := bind_eq_ok h
    have hu : u.Clear := (endsIn_required hhost ho hs c.inner c.span).of_ok hc
    cases hv : v.isTruthy with
    | false =>
      simp only [hv, Bool.false_eq_true, if_false] at h
      obtain ⟨b, w, htakes, hw, hblock⟩ := ih hu h
      exact ⟨b, w, .later hc hv htakes, hw, hblock⟩
    | true =>
      simp only [hv, if_true] at h
      rcases braced with _ | ⟨brackets, b⟩
      · cases h
      · exact ⟨b, u, .here hc hv, hu, h⟩

theorem puts_of_statement {st : Statement} {values : Option (List Value)} (hs : s.Clear)
    (h : statement host budget self source st s = (.ok values, t)) (hp : t.pending = some p) :
    Puts self source p st s t := by
  cases hst : st.isCompound with
  | false =>
    have ht : t.Clear := (endsIn_statement hhost ho hst hs).of_ok h
    cases ht.symm.trans hp
  | true =>
    obtain ⟨token, first, others, otherwise, span, rfl⟩ | hloop :=
      Statement.isLoop_of_isCompound hst
    · obtain ⟨⟨⟩, u, hbranches, hu⟩ := bind_eq_ok h
      cases hu
      obtain ⟨b, u, htakes, hu, hblock⟩ := takes_of_branches hhost ho hs hbranches hp
      exact .conditional htakes hu hblock
    · exact .loop hloop ((endsIn_loop hhost ho hloop hs).of_ok h p hp)

/-- **What is on its way behind a block is what stopped it**, and nothing of the block was
run after that. -/
theorem stopped_of_statements {last : Option LastStatement} {ss : List Statement}
    {result values : Option (List Value)} (hs : s.Clear)
    (h : statements host budget self source last result ss s = (.ok values, t))
    (hp : t.pending = some p) : Stopped host budget self source p last ss s t := by
  induction ss generalizing s result with
  | nil =>
    cases last with
    | none =>
      cases h
      cases hs.symm.trans hp
    | some l =>
      obtain ⟨⟨⟩, u, hleave, hu⟩ := bind_eq_ok h
      cases hu
      exact .last rfl .nil hleave (statement_of_leave hleave hp)
  | cons st rest ih =>
    obtain ⟨given, u, hst, h⟩ := bind_eq_ok h
    obtain ⟨_, _, hget, h⟩ := bind_eq_ok h
    cases hget
    cases hu : u.pending with
    | none =>
      simp only [hu, Option.isSome_none, Bool.false_eq_true, if_false] at h
      exact .cons hst hu (ih hu h)
    | some q =>
      simp only [hu, Option.isSome_some, if_true] at h
      cases h
      exact .inside (List.nil_append _).symm .nil hst (puts_of_statement hhost ho hs hst hp)

omit hhost ho in
/-- A `break` or `continue` that a body leaves on its way makes a failure of the call. -/
theorem callLambda_of_leaves {a : Address} {closure : Closure} {brackets : Brackets} {b : Block}
    {arguments : List Value} (hc : s.heap.lambdas[a]? = some closure)
    (hdepth : s.depth < s.maxDepth) (hb : closure.body.block = some (.mk brackets b))
    (hbody : self source (.body b) ((Bracket.lambda closure.frame
      (Bracket.parameters closure.body.names arguments)).enter s) = (.ok (), t))
    (hp : t.pending = some p) (hloop : p.statement.isReturn = false) :
    callLambda self source a arguments false s =
      (.error (.failed ⟨.leavesLambda p.statement.token.text, some p.statement.span,
        t.calls.reverse⟩), { t with scope := s.scope, depth := t.depth - 1, pending := none }) := by
  refine Ends.eq_error (ends_bind.2 (ends_get.2 ?_))
  simp only [hc, hb, Nat.not_le.2 hdepth, if_false]
  refine ends_bind.2 (ends_set.2 (ends_bind.2 ?_))
  simp only [ends_finishing, ends_tryCatch, ends_within]
  refine (ends_of_ok hbody).2 (ends_bind.2 (ends_get.2 ?_))
  simp only [hp, Bool.false_eq_true, if_false]
  refine ends_bind.2 (ends_modify.2 ?_)
  split
  · next hl => simp [hl, LastStatement.isReturn] at hloop
  · exact ends_fail.2 ⟨rfl, rfl⟩

omit hhost ho in
/-- At the end of a text, a `break` or `continue` on its way makes a failure of the run. -/
theorem runBlock_of_leaves {b : Block} {values : Option (List Value)}
    (h : statements host budget (run host budget) source b.last none b.body s = (.ok values, t))
    (hp : t.pending = some p) (hloop : p.statement.isReturn = false) :
    runBlock host budget source b s =
      (.error (.failed ⟨.outsideLoop p.statement.token.text, some p.statement.span,
        t.calls.reverse⟩), { t with pending := none }) := by
  refine Ends.eq_error (ends_bind.2 ((ends_of_ok h).2 (ends_bind.2 (ends_get.2 ?_))))
  simp only [hp]
  refine ends_bind.2 (ends_modify.2 ?_)
  split
  · next hl => simp [hl, LastStatement.isReturn] at hloop
  · exact ends_fail.2 ⟨rfl, rfl⟩

end Stopping

/-! ## All of it -/

/-- What can be on its way where something ends well that was started in a state with
nothing on its way, under a budget for what it asks for. -/
structure TakenUp (host : Host σ) (budget : Nat) (source : String) (s : State σ) : Prop where
  /-- Behind an expression, nothing. -/
  value : ∀ e v t, run host (budget + 1) source (.value e) s = (.ok v, t) → t.Clear
  /-- Behind a call of anything, by a script or for the host, nothing. -/
  invoke : ∀ callee arguments name span values t,
    invoke host (run host budget) source callee arguments name span s = (.ok values, t) → t.Clear
  callForHost : ∀ f arguments v t,
    callForHost host (run host budget) source f arguments s = (.ok v, t) → t.Clear
  call : ∀ a arguments values t,
    run host (budget + 1) source (.call a arguments false) s = (.ok values, t) → t.Clear
  /-- Behind a statement without blocks, nothing. -/
  plain : ∀ st values t, st.isCompound = false →
    statement host budget (run host budget) source st s = (.ok values, t) → t.Clear
  /-- Behind a loop, at most a `return`. -/
  loop : ∀ st values t, st.isLoop = true →
    statement host budget (run host budget) source st s = (.ok values, t) → t.OutOfLoops
  /-- Behind a statement, what was put there in the block it took, or was a `return` from
  its rounds. -/
  statement : ∀ st values t p,
    statement host budget (run host budget) source st s = (.ok values, t) → t.pending = some p →
    Puts (run host budget) source p st s t
  /-- Behind the statements of a block, what stopped them. -/
  body : ∀ b t p, run host (budget + 1) source (.body b) s = (.ok (), t) → t.pending = some p →
    Stopped host budget (run host budget) source p b.last b.body s t
  /-- Behind the statements of a text, what stopped them; and if that is no `return`, the run
  fails. -/
  text : ∀ b values t p,
    statements host budget (run host budget) source b.last none b.body s = (.ok values, t) →
    t.pending = some p → Stopped host budget (run host budget) source p b.last b.body s t ∧
      (p.statement.isReturn = false → runBlock host budget source b s =
        (.error (.failed ⟨.outsideLoop p.statement.token.text, some p.statement.span,
          t.calls.reverse⟩), { t with pending := none }))
  /-- A call fails if its body leaves a `break` or `continue` on its way. -/
  leavesCall : ∀ a closure brackets b arguments t p, s.heap.lambdas[a]? = some closure →
    s.depth < s.maxDepth → closure.body.block = some (.mk brackets b) →
    run host budget source (.body b) ((Bracket.lambda closure.frame
      (Bracket.parameters closure.body.names arguments)).enter s) = (.ok (), t) →
    t.pending = some p → p.statement.isReturn = false →
    run host (budget + 1) source (.call a arguments false) s =
      (.error (.failed ⟨.leavesLambda p.statement.token.text, some p.statement.span,
        t.calls.reverse⟩), { t with scope := s.scope, depth := t.depth - 1, pending := none })

/-- **What leaves a block is taken up by the innermost loop around it, by the call around
it, or not at all.** In every state with nothing on its way, for every tree: nothing is on
its way behind an expression, a call, an assignment; nothing or a `return` behind a loop;
and behind a block or a statement with branches what stopped it, with nothing run after
that. A `break` or `continue` that gets out of a lambda or a text is a failure. -/
theorem takenUp_run {host : Host σ} (hhost : host.LeavesPending) {s : State σ} (hs : s.Clear)
    (budget : Nat) (source : String) : TakenUp host budget source s := by
  have hK := clearing_laws hhost
  have ho := Discipline.obeys_run hK budget
  have hnext := Discipline.obeys_run hK (budget + 1)
  constructor
  case value =>
    intro e v t h
    exact (endsIn_of_calm (hnext.value hs (covers_nothing s) (permits_all _))).of_ok h
  case invoke =>
    intro callee arguments name span values t h
    exact (endsIn_of_calm (Discipline.calm_invoke hK ho hs (Region.holds_all callee)
      (fun v _ => Region.holds_all v) name span)).of_ok h
  case callForHost =>
    intro f arguments v t h
    have hends : (Eval.callForHost host (run host budget) source f arguments).EndsIn s
        State.Clear :=
      Ends.mono (Discipline.answered_callForHost hK ho hs (Region.holds_all f)
        fun v _ => Region.holds_all v) (fun _ _ hu => hu.2.1) fun _ _ _ => trivial
    exact hends.of_ok h
  case call =>
    intro a arguments values t h
    have ha : (clearing σ).region.lambda a := trivial
    exact (endsIn_of_calm (hnext.call hs ha fun v _ => Region.holds_all v)).of_ok h
  case plain =>
    intro st values t hst h
    exact (endsIn_statement hhost ho hst hs).of_ok h
  case loop =>
    intro st values t hst h
    exact (endsIn_loop hhost ho hst hs).of_ok h
  case statement =>
    intro st values t p h hp
    exact puts_of_statement hhost ho hs h hp
  case body =>
    intro b t p h hp
    obtain ⟨values, u, hstatements, hu⟩ := bind_eq_ok h
    cases hu
    exact stopped_of_statements hhost ho hs hstatements hp
  case text =>
    intro b values t p h hp
    exact ⟨stopped_of_statements hhost ho hs h hp, runBlock_of_leaves h hp⟩
  case leavesCall =>
    intro a closure brackets b arguments t p hc hdepth hb hbody hp hloop
    exact callLambda_of_leaves hc hdepth hb hbody hp hloop

end Eval

/-- A step that ends well and leaves a `return` on its way. -/
theorem exists_return {r : Except Stop Unit × State σ}
    (h : (r.1.isOk && r.2.pending.any (·.statement.isReturn)) = true) :
    ∃ t p, r = (.ok (), t) ∧ t.pending = some p ∧ p.statement.isReturn = true := by
  obtain ⟨_ | _, t⟩ := r
  · cases h
  · obtain ⟨p, hp, hreturn⟩ := (Option.any_eq_true _ _).1 (Bool.and_eq_true_iff.1 h).2
    exact ⟨t, p, rfl, hp, hreturn⟩

/-- A `continue` in a branch is taken up by the loop around it; the `return` of a later round
is what stops the text, and the command behind it is not run. -/
theorem takenUp_run_recorder :
    let host := Recorder.host 8
    let b := treeOf "for ([1, 2]) |x| \x7b if ($x == 1) \x7b continue \x7d return $x \x7d\n print 3"
    host.LeavesPending ∧ Recorder.ready.Clear ∧ ∃ t p,
      Eval.run host (40 + 1) "" (.body b) Recorder.ready = (.ok (), t) ∧ t.pending = some p ∧
        p.statement.isReturn = true ∧
        Eval.Stopped host 40 (Eval.run host 40) "" p b.last b.body Recorder.ready t := by
  intro host b
  have hhost : host.LeavesPending := (Recorder.leavesControl_host 8).leavesPending
  have hclear : Recorder.ready.Clear := rfl
  obtain ⟨t, p, hrun, hp, hreturn⟩ :=
    exists_return (r := Eval.run host (40 + 1) "" (.body b) Recorder.ready) (by decide +kernel)
  have htaken := Eval.takenUp_run hhost hclear 40 ""
  exact ⟨hhost, hclear, t, p, hrun, hp, hreturn, htaken.body b t p hrun hp⟩

end CommandScript
