import CommandScript.Proofs.Idle
import CommandScript.Proofs.Level
/-!
# CommandScript — what has no `while` comes to an end

Only `while` goes on for as long as it likes. A `for` goes over what its subject held when
it began, whatever its rounds do to the subject, and lambdas may call each other and
themselves, but only so deep. So a run comes to an end if no `while` is in its text or in
a lambda that it can reach, and if the host answers without calling back.

That is an induction on how many more calls may be nested, and for each level of calls
one along the tree: a call gets one level deeper, and everything else that is run stands
in the tree. Lambdas are values, so what can be called is whatever can be reached, and
of that it is known throughout the run that it has no `while` (`Reach.Closed`).
-/

namespace CommandScript

open Exec Outline

variable {σ : Type}

namespace Level

variable {L : Level σ} {host : Host σ} {source : String} {s : State σ}

/-! ## What stands in a tree -/

mutual

theorem evaluates (hL : L.Hosted host) : ∀ e : Expression, (ofExpression e).WhileFree →
    L.Evaluates host source e
  | .nil _, _ => fun _ hs => .rule (.pure hs trivial)
  | .boolean _, _ => fun _ hs => .rule (.pure hs trivial)
  | .number t, _ => by
    refine fun s hs => .rule ?_
    simp only [Eval.rule, Eval.value]
    split
    · exact .pure hs trivial
    · exact .fail
  | .string _, _ => fun _ hs => .rule (.pure hs trivial)
  | .binary l o r span, h => by
    simp only [ofExpression, each_node, eachOf_cons, each_token, true_and] at h
    have hl := evaluates hL l h.2.1
    have hr := evaluates_optional hL r h.2.2
    exact fun s hs => .rule (comes_binary hl hr hs o span)
  | .unary o v span, h => by
    simp only [ofExpression, each_node, eachOf_cons, each_token, true_and] at h
    have hv := evaluates_optional hL v h.2
    exact fun s hs => .rule ((comes_required hv hs span).bind fun w t _ ht =>
      comes_operated ht fun _ => Region.holds_unary)
  | .vector _ is _, h => by
    simp only [ofExpression, each_node, eachOf_bracketed] at h
    have his := evaluates_items hL is h.2
    exact fun s hs => .rule ((comes_itemValues his hs).bind
      fun _ _ hvs ht => comes_newVector ht hvs)
  | .table _ fs _, h => by
    simp only [ofExpression, each_node, eachOf_bracketed] at h
    have hfs := hasEntries hL fs h.2
    exact fun s hs => .rule ((comes_fieldEntries hfs hs Region.heldTable_empty).bind
      fun _ _ ht hu => comes_newTable hu ht)
  | .lambda body, h => by
    simp only [ofExpression, each_node, eachOf_cons] at h
    exact fun s hs => .rule (.get (comes_newLambda hs h.2.1 source))
  | .group _ none _, _ => fun _ hs => .rule (.pure hs trivial)
  | .group _ (some e) _, h => by
    simp only [ofExpression, each_node, eachOf_bracketed, ofOptional, eachOf_cons] at h
    have he := evaluates hL e h.2.1
    exact fun s hs => .rule (he s hs)
  | .var v, h => by
    obtain ⟨hroot, hkeys⟩ := hasChain hL v h
    exact fun s hs => .rule (comes_varValue hL.keeps hroot hkeys hs)
  | .call c, h => by
    have hc := comes_of_call hL c h
    exact fun s hs => .rule ((hc s hs).bind fun _ _ hvs ht => .pure ht hvs.headD)
  | .skipped _, _ => fun _ _ => .rule .fail

theorem evaluates_optional (hL : L.Hosted host) : ∀ e : Option Expression,
    AllWhileFree (ofOptional e) → ∀ x, e = some x → L.Evaluates host source x
  | none, _ => fun _ h => nomatch h
  | some e, h => by
    have he := evaluates hL e (eachOf_cons.1 h).1
    exact fun x hx => Option.some.inj hx ▸ he

theorem evaluates_items (hL : L.Hosted host) : ∀ is : List (SeparatedItem Expression),
    AllWhileFree (ofItems is) → ∀ i ∈ is, ∀ x, i.value = some x → L.Evaluates host source x
  | [], _ => fun _ hi => absurd hi List.not_mem_nil
  | ⟨v, _, _⟩ :: rest, h => by
    simp only [ofItems, ofItem, eachOf_append, eachOf_ofTokens, and_true] at h
    exact List.forall_mem_cons.2 ⟨evaluates_optional hL v h.1, evaluates_items hL rest h.2⟩

theorem evaluates_arguments (hL : L.Hosted host) : ∀ es : List Expression,
    AllWhileFree (ofArguments es) → ∀ e ∈ es, L.Evaluates host source e
  | [], _ => fun _ he => absurd he List.not_mem_nil
  | e :: rest, h => by
    simp only [ofArguments, eachOf_cons] at h
    exact List.forall_mem_cons.2 ⟨evaluates hL e h.1, evaluates_arguments hL rest h.2⟩

theorem hasEntry (hL : L.Hosted host) : ∀ f : TableField, (ofField f).WhileFree →
    L.HasEntry host source f
  | .named _ _ v _, h => by
    simp only [ofField, each_node, eachOf_cons, each_token, true_and] at h
    exact ⟨fun _ _ hs => .pure hs trivial, evaluates_optional hL v h.2⟩
  | .keyed _ k _ v span, h => by
    simp only [ofField, each_node, eachOf_append, eachOf_bracketed, eachOf_ofTokens, and_true] at h
    have hk := evaluates_optional hL k h.2.1
    exact ⟨fun s _ hs => (comes_required hk hs span).bind fun key _ _ ht =>
      comes_tableKey ht key span, evaluates_optional hL v h.2.2⟩
  | .positional v _, h => by
    simp only [ofField, each_node, eachOf_cons] at h
    have hv := evaluates hL v h.2.1
    exact ⟨fun _ _ hs => .pure hs trivial, fun x hx => Option.some.inj hx ▸ hv⟩

theorem hasEntries (hL : L.Hosted host) : ∀ fs : List (SeparatedItem TableField),
    AllWhileFree (ofFields fs) → ∀ i ∈ fs, ∀ f, i.value = some f → L.HasEntry host source f
  | [], _ => fun _ hi => absurd hi List.not_mem_nil
  | ⟨none, _, _⟩ :: rest, h => by
    simp only [ofFields, eachOf_append] at h
    exact List.forall_mem_cons.2 ⟨fun _ hf => (nomatch hf), hasEntries hL rest h.2⟩
  | ⟨some f, _, _⟩ :: rest, h => by
    simp only [ofFields, ofFieldItem, ofOptionalField, eachOf_append, eachOf_cons] at h
    have hf := hasEntry hL f h.1.1.1
    exact List.forall_mem_cons.2 ⟨fun x hx => Option.some.inj hx ▸ hf, hasEntries hL rest h.2⟩

theorem hasName (hL : L.Hosted host) : ∀ r : VarRoot, (ofRoot r).WhileFree → L.HasName host source r
  | .bare _, _ => fun _ hs => .pure hs trivial
  | .named _ none _, _ => fun _ _ => .fail
  | .named _ (some _) _, _ => fun _ hs => .pure hs trivial
  | .computed _ _ i span, h => by
    simp only [ofRoot, each_node, eachOf_cons, eachOf_bracketed] at h
    have hi := evaluates_optional hL i h.2.2
    refine fun s hs => (comes_required hi hs span).bind fun v t _ ht => ?_
    split
    · exact .pure ht trivial
    · exact .fail

theorem hasKey (hL : L.Hosted host) : ∀ x : VarSuffix, (ofSuffix x).WhileFree →
    L.HasKey host source x
  | .field _ none _, _ => fun _ _ => .fail
  | .field _ (some _) _, _ => fun _ hs => .pure hs trivial
  | .index _ _ i span, h => by
    simp only [ofSuffix, each_node, eachOf_cons, eachOf_bracketed] at h
    have hi := evaluates_optional hL i h.2.2
    exact fun s hs => comes_required hi hs span

theorem hasKeys (hL : L.Hosted host) : ∀ xs : List VarSuffix, AllWhileFree (ofSuffixes xs) →
    ∀ x ∈ xs, L.HasKey host source x
  | [], _ => fun _ hx => absurd hx List.not_mem_nil
  | x :: rest, h => by
    simp only [ofSuffixes, eachOf_cons] at h
    exact List.forall_mem_cons.2 ⟨hasKey hL x h.1, hasKeys hL rest h.2⟩

theorem hasChain (hL : L.Hosted host) : ∀ v : Var, (ofVar v).WhileFree →
    L.HasName host source v.root ∧ ∀ x ∈ v.suffixes, L.HasKey host source x
  | .mk r xs _, h => by
    simp only [ofVar, each_node, eachOf_cons] at h
    exact ⟨hasName hL r h.2.1, hasKeys hL xs h.2.2⟩

theorem comes_of_command (hL : L.Hosted host) : ∀ c : Command, (ofCommand c).WhileFree → ∀ s,
    L.Fine s → L.Comes s L.Held fun m => Eval.command host (Eval.run host m) source c
  | .mk callee arguments _, h => by
    simp only [ofCommand, each_node, eachOf_cons] at h
    obtain ⟨hroot, hkeys⟩ := hasChain hL callee h.2.1
    have harguments := evaluates_arguments hL arguments h.2.2
    exact fun s hs => comes_command hL hroot hkeys harguments hs

theorem comes_of_call (hL : L.Hosted host) : ∀ c : Call, (ofCall c).WhileFree → ∀ s, L.Fine s →
    L.Comes s L.Held fun m => Eval.call host (Eval.run host m) source c
  | .mk _ none _, _ => fun _ _ => .fail
  | .mk _ (some c) _, h => by
    simp only [ofCall, each_node, eachOf_cons, ofOptionalCommand] at h
    exact comes_of_command hL c h.2.2.1

end

mutual

theorem executes (hL : L.Hosted host) : ∀ st : Statement, (ofStatement st).WhileFree →
    L.Executes host source st
  | .command c, h => fun s hs => (comes_of_command hL c h s hs).map fun _ _ => trivial
  | .call c, h => fun s hs => (comes_of_call hL c h s hs).map fun _ _ => trivial
  | .expression e, h => by
    simp only [ofStatement, each_node, eachOf_cons] at h
    have he : L.Evaluates host source e := evaluates hL e h.2.1
    exact fun s hs => (he s hs).bind fun _ _ _ ht => .pure ht trivial
  | .assign target _ v span, h => by
    simp only [ofStatement, each_node, eachOf_cons, each_token, true_and] at h
    obtain ⟨hroot, hkeys⟩ : L.HasName host source target.root ∧ _ := hasChain hL target h.2.1
    refine fun s hs => (comes_required (evaluates_optional hL v h.2.2) hs span).bind
      fun w t hw ht => ?_
    exact (comes_assign hL.keeps hroot hkeys ht hw).bind fun _ _ _ hu => .pure hu trivial
  | .conditional _ first others otherwise _, h => by
    simp only [ofStatement, each_node, List.cons_append, eachOf_cons, eachOf_append] at h
    have hbranches : ∀ b ∈ first :: others.map (·.branch), L.Branches host source b :=
      List.forall_mem_cons.2 ⟨branches hL first h.2.2.1, branches_elseIfs hL others h.2.2.2.1⟩
    have hotherwise := comes_otherwise hL otherwise h.2.2.2.2
    exact fun s hs => (comes_branches hbranches hotherwise hs).bind fun _ _ _ ht => .pure ht trivial
  | .whileLoop .., h => by
    simp only [ofStatement, each_node, Node.isWhile] at h
    cases h.1
  | .forLoop _ none _ _, _ => fun _ _ => .fail
  | .forLoop _ (some _) none _, _ => fun _ _ => .fail
  | .forLoop _ (some (.mk brackets inner)) (some e) span, h => by
    simp only [ofStatement, each_node, ofOptionalCondition, ofCondition, List.cons_append,
      eachOf_cons, eachOf_append, eachOf_bracketed, ofOptional] at h
    refine fun s hs => (comes_required (evaluates_optional hL inner h.2.2.1) hs _).bind
      fun v t hv ht => ?_
    refine (evaluates hL e h.2.2.2.1 t ht).bind fun f u hf hu => ?_
    cases f with
    | lambda a => exact (comes_forLoop hL hu hv hf _).bind fun _ _ _ hw => .pure hw trivial
    | _ => exact .fail_bind
  | .skipped _, _ => fun _ _ => .fail

theorem executes_all (hL : L.Hosted host) : ∀ ss : List Statement, AllWhileFree (ofStatements ss) →
    ∀ st ∈ ss, L.Executes host source st
  | [], _ => fun _ hst => absurd hst List.not_mem_nil
  | st :: rest, h => by
    simp only [ofStatements, eachOf_cons] at h
    exact List.forall_mem_cons.2 ⟨executes hL st h.1, executes_all hL rest h.2⟩

theorem branches (hL : L.Hosted host) : ∀ b : Branch, (ofBranch b).WhileFree →
    L.Branches host source b
  | .mk none braced _, h => by
    simp only [ofBranch, each_node, eachOf_append] at h
    exact ⟨fun _ hc => (nomatch hc), runs_braced hL braced h.2.2⟩
  | .mk (some (.mk _ inner)) braced _, h => by
    simp only [ofBranch, each_node, eachOf_append, ofOptionalCondition, ofCondition,
      eachOf_bracketed] at h
    have hinner : ∀ e, inner = some e → L.Evaluates host source e :=
      evaluates_optional hL inner h.2.1
    exact ⟨fun _ hc => Option.some.inj hc ▸ hinner, runs_braced hL braced h.2.2⟩

theorem branches_elseIfs (hL : L.Hosted host) : ∀ es : List ElseIf, AllWhileFree (ofElseIfs es) →
    ∀ b ∈ es.map (·.branch), L.Branches host source b
  | [], _ => fun _ hb => absurd hb List.not_mem_nil
  | .mk _ b _ :: rest, h => by
    simp only [ofElseIfs, ofElseIf, eachOf_cons, each_node] at h
    exact List.forall_mem_cons.2 ⟨branches hL b h.1.2.2.1, branches_elseIfs hL rest h.2⟩

theorem comes_otherwise (hL : L.Hosted host) : ∀ o : Option Otherwise,
    AllWhileFree (ofOptionalOtherwise o) → ∀ t, L.Fine t →
    L.Comes t (fun _ => True) fun m => match o with
      | none => pure ()
      | some o =>
        match o.block with
        | none => Exec.fail .missingElseBlock o.span
        | some b => Eval.block (Eval.run host m) source b.block
  | none, _ => fun _ ht => .pure ht trivial
  | some (.mk _ none _), _ => fun _ _ => .fail
  | some (.mk _ (some b) _), h => by
    simp only [ofOptionalOtherwise, ofOtherwise, eachOf_cons, each_node] at h
    exact fun t ht => comes_block (runs_braced hL (some b) h.1.2.2 b rfl) ht

theorem runs_braced (hL : L.Hosted host) : ∀ b : Option Braced, AllWhileFree (ofOptionalBraced b) →
    ∀ x, b = some x → L.Runs host source x.block
  | none, _ => fun _ hx => nomatch hx
  | some (.mk _ b), h => by
    simp only [ofOptionalBraced, ofBraced, eachOf_bracketed, eachOf_cons] at h
    have hb : L.Runs host source b := (listed hL b h.1).runs
    exact fun x hx => Option.some.inj hx ▸ hb

theorem listed (hL : L.Hosted host) : ∀ b : Block, (ofBlock b).WhileFree → L.Listed host source b
  | .mk ss last _, h => by
    simp only [ofBlock, each_node, eachOf_append] at h
    refine fun s hs => comes_statements (executes_all hL ss h.2.1) (fun token vs span hl => ?_) hs
      none
    subst hl
    simp only [ofOptionalLast, ofLast, eachOf_cons, each_node] at h
    exact evaluates_items hL vs h.2.2.1.2.2

end

/-! ## Calls -/

theorem comes_valuesOfCall (hs : L.Fine s) (loop : Bool) :
    L.Comes s L.Held fun _ => (Discipline.valuesOfCall loop : Exec σ (List Value)) := by
  have hclear : L.Fine { s with pending := none } := hs.withPending none fun _ hp => nomatch hp
  refine .get ?_
  split
  · exact .pure hs Region.held_nil
  · next p hp =>
    cases loop with
    | true => exact .pure hs Region.held_nil
    | false =>
      refine (Comes.modify hclear).bind fun _ t _ ht => ?_
      split
      · exact .pure ht (hs.closed.pending p hp)
      · exact .fail

/-- The body of a lambda, on the level of its call. -/
theorem comes_lambdaBody (hlt : L.depth < L.maxDepth)
    (h : L.depth < L.maxDepth → ∀ source b, (ofBlock b).WhileFree → L.deeper.Runs host source b)
    {body : FunctionBody} (hbody : body.WhileFree) (hs : L.deeper.Fine s) :
    L.deeper.Comes s (fun _ => True) fun m => (match body.block with
      | some b => Eval.run host m source (.body b.block)
      | none => pure () : Exec σ Unit) := by
  obtain ⟨bars, ps, block, span⟩ := body
  cases block with
  | none => exact .pure hs trivial
  | some braced =>
    obtain ⟨brackets, b⟩ := braced
    unfold FunctionBody.WhileFree at hbody
    simp only [ofBody, ofOptionalBraced, ofBraced, each_node, eachOf_append, eachOf_bracketed,
      eachOf_cons] at hbody
    exact h hlt source b hbody.2.2.1 s hs

/-- **A call settles**, if one level deeper bodies do. -/
theorem calls_of_deeper (h : L.depth < L.maxDepth → ∀ source b, (ofBlock b).WhileFree →
    L.deeper.Runs host source b) : L.Calls host := by
  intro source s a arguments loop hs ha harg
  refine .rule (.get ?_)
  cases hc : s.heap.lambdas[a]? with
  | none => exact .pure hs Region.held_nil
  | some closure =>
    obtain ⟨hframe, hbody⟩ := hs.closed.lambdas a closure ha hc
    dsimp only
    split
    · exact .fail_bind
    · next hdepth =>
      have hlt : L.depth < L.maxDepth := by
        rw [← hs.depth, ← hs.maxDepth]
        exact Nat.lt_of_not_le hdepth
      have henter := hs.closed.enter true (s.depth + 1) hframe
        (Bracket.held_parameters closure.body.names harg)
      have hentered : s.depth + 1 = L.deeper.depth := congrArg (· + 1) hs.depth
      have hleft : ∀ t, L.deeper.Fine t →
          L.Fine { t with scope := s.scope, depth := t.depth - 1 } := fun t ht =>
        ⟨hs.closed.back ht.closed (t.depth - 1), congrArg (· - 1) ht.depth, ht.maxDepth⟩
      refine .set (Settles.bind (Q := fun _ => L.Fine)
        (.finishing (.tryCatch (.within ?_) ?_)) fun _ t ht => comes_valuesOfCall ht loop)
      · exact Settles.imp (comes_lambdaBody hlt h hbody ⟨henter, hentered, hs.maxDepth⟩)
          fun _ t ht => hleft t ht.2
      · intro e t he
        split
        · exact ends_fail.2 nofun
        · exact ends_throw.2 he

/-- Only so many calls can be nested, so lambdas can be called on every level. -/
theorem hosted (hanswers : host.AnswersAtOnce) (k : Nat) (hkeeps : host.KeepsWithin L.kept)
    (hk : L.maxDepth ≤ L.depth + k) : L.Hosted host := by
  induction k generalizing L with
  | zero => exact ⟨hkeeps, hanswers, calls_of_deeper fun h => absurd hk (by omega)⟩
  | succ k ih =>
    have hdeeper : L.deeper.Hosted host := ih hkeeps (by simp only [deeper]; omega)
    exact ⟨hkeeps, hanswers, calls_of_deeper fun _ _ b hb => (listed hdeeper b hb).runs⟩

theorem comes_runBlock (hL : L.Hosted host) {b : Block} (hb : b.WhileFree) (hs : L.Fine s)
    (source : String) : L.Comes s (fun _ => True) fun m => runBlock host m source b := by
  refine (listed hL b hb s hs).bind fun values t _ ht => .get ?_
  split
  · exact .pure ht trivial
  · have hclear : L.Fine { t with pending := none } := ht.withPending none (by rintro _ ⟨⟩)
    refine (Comes.modify hclear).bind fun _ u _ hu => ?_
    split
    · exact .pure hu trivial
    · exact .fail

end Level

/-- **What has no `while` comes to an end.** A run of a tree without `while`, in a state in
which no lambda that can be reached has one, ends: under every budget that is large enough
it has the same outcome, with values, a failure or a crash, and leaves the same state. The
host has to keep within what can be reached and to answer without calling back. -/
theorem exists_outcome_of_whileFree {host : Host σ} {kept : σ → Value → Prop}
    (hkeeps : host.KeepsWithin kept) (hanswers : host.AnswersAtOnce) {b : Block}
    (hb : b.WhileFree) {s : State σ} (hs : s.LambdasWhileFree kept) (source : String) :
    ∃ outcome t, outcome ≠ .exhausted ∧
      ∃ n, ∀ budget, n ≤ budget → execute host budget source b s = (outcome, t) := by
  obtain ⟨r, hclosed⟩ := hs
  let L : Level σ := ⟨r, kept, s.depth, s.maxDepth⟩
  have hL : L.Hosted host := Level.hosted hanswers s.maxDepth hkeeps (Nat.le_add_left ..)
  have henter := hclosed.enter true s.depth hclosed.scope Region.heldNames_empty
  rw [Frames.setVars_child] at henter
  have hrun := Level.comes_runBlock hL hb ⟨henter, rfl, rfl⟩ source
  have hwithin : Settles (fun m => within (s.frames.child s.scope true).1
      (runBlock host m source b)) { s with frames := (s.frames.child s.scope true).2 }
      fun _ _ => True := .within (Settles.imp hrun fun _ _ _ => trivial)
  obtain ⟨n, hsame, hends⟩ := hwithin
  unfold Ends at hends
  dsimp only at hsame hends
  refine ⟨(execute host n source b s).1, (execute host n source b s).2, ?_, n, fun m hm => ?_⟩
  · unfold execute
    dsimp only
    split
    case h_5 heq =>
      rw [heq] at hends
      exact absurd rfl hends
    all_goals exact nofun
  · unfold execute
    dsimp only
    rw [hsame m hm]

/-! ## The recording host without calls -/

/-- The reply gives up instead of having a function called. -/
def Reply.withoutCalls (s : State σ) : Reply σ → Reply σ
  | .call .. => .raise "functions cannot be called" s
  | r => r

/-- The host, where it gives up instead of having a function called. -/
def Host.withoutCalls (host : Host σ) : Host σ where
  command name arguments s := (host.command name arguments s).withoutCalls s
  field := host.field

theorem Host.KeepsWithin.withoutCalls {host : Host σ} {kept : σ → Value → Prop}
    (h : host.KeepsWithin kept) : host.withoutCalls.KeepsWithin kept where
  command r P name arguments s hs harg := by
    have hreply := h.command r P name arguments s hs harg
    change ((host.command name arguments s).withoutCalls s).Follows _ _ _ _
    cases hr : host.command name arguments s with
    | call => exact .crash hs trivial
    | value | crash => rwa [hr] at hreply
  field := h.field

namespace Recorder

theorem answersAtOnce_withoutCalls (rounds : Nat) :
    (Recorder.host rounds).withoutCalls.AnswersAtOnce := by
  intro name arguments s
  change ((command rounds name arguments s).withoutCalls s).IsAnswer s
  unfold command
  split
  all_goals try split
  case h_11.isTrue a f _ _ =>
    cases rounds with
    | zero => trivial
    | succ n =>
      unfold mapFrom
      split
      · trivial
      · exact ⟨rfl, rfl⟩
  all_goals trivial

theorem lambdaFree_ready : ready.LambdaFree Kept where
  toNamesLambdaFree :=
    State.namesLambdaFree_of_among 0 0 nofun nofun (by decide +kernel) (by decide +kernel)
  pending := nofun
  kept := by
    rintro v (rfl | ⟨name, hname⟩)
    · exact Heap.lambdaFree_of_among 1 0 (by decide) nofun rfl
    · cases hname

end Recorder

/-- A vector grows in each round of a `for` over it, and a lambda calls itself. -/
theorem exists_outcome_of_whileFree_recorder :
    let text := "$v = [1]\n for ($v) |x, i| \x7b $v.[$i + 1] = $x \x7d\n $f = || \x7b f \x7d\n f"
    let host := (Recorder.host 8).withoutCalls
    let b := treeOf text
    (parse text Limit.nesting).issues = [] ∧ host.KeepsWithin Recorder.Kept ∧
      host.AnswersAtOnce ∧ b.WhileFree ∧ Recorder.ready.LambdasWhileFree Recorder.Kept ∧
      ∃ outcome t, outcome ≠ .exhausted ∧
        ∃ n, ∀ budget, n ≤ budget → execute host budget text b Recorder.ready = (outcome, t) := by
  intro text host b
  have hkeeps : host.KeepsWithin Recorder.Kept :=
    (Recorder.confined_host 8).keepsWithin.withoutCalls
  have hanswers : host.AnswersAtOnce := Recorder.answersAtOnce_withoutCalls 8
  have hb : b.WhileFree := by decide +kernel
  have hs : Recorder.ready.LambdasWhileFree Recorder.Kept :=
    Recorder.lambdaFree_ready.exists_closed _
  exact ⟨by decide +kernel, hkeeps, hanswers, hb, hs,
    exists_outcome_of_whileFree hkeeps hanswers hb hs text⟩

end CommandScript
