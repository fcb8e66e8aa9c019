import CommandScript.Proofs.Accounted
import CommandScript.Proofs.Progress
import CommandScript.Proofs.Ranking
import CommandScript.Proofs.Visits
import CommandScript.Proofs.Walk
import CommandScript.Assist.Assistance
import CommandScript.Host.Recorder
/-!
# CommandScript — what an offer replaces

What is offered replaces the token at the caret, or nothing where no token is there. There
is one exception: between two parts of a command the caret counts as being at the argument
that comes next, and if that is a literal, it is the literal that is replaced, although the
caret has not reached it (`replace_of_assist`).

The last place that the walk finds is the one that counts, so nothing has to be said of the
order of the visits: each of them offers what fits, or leaves alone what was offered.
-/

namespace CommandScript

open Outline

/-! ## What shapes offer -/

/-- A callback of the host in a shape proposes something. -/
inductive Shape.Proposes : Shape → Suggestion → Prop
  | union {members : List Shape} {m : Shape} {o : Suggestion} :
      m ∈ members → m.Proposes o → (Shape.union members).Proposes o
  | intersection {members : List Shape} {m : Shape} {o : Suggestion} :
      m ∈ members → m.Proposes o → (Shape.intersection members).Proposes o
  | delegated {name : String} {test exactTest : Option ShapeTest} {s : Shape} {o : Suggestion} :
      s.Proposes o → (Shape.strange name test exactTest (some (.shape s))).Proposes o
  | callback {name : String} {test exactTest : Option ShapeTest}
      {offer : String → List Suggestion} {typed : String} {o : Suggestion} :
      o ∈ offer typed → (Shape.strange name test exactTest (some (.callback offer))).Proposes o

namespace Shape

variable {h : Heap} {typed : String} {o : Suggestion}

mutual

/-- What is offered for a shape does not say what it replaces, or it is of the host. -/
theorem proposes_of_suggest : ∀ {s : Shape} {os : List Suggestion},
    s.suggest h typed = .ok os → o ∈ os → o.replace = none ∨ s.Proposes o
  | .literal v, os, hos, ho => by
    cases htext : literalText h v with
    | error c => simp [suggest, htext, bind, Except.bind] at hos
    | ok t =>
      simp only [suggest, htext, bind, Except.bind, pure, Except.pure, Except.ok.injEq] at hos
      subst hos
      obtain rfl := List.mem_singleton.1 ho
      exact .inl rfl
  | .union members, os, hos, ho => by
    rw [suggest] at hos
    obtain hnone | ⟨m, hm, hproposes⟩ := proposes_of_suggestAll hos ho
    · exact .inl hnone
    · exact .inr (.union hm hproposes)
  | .intersection members, os, hos, ho => by
    rw [suggest] at hos
    obtain hnone | ⟨m, hm, hproposes⟩ := proposes_of_suggestAll hos ho
    · exact .inl hnone
    · exact .inr (.intersection hm hproposes)
  | .strange _ _ _ none, os, hos, ho => by
    simp only [suggest, suggestOffers, Except.ok.injEq] at hos
    subst hos
    cases ho
  | .strange _ _ _ (some (.shape s)), os, hos, ho => by
    simp only [suggest, suggestOffers] at hos
    split at hos
    · exact (proposes_of_suggest hos ho).imp_right .delegated
    · cases hos
  | .strange _ _ _ (some (.callback offer)), os, hos, ho => by
    simp only [suggest, suggestOffers, Except.ok.injEq] at hos
    subst hos
    exact .inr (.callback ho)
  | .table .., os, hos, ho | .function _, os, hos, ho | .command _, os, hos, ho
  | .argument _, os, hos, ho | .foreign _, os, hos, ho => by
    simp only [suggest, Except.ok.injEq] at hos
    subst hos
    cases ho

theorem proposes_of_suggestAll : ∀ {members : List Shape} {os : List Suggestion},
    suggestAll h typed members = .ok os → o ∈ os →
      o.replace = none ∨ ∃ m ∈ members, m.Proposes o
  | [], os, hos, ho => by
    simp only [suggestAll, Except.ok.injEq] at hos
    subst hos
    cases ho
  | s :: rest, os, hos, ho => by
    cases hfirst : s.suggest h typed with
    | error c => simp [suggestAll, hfirst, bind, Except.bind] at hos
    | ok os₁ =>
      cases hothers : suggestAll h typed rest with
      | error c => simp [suggestAll, hfirst, hothers, bind, Except.bind] at hos
      | ok os₂ =>
        simp only [suggestAll, hfirst, hothers, bind, Except.bind, pure, Except.pure,
          Except.ok.injEq] at hos
        subst hos
        obtain ho | ho := List.mem_append.1 ho
        · exact (proposes_of_suggest hfirst ho).imp_right fun h => ⟨s, List.mem_cons_self, h⟩
        · obtain hnone | ⟨m, hm, hproposes⟩ := proposes_of_suggestAll hothers ho
          · exact .inl hnone
          · exact .inr ⟨m, List.mem_cons_of_mem _ hm, hproposes⟩

end

end Shape

/-- A callback of the host in the shape of an argument of a command proposes something. -/
def HostProposes (shapes : Names SharedShape) (o : Suggestion) : Prop :=
  ∃ name s c index spec shape, shapes.get? name = some s ∧ s.shape.command? = some c ∧
    c.argument? index = some spec ∧ spec.shape = some shape ∧ shape.Proposes o

theorem Walk.ArgumentOffer.own {ctx : AssistContext} {o : Suggestion}
    (h : Walk.ArgumentOffer ctx o) : o.replace = none ∨ HostProposes ctx.globalShapes o := by
  obtain ⟨name, c, index, spec, s, hc, hspec, hs, heap, typed, os, hos, ho⟩ := h
  obtain ⟨shared, hshared, hcommand⟩ := Option.bind_eq_some_iff.1 hc
  exact (Shape.proposes_of_suggest hos ho).imp_right fun hproposes =>
    ⟨name, shared, c, index, spec, s, hshared, hcommand, hspec, hs, hproposes⟩

/-! ## Where an offer stands -/

/-- The token is a literal argument of a command of the tree, and the caret stands behind
what is called and before the token. -/
def Block.Awaits (b : Block) (caret : Int) (t : Token) : Prop :=
  ∃ c e, Node.command c ∈ (ofBlock b).parts ∧ e ∈ c.arguments ∧ Walk.literalToken? e = some t ∧
    (c.callee.span.stop : Int) < caret ∧ caret < t.span.start

/-- An offer replaces nothing, or a token of the tree that the caret touches or that is the
argument that comes next. -/
structure Completion.InPlace (ctx : AssistContext) (tree : Option Block) (c : Completion) :
    Prop where
  replace : c.replace = Walk.atCaret ctx ∨ ∃ b ∈ tree, ∃ t ∈ (ofBlock b).tokens,
    c.replace = t.span ∧ (t.span.touches ctx.caret = true ∨ b.Awaits ctx.caret t)
  own : ∀ s ∈ c.candidates, s.replace = none ∨ HostProposes ctx.globalShapes s

/-- Nothing could stand at the caret so far, or what could fits. -/
def Findings.Offers (f : Findings) (fits : Completion → Prop) : Prop :=
  ∀ c ∈ f.completion, fits c

namespace Walk

variable {ctx : AssistContext} {b : Block}

theorem fit_atCaret {tree : Option Block} :
    Completion.Fit (Completion.InPlace ctx tree) (atCaret ctx) :=
  fun _ hreplace hown => ⟨.inl hreplace, fun s hs => .inl (hown s hs)⟩

theorem fit_touched {t : Token} (ht : t ∈ (ofBlock b).tokens)
    (htouches : t.span.touches ctx.caret = true) :
    Completion.Fit (Completion.InPlace ctx (some b)) t.span :=
  fun _ hreplace hown => ⟨.inr ⟨b, rfl, t, ht, hreplace, .inl htouches⟩, fun s hs => .inl (hown s hs)⟩

/-- A part of the tree with its children. -/
def PartOf (b : Block) (o : Outline) : Prop := ∃ q ∈ (ofBlock b).nodes, o = .node q.1 q.2

end Walk

namespace Outline

mutual

theorem tokens_subset_of_mem_nodes : ∀ {o : Outline} {q : Node × List Outline}, q ∈ o.nodes →
    (node q.1 q.2).tokens ⊆ o.tokens
  | token _, q, hq => by cases hq
  | node p cs, q, hq => by
    rw [nodes] at hq
    obtain rfl | hq := List.mem_cons.1 hq
    · exact List.Subset.refl _
    · exact tokens_subset_of_mem_nodesOfAll hq

theorem tokens_subset_of_mem_nodesOfAll : ∀ {os : List Outline} {q : Node × List Outline},
    q ∈ nodesOfAll os → (node q.1 q.2).tokens ⊆ tokensOfAll os
  | [], q, hq => by cases hq
  | o :: rest, q, hq => by
    rw [nodesOfAll] at hq
    rw [tokensOfAll]
    obtain hq | hq := List.mem_append.1 hq
    · exact List.Subset.trans (tokens_subset_of_mem_nodes hq) (List.subset_append_left _ _)
    · exact List.Subset.trans (tokens_subset_of_mem_nodesOfAll hq) (List.subset_append_right _ _)

end

theorem tokens_subset_tokensOfAll {o : Outline} {os : List Outline} (h : o ∈ os) :
    o.tokens ⊆ tokensOfAll os := by
  induction os with
  | nil => cases h
  | cons o' rest ih =>
    rw [tokensOfAll]
    obtain rfl | h := List.mem_cons.1 h
    · exact List.subset_append_left _ _
    · exact List.Subset.trans (ih h) (List.subset_append_right _ _)

mutual

theorem parts_eq : ∀ o : Outline, o.parts = o.nodes.map Prod.fst
  | token _ => rfl
  | node p cs => by rw [parts, nodes, partsOfAll_eq cs, List.map_cons]

theorem partsOfAll_eq : ∀ os : List Outline, partsOfAll os = (nodesOfAll os).map Prod.fst
  | [] => rfl
  | o :: rest => by rw [partsOfAll, nodesOfAll, parts_eq o, partsOfAll_eq rest, List.map_append]

end

end Outline

namespace Walk

variable {ctx : AssistContext} {b : Block}

theorem PartOf.tokens {o : Outline} (h : PartOf b o) : o.tokens ⊆ (ofBlock b).tokens := by
  obtain ⟨q, hq, rfl⟩ := h
  exact tokens_subset_of_mem_nodes hq

theorem welcomes_root {r : VarRoot} (h : PartOf b (ofRoot r)) :
    Welcomes ctx (Completion.InPlace ctx (some b)) (assignedToken? r) where
  caret := fit_atCaret
  token t ht htouches := by
    refine fit_touched (h.tokens ?_) htouches
    cases r with
    | bare u =>
      cases ht
      simp [ofRoot, Outline.tokens, tokensOfAll]
    | named d n s =>
      cases ht
      simp [ofRoot, ofTokens, Outline.tokens, tokensOfAll]
    | computed => cases ht

theorem welcomes_suffix {s : VarSuffix} (h : PartOf b (ofSuffix s)) :
    Welcomes ctx (Completion.InPlace ctx (some b)) (fieldToken? s) where
  caret := fit_atCaret
  token t ht htouches := by
    refine fit_touched (h.tokens ?_) htouches
    cases s with
    | field p n s =>
      cases ht
      simp [ofSuffix, ofTokens, Outline.tokens, tokensOfAll]
    | index => cases ht

/-! ## Arguments -/

theorem ofArguments_eq (es : List Expression) : ofArguments es = es.map ofExpression := by
  induction es with
  | nil => rfl
  | cons e rest ih => rw [ofArguments, ih, List.map_cons]

theorem span_of_literalToken? {e : Expression} {t : Token} (h : literalToken? e = some t) :
    e.span = t.span ∧ (ofExpression e).tokens = [t] := by
  cases e <;> cases h <;> simp [Expression.span, ofExpression, Outline.tokens, tokensOfAll]

/-- The arguments of a command stand one behind the other. -/
theorem arguments_ordered {c : Command} (hb : ∀ q ∈ (ofBlock b).nodes, Orderly q.1 q.2)
    (h : PartOf b (ofCommand c)) :
    c.arguments.Pairwise fun e e' => e.span.stop ≤ e'.span.start := by
  obtain ⟨q, hq, hc⟩ := h
  obtain ⟨v, es, span⟩ := c
  rw [ofCommand, Outline.node.injEq] at hc
  have hordered := (hb q hq).ordered
  rw [← hc.2, ofArguments_eq, List.pairwise_cons, List.pairwise_map] at hordered
  simp only [span_ofExpression] at hordered
  exact hordered.2

/-- Where arguments are in order and no more than `index` of them end before the caret, the
caret is at the argument at that place, or before it. -/
theorem lt_start_of_countP {es : List Expression} {e : Expression} {index : Nat} {caret : Int}
    (hordered : es.Pairwise fun e e' => e.span.stop ≤ e'.span.start) (he : es[index]? = some e)
    (hspan : e.span.Ordered) (hcount : es.countP (fun a => (a.span.stop : Int) < caret) ≤ index)
    (htouches : e.span.touches caret = false) : caret < e.span.start := by
  obtain ⟨hindex, he⟩ := List.getElem?_eq_some_iff.1 he
  simp only [Span.touches, Bool.and_eq_false_iff, decide_eq_false_iff_not] at htouches
  refine Int.not_le.1 fun hstart => ?_
  have hstop : (e.span.stop : Int) < caret := by omega
  -- the argument itself and all that stand before it would have been counted
  have hbefore : ∀ a ∈ es.take (index + 1), (a.span.stop : Int) < caret := by
    rw [List.take_succ_eq_append_getElem hindex, he]
    refine List.forall_mem_append.2 ⟨fun a ha => ?_, List.forall_mem_singleton.2 hstop⟩
    rw [← List.take_append_drop index es, List.pairwise_append] at hordered
    have hmem : e ∈ es.drop index := by
      rw [List.drop_eq_getElem_cons hindex, he]
      exact List.mem_cons_self
    have hle := hordered.2.2 a ha e hmem
    have hlast : e.span.start ≤ e.span.stop := hspan
    omega
  have hall : (es.take (index + 1)).countP (fun a => (a.span.stop : Int) < caret) = index + 1 := by
    rw [List.countP_eq_length.2 fun a ha => decide_eq_true (hbefore a ha), List.length_take]
    omega
  have hle : (es.take (index + 1)).countP (fun a => (a.span.stop : Int) < caret) ≤
      es.countP (fun a => (a.span.stop : Int) < caret) := (List.take_sublist _ es).countP_le
  omega

/-- Where the caret touches no argument, it is behind what is called, and as many arguments
end before it as stand before the one it is taken to be at. -/
theorem countP_of_argumentAtCaret {c : Command} {es : List Expression} {e : Expression}
    {index : Nat} (hindex : argumentAtCaret ctx c es = some index) (he : es[index]? = some e)
    (htouches : e.span.touches ctx.caret = false) :
    (c.callee.span.stop : Int) < ctx.caret ∧
      es.countP (fun a => (a.span.stop : Int) < ctx.caret) ≤ index := by
  unfold argumentAtCaret at hindex
  split at hindex
  · cases hindex
  next hbehind =>
    refine ⟨Int.not_le.1 hbehind, ?_⟩
    split at hindex
    next i hfind =>
      -- the caret would touch the argument
      cases hindex
      obtain ⟨hlt, htouch, -⟩ := List.findIdx?_eq_some_iff_getElem.1 hfind
      obtain ⟨_, rfl⟩ := List.getElem?_eq_some_iff.1 he
      rw [htouches] at htouch
      cases htouch
    next =>
      split at hindex
      · split at hindex
        · cases hindex
          exact absurd he (by simp)
        · cases hindex
      · cases hindex
        exact Nat.le_refl _

theorem PartOf.mem_parts {p : Node} {cs : List Outline} (h : PartOf b (.node p cs)) :
    p ∈ (ofBlock b).parts := by
  obtain ⟨q, hq, hp⟩ := h
  rw [Outline.node.injEq] at hp
  rw [parts_eq, hp.1]
  exact List.mem_map_of_mem hq

theorem PartOf.command_mem_parts {c : Command} (h : PartOf b (ofCommand c)) :
    Node.command c ∈ (ofBlock b).parts := by
  obtain ⟨v, es, span⟩ := c
  exact h.mem_parts

/-- A literal that is an argument of a command is a token of the tree. -/
theorem PartOf.mem_tokens_of_argument {c : Command} {e : Expression} {t : Token}
    (h : PartOf b (ofCommand c)) (he : e ∈ c.arguments) (ht : literalToken? e = some t) :
    t ∈ (ofBlock b).tokens := by
  obtain ⟨v, as, s⟩ := c
  refine h.tokens (tokens_subset_tokensOfAll (o := ofExpression e) ?_ ?_)
  · rw [ofArguments_eq]
    exact List.mem_cons_of_mem _ (List.mem_map_of_mem he)
  · rw [(span_of_literalToken? ht).2]
    exact List.mem_singleton_self t

/-- What is offered for an argument is in place. -/
theorem inPlace_argument {c : Command} {index : Nat} {o : Completion}
    (hb : ∀ q ∈ (ofBlock b).nodes, Orderly q.1 q.2)
    (htokens : ∀ t ∈ (ofBlock b).tokens, t.span.Ordered) (h : PartOf b (ofCommand c))
    (hindex : argumentAtCaret ctx c (c.arguments.filter (!·.isEmptyGroup)) = some index)
    (hreplace : o.replace = argumentSpan ctx (c.arguments.filter (!·.isEmptyGroup)) index)
    (hown : ∀ s ∈ o.candidates, ArgumentOffer ctx s) : o.InPlace ctx (some b) := by
  refine ⟨?_, fun s hs => (hown s hs).own⟩
  rw [hreplace]
  have hordered := (arguments_ordered hb h).filter (!·.isEmptyGroup)
  have hmem : ∀ e ∈ c.arguments.filter (!·.isEmptyGroup), e ∈ c.arguments := fun e he =>
    (List.mem_filter.1 he).1
  generalize c.arguments.filter (!·.isEmptyGroup) = es at hindex hordered hmem ⊢
  unfold argumentSpan
  cases he : es[index]? with
  | none => exact .inl rfl
  | some e =>
    cases ht : literalToken? e with
    | none => exact .inl (by simp [ht])
    | some t =>
      obtain ⟨hspan, -⟩ := span_of_literalToken? ht
      have harg := hmem e (List.mem_of_getElem? he)
      have htoken := h.mem_tokens_of_argument harg ht
      refine .inr ⟨b, rfl, t, htoken, by simp [ht], ?_⟩
      cases htouches : t.span.touches ctx.caret with
      | true => exact .inl rfl
      | false =>
        obtain ⟨hbehind, hcount⟩ := countP_of_argumentAtCaret hindex he (hspan ▸ htouches)
        refine .inr ⟨c, e, h.command_mem_parts, harg, ht, hbehind, ?_⟩
        rw [← hspan]
        exact lt_start_of_countP hordered he (hspan ▸ htokens t htoken) hcount (hspan ▸ htouches)

/-! ## Visits -/

theorem Within.offers {α : Type} {fits : Completion → Prop} {P : α → Prop} {step : Walk α}
    (h : Quiet ctx fits P step) {f : Findings} (hf : f.Offers fits) :
    step.Ends f (fun _ f' => f'.Offers fits) fun _ => True := by
  refine (h.ends f).mono (fun _ f' hgrows => ?_) fun _ _ => trivial
  obtain hsame | ⟨c, hnew, hfits⟩ := hgrows.2.completion
  · rw [Findings.Offers, hsame]
    exact hf
  · intro d hd
    rw [hnew] at hd
    cases hd
    exact hfits

/-- What the visit offers fits, or it leaves alone what was offered before. -/
def Keeps (ctx : AssistContext) (fits : Completion → Prop) (v : Visit) : Prop :=
  ∀ f : Findings, f.Offers fits → (visit ctx v).Ends f (fun _ f' => f'.Offers fits) fun _ => True

theorem visitAll_offers {fits : Completion → Prop} {vs : List Visit} (hvs : ∀ v ∈ vs, Keeps ctx fits v)
    {f : Findings} (hf : f.Offers fits) :
    (visitAll ctx vs).Ends f (fun _ f' => f'.Offers fits) fun _ => True := by
  induction vs generalizing f with
  | nil => exact hf
  | cons v rest ih =>
    obtain ⟨hv, hrest⟩ := List.forall_mem_cons.1 hvs
    exact ends_bind.2 ((hv f hf).imp fun _ _ h => ih hrest h)

/-- To give a name a value offers nothing. -/
theorem keeps_define {fits : Completion → Prop} (r : VarRoot) (e : Option Expression) :
    Keeps ctx fits (.define r e) := by
  intro f hf
  rw [visit, define]
  split
  · exact hf
  · have hquiet : Calm ctx fits (known ctx (Static.valueOptional · e)) :=
      looks_known (Static.endlessOnly_valueOptional · e)
    exact ends_bind.2 ((hquiet.offers hf).imp fun _ _ h => h)

/-- **A visit to a part of the tree offers what is in place.** -/
theorem keeps_inPlace (hb : ∀ q ∈ (ofBlock b).nodes, Orderly q.1 q.2)
    (htokens : ∀ t ∈ (ofBlock b).tokens, t.span.Ordered) {v : Visit}
    (hv : ∀ o ∈ v.part?, PartOf b o) : Keeps ctx (Completion.InPlace ctx (some b)) v := by
  intro f hf
  cases v with
  | root kind r => exact (looks_visitRoot kind (welcomes_root (hv _ rfl))).offers hf
  | suffix v n s => exact (looks_visitSuffix v n (welcomes_suffix (hv _ rfl))).offers hf
  | callee v => exact (quiet_reviewCallee v).offers hf
  | arguments c =>
    exact (looks_visitArguments c fun _ hindex _ hreplace hown =>
      inPlace_argument hb htokens (hv _ rfl) hindex hreplace hown).offers hf
  | review c => exact (looks_reviewArguments c).offers hf
  | pending ampersand span =>
    have hfit : Completion.Fit (Completion.InPlace ctx (some b)) (atCaret ctx) := fit_atCaret
    exact (looks_pending ampersand span hfit).offers hf
  | target r =>
    have hquiet : Calm ctx (Completion.InPlace ctx (some b)) _ :=
      (looks_visitTarget (welcomes_root (hv _ rfl))).imp fun _ _ => trivial
    exact ends_bind.2 ((hquiet.offers hf).imp fun _ _ h => h)
  | define r e => exact keeps_define r e f hf
  | enter names => exact hf
  | leave => exact hf

end Walk

namespace Assist

variable {ctx : AssistContext} {b : Block} {fits : Completion → Prop}

/-- What is offered at the end of a walk fits, where it does at each visit. -/
theorem walked_offers (hvisits : ∀ v ∈ Visits.block b, Walk.Keeps ctx fits v) {f : Findings}
    (hf : f.Offers fits) :
    (walked ctx b).Ends f (fun _ f' => f'.Offers fits) fun _ => True := by
  have hwalk : (Walk.framed {} (Walk.block ctx b)).Ends f
      (fun _ f' => f'.Offers fits) fun _ => True := by
    rw [Walk.block_eq_visitAll]
    refine Walk.ends_bind.2 (Walk.ends_modify.2 (Walk.ends_bind.2 ?_))
    exact Walk.visitAll_offers hvisits (f := { f with frames := {} :: f.frames }) hf
  unfold Walk.Ends at hwalk ⊢
  unfold walked
  rcases hr : Walk.framed {} (Walk.block ctx b) f with ⟨c | ⟨⟩, f'⟩ <;> rw [hr] at hwalk
  · cases c with
    | endless => exact nofun
    | _ => trivial
  · exact hwalk

/-- Nothing but blanks stands between the caret and the last line break, `;` or opening brace before
it. -/
def BeginsStatement (ctx : AssistContext) : Prop :=
  ((ctx.text.take ctx.caret.toNat).drop (statementStart (ctx.text.take ctx.caret.toNat))).all isBlank =
    true

/-- What could stand at the begin of a statement replaces nothing. -/
theorem atStatementStart_offers
    (hcaret : BeginsStatement ctx → Completion.Fit fits (Walk.atCaret ctx)) (f : Findings) :
    (atStatementStart ctx).Ends f (fun completion _ => ∀ c ∈ completion, fits c)
      fun _ => True := by
  unfold atStatementStart
  dsimp only
  split
  next hbegins =>
    have hquiet : Walk.Quiet ctx (fun _ => True) _ (Walk.globalCandidates ctx none) :=
      Walk.looks_globalCandidates none
    refine Walk.ends_bind.2 ((hquiet.ends f).mono (fun cs _ hcs => ?_) fun _ _ => trivial)
    intro c hc
    cases hc
    exact hcaret hbegins _ rfl hcs.1
  next =>
    intro c hc
    cases hc

/-- What is found at the caret fits, where it does at each visit and at the begin of a statement. -/
theorem fits_of_findings {σ : Type} {vm : Vm σ} {parsed : Parsed}
    {completion : Option Completion} {issues : List Issue}
    (hcaret : BeginsStatement ctx → Completion.Fit fits (Walk.atCaret ctx))
    (hvisits : ∀ b ∈ parsed.block, ∀ v ∈ Visits.block b, Walk.Keeps ctx fits v)
    (h : findings vm ctx parsed = .ok (completion, issues)) : ∀ c ∈ completion, fits c := by
  unfold findings at h
  cases hblock : parsed.block with
  | none =>
    rw [hblock] at h
    refine Walk.Ends.of_handed (Q := fun completion _ => ∀ c ∈ completion, fits c) ?_ h
    exact Walk.ends_bind.2 (Walk.ends_get.2 (atStatementStart_offers hcaret _))
  | some b =>
    rw [hblock] at h
    refine Walk.Ends.of_handed (Q := fun completion _ => ∀ c ∈ completion, fits c) ?_ h
    refine Walk.ends_bind.2 ((walked_offers (hvisits b hblock) ?_).imp fun _ f' hf' => ?_)
    · intro c hc
      cases hc
    refine Walk.ends_bind.2 (Walk.ends_get.2 ?_)
    cases hc : f'.completion with
    | none => exact atStatementStart_offers hcaret f'
    | some c => exact fun d hd => hf' d (hc ▸ hd)

/-- The parts of a tree go around their children, and its tokens are spans. -/
def Fair (b : Block) : Prop :=
  (∀ q ∈ (ofBlock b).nodes, Orderly q.1 q.2) ∧ ∀ t ∈ (ofBlock b).tokens, t.span.Ordered

/-- What is found at the caret is in place. -/
theorem inPlace_of_findings {σ : Type} {vm : Vm σ} {parsed : Parsed}
    {completion : Option Completion} {issues : List Issue} (hb : ∀ b ∈ parsed.block, Fair b)
    (h : findings vm ctx parsed = .ok (completion, issues)) :
    ∀ c ∈ completion, c.InPlace ctx parsed.block := by
  refine fits_of_findings (fun _ => Walk.fit_atCaret) (fun b hblock v hv => ?_) h
  obtain ⟨horderly, hordered⟩ := hb b hblock
  have hparts : Visits.Each (Walk.PartOf b) (Visits.block b) :=
    Visits.each_block b fun q hq => ⟨q, hq, rfl⟩
  rw [hblock]
  exact Walk.keeps_inPlace horderly hordered (hparts v hv)

end Assist

namespace Completion

/-- An offer in place replaces what the place does, if it is not of the host. -/
theorem InPlace.replace_of_mem_rank {ctx : AssistContext} {tree : Option Block} {c : Completion}
    (h : c.InPlace ctx tree) {limit : Int} {s : Suggestion} (hs : s ∈ c.rank limit) :
    s.replace = some c.replace ∨ HostProposes ctx.globalShapes s := by
  obtain ⟨s', hs', rfl⟩ := mem_candidates_of_mem_rank hs
  cases hreplace : s'.replace with
  | none => exact .inl (by rw [replace_filled, hreplace, Option.getD_none])
  | some r =>
    obtain hnone | hhost := h.own s' hs'
    · rw [hreplace] at hnone
      cases hnone
    · right
      rwa [filled_eq_self hreplace]

end Completion

theorem exists_eq_ok_of_any {ε α : Type} {r : Except ε α} {p : α → Bool}
    (h : r.toOption.any p = true) : ∃ a, r = .ok a ∧ p a = true := by
  cases r with
  | error => cases h
  | ok a => exact ⟨a, rfl, h⟩

/-- What is offered is what was found at the caret, in the order of offers. What is reported
is what the parser and the walk have found, in the order of the text. -/
theorem Vm.findings_of_assist {σ : Type} {vm : Vm σ} {text : String} {caret : Int}
    {options : AssistOptions} {a : Assistance} (h : vm.assist text caret options = .ok a) :
    let k : Int := max 0 (min caret text.toList.length)
    ∃ completion issues, Assist.findings vm (Assist.context vm text.toList k options)
        (parse text Limit.nesting) = .ok (completion, issues) ∧
      a.issues = Issue.sort ((parse text Limit.nesting).issues ++ issues) ∧
      a.replace = completion.elim (.point k.toNat) (·.replace) ∧
      a.suggestions = completion.elim [] (·.rank options.limit) := by
  intro k
  unfold Vm.assist at h
  dsimp only at h
  cases hfound : Assist.findings vm (Assist.context vm text.toList k options)
      (parse text Limit.nesting) with
  | error c =>
    rw [hfound] at h
    cases h
  | ok r =>
    obtain ⟨completion, issues⟩ := r
    rw [hfound] at h
    refine ⟨completion, issues, rfl, ?_⟩
    cases completion <;> cases h <;> exact ⟨rfl, rfl, rfl⟩

/-- **An offer edits the text at the caret.** What is replaced lies in the text; it is
nothing at the caret, or one token that the caret touches, or else a literal argument
that the caret is still before. Each suggestion replaces the same, unless a callback
of the host in an attached shape made it. -/
theorem replace_of_assist {σ : Type} {vm : Vm σ} {text : String} {caret : Int}
    {options : AssistOptions} {a : Assistance} (h : vm.assist text caret options = .ok a) :
    let k : Int := max 0 (min caret text.length)
    a.replace.Ordered ∧ a.replace.stop ≤ text.length ∧
      (a.replace = .point k.toNat ∨ ∃ t ∈ Token.tokenize text, a.replace = t.span ∧
        (t.span.touches k = true ∨
          ∃ b, (parse text Limit.nesting).block = some b ∧ b.Awaits k t)) ∧
      ∀ s ∈ a.suggestions, s.replace = some a.replace ∨ HostProposes vm.globalShapes s := by
  intro k
  have hk : k = max 0 (min caret text.toList.length) := by rw [String.length_toList]
  have hfair : ∀ b ∈ (parse text Limit.nesting).block, Assist.Fair b := fun b hb =>
    ⟨orderly_of_parse hb, fun t ht => Token.tokenize_ordered ((tokens_sublist_tokenize hb).subset ht)⟩
  have hpoint : (Span.point k.toNat).Ordered ∧ (Span.point k.toNat).stop ≤ text.length := by
    refine ⟨Span.point_ordered _, ?_⟩
    rw [Span.point]
    dsimp only
    omega
  obtain ⟨completion, issues, hfound, -, hreplace, hsuggestions⟩ := Vm.findings_of_assist h
  rw [← hk] at hfound hreplace
  have hplace := Assist.inPlace_of_findings hfair hfound
  rw [hreplace, hsuggestions]
  cases completion with
  | none => exact ⟨hpoint.1, hpoint.2, .inl rfl, nofun⟩
  | some c =>
    have hc := hplace c rfl
    rw [Option.elim_some, Option.elim_some]
    refine and_assoc.1 ⟨?_, ?_, fun s hs => hc.replace_of_mem_rank hs⟩
    · obtain hcaret | ⟨b, hb, t, ht, hspan, -⟩ := hc.replace
      · exact hcaret ▸ hpoint
      · have htoken := (tokens_sublist_tokenize hb).subset ht
        exact hspan ▸ ⟨Token.tokenize_ordered htoken, Token.tokenize_stop_le htoken⟩
    · obtain hcaret | ⟨b, hb, t, ht, hspan, hwhy⟩ := hc.replace
      · exact .inl hcaret
      · have htoken := (tokens_sublist_tokenize hb).subset ht
        exact .inr ⟨t, htoken, hspan, hwhy.imp_right fun hawaits => ⟨b, hb, hawaits⟩⟩

/-- The caret stands behind `cmd` and a blank, and the number behind two more blanks is what is
replaced. -/
theorem replace_of_assist_ahead :
    let vm : Vm Recorder := { state := Recorder.ready }
    let text := "cmd   1"
    ∃ a b, vm.assist text 4 = .ok a ∧ (parse text Limit.nesting).block = some b ∧
      ∃ t ∈ Token.tokenize text, a.replace = t.span ∧ t.text = "1" ∧ b.Awaits 4 t := by
  intro vm text
  have hread : (vm.assist text 4).toOption.any (·.replace == ⟨6, 7⟩) = true := by decide +kernel
  obtain ⟨a, hassist, hreplace⟩ := exists_eq_ok_of_any hread
  rw [beq_iff_eq] at hreplace
  obtain ⟨-, -, hplace, -⟩ := replace_of_assist hassist
  have hk : (max 0 (min 4 (text.length : Int))) = 4 := by decide +kernel
  rw [hk] at hplace
  obtain hpoint | ⟨t, ht, hspan, hwhy⟩ := hplace
  · rw [hreplace] at hpoint
    cases hpoint
  have htext : ∀ t ∈ Token.tokenize text, t.span = ⟨6, 7⟩ → t.text = "1" := by decide +kernel
  rw [hreplace] at hspan
  obtain htouches | ⟨b, hb, hawaits⟩ := hwhy
  · rw [← hspan] at htouches
    cases htouches
  · exact ⟨a, b, hassist, hb, t, ht, hreplace.trans hspan, htext t ht hspan.symm, hawaits⟩

end CommandScript
