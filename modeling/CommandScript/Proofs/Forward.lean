import CommandScript.Proofs.Placed
/-!
# CommandScript — the rules of the grammar go forward

Each rule gives what stands from where it was asked for on, and every span in it and in
what it reports has its ends in order, as long as what it asks for itself is so (`Lays`).
A rule that begins with a token looks at the rest from there: what stands between two
brackets stands behind the one that opens.
-/

namespace CommandScript

open Outline

namespace Nonterminal

/-- What is read for a nonterminal stands from an offset on; a block, from where it is said
to begin. -/
def Lies (o : Nat) : (n : Nonterminal) → n.Result → Prop
  | operand .., r | expression .., r | value .., r => ∀ e ∈ r, e.PlacedAt o
  | block _ _ start, b => Placed start b.span [ofBlock b]

end Nonterminal

namespace Grammar

open Parse

/-- Whatever is asked for, is given forward of where it is asked for. -/
def Lays (self : (n : Nonterminal) → Parse n.Result) : Prop :=
  ∀ n o, Keeps o (self n) (n.Lies o)

theorem keeps_some {o : Nat} {p : Parse Expression} (h : Keeps o p fun e => e.PlacedAt o) :
    Keeps o (some <$> p) fun r => ∀ e ∈ r, e.PlacedAt o :=
  .map (h.imp fun e he e' he' => by cases he'; exact he)

section Rules

variable {limit depth o : Nat} {self : (n : Nonterminal) → Parse n.Result} (hself : Lays self)
include hself

theorem keeps_required {message : String} :
    Keeps o (required self depth message) fun r => ∀ e ∈ r, e.PlacedAt o := by
  refine (hself (.value depth) o).bind fun r hr => ?_
  cases r with
  | some e => exact .pure hr
  | none => exact (keeps_reportHere _ _).bind fun _ _ => .pure fun e he => nomatch he

/-- What has to be here, and the token that closes it. -/
theorem keeps_enclosed {k : TokenKind} {left : Token} {message : String} {β : Type}
    {f : Option Expression → Option Token → Parse β} {R : β → Prop} (hleft : left.span.Ordered)
    (h : ∀ inner right, (Brackets.expressionSpan ⟨left, right⟩ inner).Ordered →
      EachOf Node.Proper (ofOptional inner) → Keeps left.span.start (f inner right) R) :
    Keeps left.span.start (do
      let inner ← required self depth message
      let right ← expect k (some left)
      f inner right : Parse β) R := by
  refine (keeps_required hself).bind fun inner hinner =>
    (keeps_expect k _).bind fun right hright => ?_
  refine h inner right (Brackets.spanWith_ordered hleft hright ?_) (proper_optional hinner)
  intro s hs
  obtain ⟨e, he, rfl⟩ := Option.map_eq_some_iff.1 hs
  exact (hinner e he).since

theorem keeps_varRoot : Keeps o (varRoot self depth) fun r => Placed o r.span [ofRoot r] := by
  unfold varRoot
  refine .get_bind fun c _ => ?_
  split
  next =>
    refine keeps_bump.bind fun t ht => .pure ?_
    exact .node (p := .root (.bare t)) ht (fun _ h => nomatch h) (by simp)
  refine .bump_bind fun dollar hdollar => .get_bind fun c _ => ?_
  split
  next =>
    refine keeps_bump.bind fun name _ => .spanFrom_bind fun s hs hordered => .pure ?_
    exact .node (p := .root (.named dollar (some name) s)) ⟨hs ▸ hdollar.start, hordered⟩
      (fun _ h => nomatch h) (by simp)
  split
  next =>
    refine .bump_bind fun left hleft =>
      keeps_enclosed hself hleft.ordered fun inner right hspan hos =>
      .spanFrom_bind fun s hs hordered => .pure ?_
    exact .node (p := .root (.computed dollar ⟨left, right⟩ inner s)) ⟨hs ▸ hdollar.start, hordered⟩
      (List.forall_mem_singleton.2 hspan) (by simpa using hos)
  · refine (keeps_reportHere _ _).bind fun _ _ => .spanFrom_bind fun s hs hordered => .pure ?_
    exact .node (p := .root (.named dollar none s)) ⟨hs ▸ hdollar.start, hordered⟩
      (fun _ h => nomatch h) (by simp)

theorem keeps_varSuffix : Keeps o (varSuffix self depth) fun s => Placed o s.span [ofSuffix s] := by
  unfold varSuffix
  refine .bump_bind fun period hperiod => .get_bind fun c _ => ?_
  split
  next =>
    refine keeps_bump.bind fun name _ => .spanFrom_bind fun s hs hordered => .pure ?_
    exact .node (p := .suffix (.field period (some name) s)) ⟨hs ▸ hperiod.start, hordered⟩
      (fun _ h => nomatch h) (by simp)
  split
  next =>
    refine .bump_bind fun left hleft =>
      keeps_enclosed hself hleft.ordered fun inner right hspan hos =>
      .spanFrom_bind fun s hs hordered => .pure ?_
    exact .node (p := .suffix (.index period ⟨left, right⟩ inner s)) ⟨hs ▸ hperiod.start, hordered⟩
      (List.forall_mem_singleton.2 hspan) (by simpa using hos)
  · refine (keeps_reportHere _ _).bind fun _ _ => .spanFrom_bind fun s hs hordered => .pure ?_
    exact .node (p := .suffix (.field period none s)) ⟨hs ▸ hperiod.start, hordered⟩
      (fun _ h => nomatch h) (by simp)

theorem keeps_varSuffixes (n : Nat) :
    Keeps o (varSuffixes self depth n) fun ss => EachOf Node.Proper (ofSuffixes ss) := by
  induction n with
  | zero => exact keeps_stall.bind fun _ _ => .pure eachOf_nil
  | succ n ih =>
    refine .get_bind fun c _ => ?_
    split
    next =>
      refine (keeps_varSuffix hself).bind fun first hfirst => ih.bind fun rest hrest => .pure ?_
      exact eachOf_append.2 ⟨hfirst.proper, hrest⟩
    next => exact .pure eachOf_nil

theorem keeps_var : Keeps o (var self depth) fun v => Placed o v.span [ofVar v] := by
  refine .get_bind fun c hc => (keeps_varRoot hself).bind fun root hroot => .get_bind fun c' _ => ?_
  refine (keeps_varSuffixes hself _).bind fun ss hss => .spanFrom_bind fun s hs hordered => .pure ?_
  exact .node (p := .var (.mk root ss s)) ⟨hs ▸ hc.offset, hordered⟩ (fun _ h => nomatch h)
    (eachOf_append.2 ⟨hroot.proper, hss⟩)

theorem keeps_arguments (before : Option Nat) (n : Nat) :
    Keeps o (arguments self depth before n) fun es => EachOf Node.Proper (ofArguments es) := by
  induction n generalizing before with
  | zero => exact keeps_stall.bind fun _ _ => .pure eachOf_nil
  | succ n ih =>
    refine .get_bind fun c _ => ?_
    split
    next => exact .pure eachOf_nil
    refine (keeps_progressed before).bind fun goes _ => ?_
    split
    next => exact .pure eachOf_nil
    refine (hself (.operand depth true) o).bind fun r hr => ?_
    cases r with
    | none => exact .pure eachOf_nil
    | some e =>
      refine (ih _).bind fun rest hrest => .pure ?_
      exact eachOf_append.2 ⟨(hr e rfl).proper, hrest⟩

theorem keeps_command {callee : Var} (h : Placed o callee.span [ofVar callee]) :
    Keeps o (command self depth callee) fun k => Placed o k.span [ofCommand k] := by
  refine .get_bind fun c _ => (keeps_arguments hself _ _).bind fun args hargs =>
    .spanFrom_bind fun s hs hordered => .pure ?_
  exact .node (p := .command (.mk callee args s)) ⟨hs ▸ h.since.start, hordered⟩
    (fun _ h => nomatch h) (eachOf_append.2 ⟨h.proper, hargs⟩)

theorem keeps_call : Keeps o (call self depth) fun k => Placed o k.span [ofCall k] := by
  unfold call
  refine .bump_bind fun ampersand hamp => .get_bind fun c _ => ?_
  extract_lets withCommand
  have hcommand : ∀ r, EachOf Node.Proper (ofOptionalCommand r) →
      Keeps ampersand.span.start (withCommand r) fun k => Placed o k.span [ofCall k] := fun r hr =>
    .spanFrom_bind fun s hs hordered => .pure <|
      .node (p := .call (.mk ampersand r s)) ⟨hs ▸ hamp.start, hordered⟩ (fun _ h => nomatch h)
        (eachOf_cons.2 ⟨each_token _, hr⟩)
  split
  next =>
    refine Keeps.bind (Q := fun r => EachOf Node.Proper (ofOptionalCommand r)) ?_ hcommand
    exact .map <| (keeps_var hself).bind fun v hv =>
      (keeps_command hself hv).imp fun k hk => hk.proper
  next => exact (keeps_reportHere _ _).bind fun _ _ => .pure_bind (hcommand none eachOf_nil)

/-! ## Expressions -/

theorem keeps_operators {left : Expression} (h : left.PlacedAt o) {precedence chain : Nat}
    (n : Nat) :
    Keeps o (operators self depth precedence chain left n) fun e => e.PlacedAt o := by
  induction n generalizing left chain with
  | zero => exact keeps_stall.bind fun _ _ => .pure h
  | succ n ih =>
    refine .get_bind fun c _ => ?_
    split
    next => exact .pure h
    cases c.kind.precedence? with
    | none => exact .pure h
    | some p =>
      dsimp only
      split
      next => exact .pure h
      refine keeps_bump.bind fun operator _ =>
        (hself (.expression _ _) o).bind fun right hright => ?_
      have hjoined : ∀ s : Span, s.start = left.span.start → s.Ordered →
          (Expression.binary left operator right s).PlacedAt o := fun s hs hordered =>
        .node (p := .expression (.binary left operator right s)) ⟨hs ▸ h.since.start, hordered⟩
          (fun _ h => nomatch h)
          (eachOf_append.2 ⟨h.proper, eachOf_cons.2 ⟨each_token _, proper_optional hright⟩⟩)
      cases right with
      | none =>
        exact (keeps_reportHere _ _).bind fun _ _ => .spanFrom_bind fun s hs hordered =>
          .pure (hjoined s hs hordered)
      | some e => exact .spanFrom_bind fun s hs hordered => ih (hjoined s hs hordered)

theorem keeps_operatorChain {left : Expression} (h : left.PlacedAt o) {precedence : Nat} :
    Keeps o (operatorChain self depth precedence left) fun e => e.PlacedAt o :=
  .get_bind fun _ _ => keeps_operators hself h _

theorem keeps_expression {precedence : Nat} :
    Keeps o (expression self depth precedence) fun r => ∀ e ∈ r, e.PlacedAt o := by
  refine (hself (.operand depth false) o).bind fun r hr => ?_
  cases r with
  | none => exact .pure fun e he => nomatch he
  | some left => exact keeps_some (keeps_operatorChain hself (hr left rfl))

theorem keeps_value : Keeps o (value self depth) fun r => ∀ e ∈ r, e.PlacedAt o := by
  refine .get_bind fun c _ => ?_
  split
  next =>
    refine (keeps_call hself).bind fun k hk => .pure ?_
    rintro _ ⟨⟩
    exact hk
  next => exact hself (.expression depth 1) o

theorem keeps_tableField :
    Keeps o (tableField self depth) fun r => ∀ f ∈ r, Placed o f.span [ofField f] := by
  refine .get_bind fun c hc => ?_
  dsimp only
  split
  next =>
    refine keeps_bump.bind fun name _ => keeps_bump.bind fun equals _ =>
      (keeps_required hself).bind fun value hvalue => .spanFrom_bind fun s hs hordered => .pure ?_
    rintro _ ⟨⟩
    exact .node (p := .field (.named name equals value s)) ⟨hs ▸ hc.offset, hordered⟩
      (fun _ h => nomatch h) (by simpa using proper_optional hvalue)
  split
  next =>
    refine .bump_bind fun left hleft =>
      keeps_enclosed hself hleft.ordered fun key right hspan hkey =>
      (keeps_expect _ _).bind fun equals _ => ?_
    have hfield : ∀ value s, EachOf Node.Proper (ofOptional value) → s.start = c.offset →
        s.Ordered → Placed o s [ofField (.keyed ⟨left, right⟩ key equals value s)] :=
      fun value s hvalue hs hordered =>
        .node (p := .field (.keyed ⟨left, right⟩ key equals value s)) ⟨hs ▸ hc.offset, hordered⟩
          (List.forall_mem_singleton.2 hspan) (by simpa using ⟨hkey, hvalue⟩)
    split
    next =>
      refine (keeps_required hself).bind fun value hvalue => .spanFrom_bind fun s hs hordered =>
        .pure ?_
      rintro _ ⟨⟩
      exact hfield value s (proper_optional hvalue) hs hordered
    next =>
      refine .pure_bind (.spanFrom_bind fun s hs hordered => .pure ?_)
      rintro _ ⟨⟩
      exact hfield none s eachOf_nil hs hordered
  refine (hself (.value depth) o).bind fun r hr => ?_
  cases r with
  | none => exact .pure fun f hf => nomatch hf
  | some e =>
    refine .spanFrom_bind fun s hs hordered => .pure ?_
    rintro _ ⟨⟩
    exact .node (p := .field (.positional e s)) ⟨hs ▸ hc.offset, hordered⟩
      (fun _ h => nomatch h) (hr e rfl).proper

theorem keeps_unary : Keeps o (unary self depth) fun e => e.PlacedAt o := by
  refine .bump_bind fun operator hoperator => (hself (.operand depth false) _).bind fun r hr => ?_
  have hvalue : Keeps operator.span.start (do
      return .unary operator r (← Parse.spanFrom operator.span.start) : Parse Expression)
      fun e => e.PlacedAt o := .spanFrom_bind fun s hs hordered => .pure <|
    .node (p := .expression (.unary operator r s)) ⟨hs ▸ hoperator.start, hordered⟩
      (fun _ h => nomatch h) (eachOf_cons.2 ⟨each_token _, proper_optional hr⟩)
  cases r with
  | none => exact (keeps_reportHere _ _).bind fun _ _ => hvalue
  | some e => exact hvalue

theorem keeps_group : Keeps o (group self depth) fun e => e.PlacedAt o := by
  refine .bump_bind fun left hleft => .get_bind fun c _ => ?_
  extract_lets withInner
  have hinner : ∀ inner : Option Expression, (∀ e ∈ inner, e.PlacedAt left.span.start) →
      Keeps left.span.start (withInner inner) fun e => e.PlacedAt o := fun inner hinner =>
    (keeps_expect _ _).bind fun right hright => .spanFrom_bind fun s hs hordered => .pure <| by
      refine .node (p := .expression (.group ⟨left, right⟩ inner s)) ⟨hs ▸ hleft.start, hordered⟩
        (List.forall_mem_singleton.2 <|
          Brackets.spanWith_ordered hleft.ordered hright fun s hs => ?_)
        (by simpa using proper_optional hinner)
      obtain ⟨e, he, rfl⟩ := Option.map_eq_some_iff.1 hs
      exact (hinner e he).since
  split
  next => exact .pure_bind (hinner none fun e he => nomatch he)
  next => exact (keeps_required hself).bind hinner

theorem keeps_vector : Keeps o (vector self depth) fun e => e.PlacedAt o := by
  refine .bump_bind fun left hleft => ?_
  have helement := hself (.value depth) left.span.start
  refine (keeps_read (l := items self depth) helement).bind fun contents hitems => ?_
  refine (keeps_expect _ _).bind fun right hright => .spanFrom_bind fun s hs hordered => .pure ?_
  refine .node (p := .expression (.vector ⟨left, right⟩ contents s)) ⟨hs ▸ hleft.start, hordered⟩
    (Brackets.ordered_listed hleft.ordered hright hitems) ?_
  rw [eachOf_bracketed, ofItems_eq]
  exact proper_separated fun i hi v hv => (eachOf_cons.1 ((hitems i hi).2 v hv).proper).1

theorem keeps_table : Keeps o (table self depth) fun e => e.PlacedAt o := by
  refine .bump_bind fun left hleft => ?_
  have helement : Keeps left.span.start (tableField self depth) _ := keeps_tableField hself
  refine (keeps_read (l := fields self depth) helement).bind fun contents hfields => ?_
  refine (keeps_expect _ _).bind fun right hright => .spanFrom_bind fun s hs hordered => .pure ?_
  refine .node (p := .expression (.table ⟨left, right⟩ contents s)) ⟨hs ▸ hleft.start, hordered⟩
    (Brackets.ordered_listed hleft.ordered hright hfields) ?_
  rw [eachOf_bracketed, ofFields_eq]
  exact proper_separated fun i hi v hv => (eachOf_cons.1 ((hfields i hi).2 v hv).proper).1

/-- A block between braces. Past the limit, what is in it is skipped. -/
theorem keeps_braced : Keeps o (braced limit self depth) fun b => Placed o b.span (ofBraced b) := by
  refine .bump_bind fun left hleft => ?_
  dsimp only
  have hbraced : ∀ right block, (∀ t ∈ right, t.span.From left.span.start) →
      Placed left.span.stop block.span [ofBlock block] →
      Placed o (Braced.mk ⟨left, right⟩ block).span (ofBraced (.mk ⟨left, right⟩ block)) := by
    intro right block hright hblock
    have hspan : (Braced.mk ⟨left, right⟩ block).span.Ordered :=
      Brackets.spanWith_ordered hleft.ordered hright fun s hs => by
        cases hs
        exact hblock.since.mono hleft.ordered
    exact ⟨⟨hleft.start, hspan⟩, by simpa [ofBraced] using hblock.proper⟩
  split
  next =>
    refine keeps_tooDeep.bind fun rest hrest => .spanFrom_bind fun s hs hordered => .pure ?_
    refine hbraced none _ (fun t ht => nomatch ht) ?_
    refine .node (p := .block (.mk _ none s)) ⟨Nat.le_of_eq hs.symm, hordered⟩
      (fun _ h => nomatch h) (eachOf_append.2 ⟨?_, eachOf_nil⟩)
    cases rest with
    | none => exact eachOf_nil
    | some k => exact (hrest k rfl).proper
  next =>
    refine (hself (.block (depth + 1) [.rightBrace] left.span.stop) _).bind fun block hblock => ?_
    exact (keeps_expect _ _).bind fun right hright => .pure (hbraced right block hright hblock)

theorem keeps_lambda : Keeps o (lambda limit self depth) fun e => e.PlacedAt o := by
  refine .bump_bind fun left hleft => ?_
  have hname : Keeps left.span.start parameters.element fun r =>
      ∀ t ∈ r, t.span.From left.span.start := keeps_eat .identifier
  refine (keeps_read hname).bind fun names hnames => (keeps_expect _ _).bind fun right hright =>
    .get_bind fun c _ => ?_
  extract_lets withBlock
  have hblock : ∀ block : Option Braced,
      (∀ b ∈ block, Placed left.span.start b.span (ofBraced b)) →
      Keeps left.span.start (withBlock block) fun e => e.PlacedAt o := by
    intro block hblock
    refine .spanFrom_bind fun s hs hordered => .pure ?_
    have hbody : Placed o s [ofBody (.mk ⟨left, right⟩ names block s)] := by
      refine .node (p := .body (.mk ⟨left, right⟩ names block s)) ⟨hs ▸ hleft.start, hordered⟩
        (List.forall_mem_append.2
          ⟨Brackets.ordered_listed hleft.ordered hright hnames, Placed.ordered hblock⟩) ?_
      rw [eachOf_append, eachOf_bracketed, ofParameters_eq]
      exact ⟨proper_separated fun i _ v _ => each_token v, proper_braced hblock⟩
    exact .node (p := .expression (.lambda (.mk ⟨left, right⟩ names block s)))
      hbody.since (fun _ h => nomatch h) hbody.proper
  split
  next =>
    refine Keeps.bind (.map ((keeps_braced hself).imp fun b hb => ?_)) hblock
    rintro _ ⟨⟩
    exact hb
  next => exact .pure_bind (hblock none fun b hb => nomatch hb)

theorem keeps_operand {argument : Bool} :
    Keeps o (operand limit self depth argument) fun r => ∀ e ∈ r, e.PlacedAt o := by
  unfold operand
  split
  next =>
    refine keeps_tooDeep.bind fun r hr => .pure fun e he => ?_
    obtain ⟨k, hk, rfl⟩ := Option.map_eq_some_iff.1 he
    exact hr k hk
  refine .get_bind fun c _ => ?_
  have hone : ∀ {f : Token → Expression}, (∀ t : Token, t.span.From o → (f t).PlacedAt o) →
      Keeps o (do return some (f (← bump)) : Parse (Option Expression)) fun r =>
        ∀ e ∈ r, e.PlacedAt o := by
    intro f hf
    refine keeps_bump.bind fun t ht => .pure ?_
    rintro _ ⟨⟩
    exact hf t ht
  have hvar : Keeps o (do return some (.var (← var self (depth + 1))) : Parse (Option Expression))
      fun r => ∀ e ∈ r, e.PlacedAt o := by
    refine (keeps_var hself).bind fun v hv => .pure ?_
    rintro _ ⟨⟩
    exact hv
  have hleaf : ∀ {e : Expression} {t : Token}, t.span.From o → e.span = t.span →
      ofExpression e = .node (.expression e) [.token t] → (Node.expression e).innerSpans = [] →
      e.PlacedAt o := by
    intro e t ht hspan hnode hinner
    unfold Expression.PlacedAt
    rw [hnode]
    refine .node (p := .expression e) (?_ : e.span.From o) (hinner ▸ fun _ h => nomatch h) (by simp)
    exact hspan ▸ ht
  split
  next => exact hone fun t ht => hleaf ht rfl rfl rfl
  next => exact hone fun t ht => hleaf ht rfl rfl rfl
  next => exact hone fun t ht => hleaf ht rfl rfl rfl
  next => exact hone fun t ht => hleaf ht rfl rfl rfl
  next => exact hone fun t ht => hleaf ht rfl rfl rfl
  next =>
    split
    next => exact hone fun t ht => hleaf ht rfl rfl rfl
    next => exact hvar
  next => exact hvar
  next => exact keeps_some (keeps_group hself)
  next => exact keeps_some (keeps_vector hself)
  next => exact keeps_some (keeps_table hself)
  next => exact keeps_some (keeps_lambda hself)
  next => exact keeps_some (keeps_unary hself)
  next => exact keeps_some (keeps_unary hself)
  next => exact hone fun t ht => .skipped (k := .one t) ht
  next => exact .pure fun e he => nomatch he

/-! ## Statements and blocks -/

theorem keeps_requiredBlock {behind : Option Token} :
    Keeps o (requiredBlock limit self depth behind) fun r =>
      ∀ b ∈ r, Placed o b.span (ofBraced b) := by
  refine .get_bind fun c _ => ?_
  split
  next =>
    refine (keeps_braced hself).bind fun b hb => .pure ?_
    rintro _ ⟨⟩
    exact hb
  next => exact (keeps_reportHere _ _).bind fun _ _ => .pure fun b hb => nomatch hb

theorem keeps_condition :
    Keeps o (condition self depth) fun r => ∀ c ∈ r, Placed o c.span (ofCondition c) := by
  refine .get_bind fun c _ => ?_
  split
  next => exact (keeps_reportHere _ _).bind fun _ _ => .pure fun b hb => nomatch hb
  next =>
    refine .bump_bind fun left hleft =>
      keeps_enclosed hself hleft.ordered fun inner right hspan hos =>
      .pure ?_
    rintro _ ⟨⟩
    exact ⟨⟨hleft.start, hspan⟩, by simpa [ofCondition] using hos⟩

theorem keeps_branch :
    Keeps o (branch limit self depth) fun b => Placed o b.span [ofBranch b] := by
  refine .get_bind fun c hc => (keeps_condition hself).bind fun condition hcondition =>
    (keeps_requiredBlock hself).bind fun block hblock =>
    .spanFrom_bind fun s hs hordered => .pure ?_
  exact .node (p := .branch (.mk condition block s)) ⟨hs ▸ hc.offset, hordered⟩
    (List.forall_mem_append.2 ⟨Placed.ordered hcondition, Placed.ordered hblock⟩)
    (eachOf_append.2 ⟨proper_condition hcondition, proper_braced hblock⟩)

theorem keeps_elseIfs (n : Nat) :
    Keeps o (elseIfs limit self depth n) fun es => EachOf Node.Proper (ofElseIfs es) := by
  induction n generalizing o with
  | zero => exact keeps_stall.bind fun _ _ => .pure eachOf_nil
  | succ n ih =>
    refine .get_bind fun c _ => ?_
    split
    next => exact .pure eachOf_nil
    refine .bump_bind fun token htoken => (keeps_branch hself).bind fun branch hbranch =>
      .spanFrom_bind fun s hs hordered => ih.bind fun rest hrest => .pure ?_
    have hfirst : Placed o s [ofElseIf (.mk token branch s)] :=
      .node (p := .elseIf (.mk token branch s)) ⟨hs ▸ htoken.start, hordered⟩ (fun _ h => nomatch h)
        (eachOf_cons.2 ⟨each_token _, hbranch.proper⟩)
    exact eachOf_append.2 ⟨hfirst.proper, hrest⟩

theorem keeps_otherwise :
    Keeps o (otherwise limit self depth) fun r => EachOf Node.Proper (ofOptionalOtherwise r) := by
  refine .get_bind fun c _ => ?_
  split
  next => exact .pure eachOf_nil
  refine .bump_bind fun token htoken => (keeps_requiredBlock hself).bind fun block hblock =>
    .spanFrom_bind fun s hs hordered => .pure ?_
  have hother : Placed o s [ofOtherwise (.mk token block s)] :=
    .node (p := .otherwise (.mk token block s)) ⟨hs ▸ htoken.start, hordered⟩
      (Placed.ordered hblock) (eachOf_cons.2 ⟨each_token _, proper_braced hblock⟩)
  exact hother.proper

theorem keeps_conditional :
    Keeps o (conditional limit self depth) fun s => Placed o s.span [ofStatement s] := by
  refine .bump_bind fun token htoken => (keeps_branch hself).bind fun first hfirst =>
    .get_bind fun c _ => (keeps_elseIfs hself _).bind fun others hothers =>
    (keeps_otherwise hself).bind fun last hlast => .spanFrom_bind fun s hs hordered => .pure ?_
  exact .node (p := .statement (.conditional token first others last s))
    ⟨hs ▸ htoken.start, hordered⟩ (fun _ h => nomatch h) <| eachOf_cons.2
    ⟨each_token _, eachOf_append.2 ⟨eachOf_append.2 ⟨hfirst.proper, hothers⟩, hlast⟩⟩

theorem keeps_whileLoop :
    Keeps o (whileLoop limit self depth) fun s => Placed o s.span [ofStatement s] := by
  refine .bump_bind fun token htoken => (keeps_condition hself).bind fun condition hcondition =>
    (keeps_requiredBlock hself).bind fun block hblock =>
    .spanFrom_bind fun s hs hordered => .pure ?_
  exact .node (p := .statement (.whileLoop token condition block s))
    ⟨hs ▸ htoken.start, hordered⟩
    (List.forall_mem_append.2 ⟨Placed.ordered hcondition, Placed.ordered hblock⟩) <| eachOf_cons.2
    ⟨each_token _, eachOf_append.2 ⟨proper_condition hcondition, proper_braced hblock⟩⟩

theorem keeps_forLoop :
    Keeps o (forLoop self depth) fun s => Placed o s.span [ofStatement s] := by
  refine .bump_bind fun token htoken => (keeps_condition hself).bind fun subject hsubject =>
    .get_bind fun c _ => ?_
  extract_lets withBody
  have hbody : ∀ body : Option Expression, (∀ e ∈ body, e.PlacedAt token.span.start) →
      Keeps token.span.start (withBody body) fun s => Placed o s.span [ofStatement s] :=
    fun body hbody => .spanFrom_bind fun s hs hordered => .pure <|
      .node (p := .statement (.forLoop token subject body s)) ⟨hs ▸ htoken.start, hordered⟩
        (Placed.ordered hsubject) <| eachOf_cons.2
        ⟨each_token _, eachOf_append.2 ⟨proper_condition hsubject, proper_optional hbody⟩⟩
  split
  next => exact (hself (.value depth) _).bind hbody
  next =>
    exact (keeps_reportHere _ _).bind fun _ _ => .pure_bind (hbody none fun e he => nomatch he)

theorem keeps_varStatement :
    Keeps o (varStatement self depth) fun s => Placed o s.span [ofStatement s] := by
  refine .get_bind fun c hc => (keeps_var hself).bind fun target htarget => .get_bind fun c' _ => ?_
  split
  next =>
    refine keeps_bump.bind fun equals _ => ?_
    extract_lets withValue
    have hvalue : Keeps o (withValue ()) fun s => Placed o s.span [ofStatement s] := by
      refine (keeps_required hself).bind fun value hvalue => .spanFrom_bind fun s hs hordered =>
        .pure ?_
      exact .node (p := .statement (.assign target equals value s)) ⟨hs ▸ hc.offset, hordered⟩
        (fun _ h => nomatch h)
        (eachOf_append.2 ⟨htarget.proper, eachOf_cons.2 ⟨each_token _, proper_optional hvalue⟩⟩)
    split
    next => exact (keeps_report htarget.since.ordered).bind fun _ _ => hvalue
    next => exact hvalue
  split
  next =>
    have hvar : (Expression.var target).PlacedAt o := htarget
    refine (keeps_operatorChain hself hvar).bind fun e he => .pure ?_
    exact .node (p := .statement (.expression e)) he.since (fun _ h => nomatch h) he.proper
  next => exact (keeps_command hself htarget).bind fun k hk => .pure hk

theorem keeps_statement :
    Keeps o (statement limit self depth) fun r => ∀ s ∈ r, Placed o s.span [ofStatement s] := by
  have hsome : ∀ {p : Parse Statement}, (Keeps o p fun s => Placed o s.span [ofStatement s]) →
      Keeps o (some <$> p) fun r => ∀ s ∈ r, Placed o s.span [ofStatement s] := fun h =>
    .map (h.imp fun s hs s' hs' => by cases hs'; exact hs)
  refine .get_bind fun c _ => ?_
  split
  next => exact hsome (keeps_conditional hself)
  next => exact hsome (keeps_whileLoop hself)
  next => exact hsome (keeps_forLoop hself)
  next =>
    refine (keeps_call hself).bind fun k hk => .pure ?_
    rintro _ ⟨⟩
    exact hk
  next => exact hsome (keeps_varStatement hself)
  next => exact hsome (keeps_varStatement hself)
  next =>
    split
    next =>
      refine (hself (.expression depth 1) o).bind fun r hr => .pure fun s hs => ?_
      obtain ⟨e, he, rfl⟩ := Option.map_eq_some_iff.1 hs
      exact .node (p := .statement (.expression e)) (hr e he).since
        (fun _ h => nomatch h) (hr e he).proper
    next => exact .pure fun s hs => nomatch hs

theorem keeps_lastStatement :
    Keeps o (lastStatement self depth) fun l => Placed o l.span [ofLast l] := by
  refine .bump_bind fun token htoken => ?_
  split
  next => exact .pure (.node (p := .last (.break token)) htoken (fun _ h => nomatch h) (by simp))
  next => exact .pure (.node (p := .last (.continue token)) htoken (fun _ h => nomatch h) (by simp))
  refine .get_bind fun c _ => ?_
  extract_lets withValues
  have hvalues : ∀ values : Separated Expression, (∀ i ∈ values, i.span.From token.span.start ∧
        ∀ e ∈ i.value, e.PlacedAt token.span.start) →
      Keeps token.span.start (withValues values) fun l => Placed o l.span [ofLast l] := by
    intro values hvalues
    refine .spanFrom_bind fun s hs hordered => .pure ?_
    refine .node (p := .last (.return token values s)) ⟨hs ▸ htoken.start, hordered⟩
      (List.forall_mem_map.2 fun i hi => (hvalues i hi).1.ordered)
      (eachOf_cons.2 ⟨each_token _, ?_⟩)
    rw [ofItems_eq]
    exact proper_separated fun i hi v hv => (eachOf_cons.1 ((hvalues i hi).2 v hv).proper).1
  split
  next => exact .pure_bind (hvalues [] fun i hi => nomatch hi)
  next => exact (keeps_read (l := returned self depth) (hself (.value depth) _)).bind hvalues

omit hself in
theorem keeps_recover {stop : List TokenKind} {context : String} :
    Keeps o (recover stop context) fun ss => EachOf Node.Proper (ofStatements ss) := by
  refine .get_bind fun c _ => (keeps_skip _).bind fun node hnode => ?_
  cases node with
  | none => exact .pure eachOf_nil
  | some k =>
    have hskipped := hnode k rfl
    refine (keeps_report hskipped.since.ordered).bind fun _ _ => .pure ?_
    exact eachOf_append.2 ⟨hskipped.proper, eachOf_nil⟩

theorem keeps_someStatements {stop : List TokenKind} :
    Keeps o (someStatements limit self depth stop) fun ss =>
      EachOf Node.Proper (ofStatements ss) := by
  refine .get_bind fun c _ => ?_
  split
  next =>
    refine (keeps_skip _).bind fun node hnode => .pure ?_
    cases node with
    | none => exact eachOf_nil
    | some k => exact eachOf_append.2 ⟨(hnode k rfl).proper, eachOf_nil⟩
  refine (keeps_statement hself).bind fun r hr => ?_
  cases r with
  | none => exact keeps_recover
  | some s =>
    have hs := (hr s rfl).proper
    refine .get_bind fun now _ => ?_
    split
    next => exact .pure (eachOf_append.2 ⟨hs, eachOf_nil⟩)
    next => exact keeps_recover.bind fun ss hss => .pure (eachOf_append.2 ⟨hs, hss⟩)

theorem keeps_statements {stop : List TokenKind} (before : Option Nat) (n : Nat) :
    Keeps o (statements limit self depth stop before n) fun r =>
      EachOf Node.Proper (ofStatements r.1) ∧ EachOf Node.Proper (ofOptionalLast r.2) := by
  induction n generalizing before with
  | zero => exact keeps_stall.bind fun _ _ => .pure ⟨eachOf_nil, eachOf_nil⟩
  | succ n ih =>
    refine .get_bind fun c _ => ?_
    split
    next => exact .pure ⟨eachOf_nil, eachOf_nil⟩
    refine (keeps_progressed before).bind fun goes _ => ?_
    split
    next => exact .pure ⟨eachOf_nil, eachOf_nil⟩
    split
    next => exact keeps_bump.bind fun _ _ => ih _
    split
    next => exact (keeps_lastStatement hself).bind fun l hl => .pure ⟨eachOf_nil, hl.proper⟩
    next =>
      refine (keeps_someStatements hself).bind fun read hread => (ih _).bind fun r hr => .pure ?_
      rw [ofStatements_append]
      exact ⟨eachOf_append.2 ⟨hread, hr.1⟩, hr.2⟩

theorem keeps_block {stop : List TokenKind} {start : Nat} :
    Keeps o (block limit self depth stop start) fun b => Placed start b.span [ofBlock b] := by
  refine .get_bind fun c _ => (keeps_statements hself none _).bind fun r hr => ?_
  have hblock : Keeps o (do return .mk r.1 r.2 (← Parse.spanFrom start) : Parse Block)
      fun b => Placed start b.span [ofBlock b] := .spanFrom_bind fun s hs hordered => .pure <|
    .node (p := .block (.mk r.1 r.2 s)) ⟨Nat.le_of_eq hs.symm, hordered⟩
      (fun _ h => nomatch h) (eachOf_append.2 hr)
  dsimp only
  split
  next => exact (keeps_skipUnreachable stop).bind fun _ _ => hblock
  next => exact hblock

/-- **Every rule gives what is forward of where it is asked for**, with spans whose ends
are in order, if what it asks for itself is so. -/
theorem Lays.rule : Lays (rule limit self) := by
  intro n o
  cases n with
  | operand depth argument => exact keeps_operand hself
  | expression depth precedence => exact keeps_expression hself
  | value depth => exact keeps_value hself
  | block depth stop start => exact keeps_block hself

end Rules

/-- So is what any budget gives: a rule that has none left gives nothing, or an empty
block. -/
theorem lays_read (limit budget : Nat) : Lays (read limit budget) := by
  induction budget with
  | zero =>
    intro n o
    cases n with
    | operand | expression | value =>
      exact keeps_stall.bind fun _ _ => .pure fun e he => nomatch he
    | block depth stop start =>
      refine keeps_stall.bind fun _ _ => .spanFrom_bind fun s hs hordered => .pure ?_
      exact .node (p := .block (.mk [] none s)) ⟨Nat.le_of_eq hs.symm, hordered⟩
        (fun _ h => nomatch h) eachOf_nil
  | succ budget ih => exact ih.rule

end Grammar

end CommandScript
