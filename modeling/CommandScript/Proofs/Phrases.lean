import CommandScript.Parser.Basic
import CommandScript.Proofs.Built
/-!
# CommandScript — what the rules of the grammar build

Each rule builds the part it gives, out of the tokens it reads (`Grown`, `MayGrow`), as
long as what it asks for inside itself is built too (`Serves`). A rule reports something
wherever it leaves a part of its node out, and only a block reads anything behind the last
token of what it builds (`Flush`).

The budget goes down by one from rule to rule, and a token is read at the latest with the
third. So four for each token are enough, and every lemma here says how much more than
that a rule needs: nothing where it begins with a token, and up to three where it first
asks for something else.
-/

namespace CommandScript

open Outline

namespace Nonterminal

/-- How much more than four for each token a nonterminal needs. -/
def slack : Nonterminal → Nat
  | operand .. => 1
  | expression .. => 2
  | value .. | block .. => 3

/-- The kinds at which there is always something to read. -/
def starts : Nonterminal → List TokenKind
  | operand .. | expression .. => Grammar.operandStart
  | value .. => Grammar.expressionStart
  | block .. => []

/-- What was read for a nonterminal was built. Something is read wherever something
begins, and a block is asked for behind its brace. -/
def Reads (c : Cursor) : (n : Nonterminal) → n.Result → Cursor → Prop
  | n@(operand ..), r, d | n@(expression ..), r, d | n@(value ..), r, d =>
    MayGrow ofExpression c r d ∧ (c.seesAny n.starts = true → Excused r.isSome d)
  | block _ _ start, b, d => start = c.lastStop → Built c [ofBlock b] d

end Nonterminal

namespace Grammar

/-- Whatever is asked for under a budget is built, if the budget allows for it. -/
def Serves (budget : Nat) (self : (n : Nonterminal) → Parse n.Result) : Prop :=
  ∀ n c, 4 * c.upcoming.length + n.slack ≤ budget → (self n).Ends c (n.Reads c)

variable {limit depth budget : Nat} {self : (n : Nonterminal) → Parse n.Result} {c : Cursor}

open Parse

/-- A closing token is built, if it is there. -/
theorem ends_expect_built {k : TokenKind} {opener : Option Token} (hk : k ≠ .endOfInput) :
    (expect k opener).Ends c fun r d =>
      Flush c (ofTokens [r]) d ∧ Excused r.isSome d ∧ c.StopsAt (r.map (·.span)) d := by
  refine (ends_expect hk).imp fun r d _ h => ?_
  obtain ⟨t, rfl, -, hmoved⟩ | ⟨rfl, hmoved, htold⟩ := h
  · exact ⟨.token hmoved, .inl rfl, .token hmoved⟩
  · exact ⟨.nothing hmoved, .inr htold, .nothing hmoved⟩

/-- Past the limit, the rest of the text is kept as skipped tokens. -/
theorem ends_tooDeep_built : tooDeep.Ends c fun r d => d.Told ∧ MayGrow ofSkipped c r d := by
  refine Ends.sound fun hc => ends_tooDeep.imp fun r d _ h => ?_
  obtain ⟨htold, ⟨rfl, hmoved⟩ | ⟨t, ts, rfl, hmoved⟩⟩ := h
  · exact ⟨htold, .none hmoved⟩
  · exact ⟨htold, .some (.ofSkipped hc hmoved rfl rfl (.inl htold))⟩

theorem sees_of_kind {k : TokenKind} (h : c.kind = k) : c.sees k = true := by
  rw [Cursor.sees, h, beq_self_eq_true]

theorem seesAny_of_kind {k : TokenKind} {ks : List TokenKind} (h : c.kind = k) (hk : k ∈ ks) :
    c.seesAny ks = true := by
  rw [Cursor.seesAny, h]
  exact List.contains_iff_mem.2 hk

/-! ## Lists -/

section Lists

variable {α : Type} {l : Listing α} {outline : α → Outline} {bound : Nat}

/-- What the items of a list end with, where one more stands before them. -/
theorem getLast?_span_cons (item : SeparatedItem α) (rest : Separated α) :
    ((item :: rest).getLast?.map (·.span)).map (·.stop) =
      some (((rest.getLast?.map (·.span)).map (·.stop)).getD item.span.stop) := by
  rw [List.getLast?_cons]
  cases rest.getLast? <;> rfl

/-- Every round of a list builds an item, and so does the list. -/
theorem ends_rounds
    (hl : ∀ c, c.upcoming.length ≤ bound → l.starts c = true →
      l.element.Ends c fun r d => MayGrow outline c r d)
    (hc : c.upcoming.length ≤ bound) {before : Option Nat}
    (hbefore : ∀ offset ∈ before, offset < c.offset) {n : Nat} (hn : c.upcoming.length < n) :
    (l.rounds before n).Ends c fun items d =>
      Flush c (ofSeparated outline items) d ∧ Excused (Separated.isFull items) d ∧
        c.StopsAt (items.getLast?.map (·.span)) d := by
  induction n generalizing c before with
  | zero => omega
  | succ n ih =>
    unfold Listing.rounds
    refine Ends.get_bind ?_
    split
    next => exact Ends.pure ⟨.refl c, .of_true c, .nothing (.refl c)⟩
    refine (ends_progressed hbefore).bind fun goes c₁ hgoes => ?_
    obtain ⟨rfl, rfl⟩ := hgoes
    rw [if_neg (by simp)]
    extract_lets withValue
    refine Ends.sound fun hsound => ?_
    -- the rounds to come, behind an item that moved the cursor on
    have hrounds : ∀ item c₂, Flush c₁ (item.value.toList.map outline ++
        ofTokens [item.separator]) c₂ → c₂.upcoming.length < c₁.upcoming.length →
        Excused item.value.isSome c₂ → item.span.stop = c₂.lastStop →
        (do return item :: (← l.rounds (some c₁.offset) n) : Parse (Separated α)).Ends c₂
          fun items d =>
            Flush c₁ (ofSeparated outline items) d ∧ Excused (Separated.isFull items) d ∧
              c₁.StopsAt (items.getLast?.map (·.span)) d := by
      intro item c₂ hitem hlt hthere hstop
      have hforward : ∀ offset ∈ some c₁.offset, offset < c₂.offset := by
        rintro _ ⟨⟩
        exact hitem.built.offset_lt hsound hlt
      refine (ih (by omega) hforward (by omega)).bind fun rest d hrest => Ends.pure ⟨?_, ?_, ?_⟩
      · rw [ofSeparated_cons]
        exact hitem.append hrest.1
      · exact (hthere.along hrest.1).and hrest.2.1
      · rw [Cursor.StopsAt, getLast?_span_cons, hstop]
        exact hrest.2.2
    -- from the value on: a comma, the item, and the other rounds
    have hvalue : ∀ r c₂, MayGrow outline c₁ r c₂ → (withValue r).Ends c₂ fun items d =>
        Flush c₁ (ofSeparated outline items) d ∧ Excused (Separated.isFull items) d ∧
          c₁.StopsAt (items.getLast?.map (·.span)) d := by
      intro r c₂ hr
      dsimp -zeta only [withValue]
      extract_lets withComma
      have hcomma : ∀ d, c₂.Advanced [] d → Excused r.isSome d →
          (d.sees .comma = false → c₂.upcoming.length < c₁.upcoming.length) →
          (withComma ()).Ends d fun items e =>
            Flush c₁ (ofSeparated outline items) e ∧ Excused (Separated.isFull items) e ∧
              c₁.StopsAt (items.getLast?.map (·.span)) e := by
        intro d hd hthere hread
        dsimp -zeta only [withComma]
        refine (ends_eat (by decide)).bind fun separator c₃ hseparator => Ends.spanFrom_bind ?_
        extract_lets item
        obtain ⟨hitem, hlt⟩ : Flush d (ofTokens [separator]) c₃ ∧
            c₃.upcoming.length < c₁.upcoming.length := by
          have h₁ := hr.flush.length_le
          have h₂ := hd.length_le
          obtain ⟨t, rfl, -, hmoved⟩ | ⟨rfl, rfl, hnone⟩ := hseparator
          · have h₃ := hmoved.length_succ
            exact ⟨.token hmoved, by omega⟩
          · have h₃ := hread hnone
            exact ⟨.refl _, by omega⟩
        have hall := (hr.flush.before (.nothing hd)).append hitem
        -- the item ends where the token read last does
        obtain ⟨ts, hread⟩ := hall.built.moved
        have hstop : c₁.StopsAt (some item.span) c₃ :=
          .spanFrom (hsound.offset_le_lastStop hread hlt)
        refine Ends.get_bind ?_
        split
        next =>
          split
          next =>
            refine Ends.pure ⟨?_, ?_, hstop⟩
            · simpa [ofSeparated] using hall
            · simpa [Separated.isFull] using hthere.along hitem
          next =>
            refine (ends_report (Nat.le_refl _)).bind fun _ c₄ hc₄ => ?_
            have hsame := hc₄.1.length_le
            exact hrounds item c₄ (hall.before (.nothing hc₄.1)) (by omega)
              ((hthere.along hitem).along (.nothing hc₄.1)) (hstop.before hc₄.1).symm
        next => exact hrounds item c₃ hall hlt (hthere.along hitem) hstop.symm
      cases hr with
      | some hr => exact hcomma c₂ (.refl c₂) (.of_true c₂) fun _ => hr.shorter
      | none hr =>
        refine Ends.get_bind ?_
        split
        next => exact Ends.pure ⟨.nothing hr, .of_true c₂, .nothing hr⟩
        next h =>
          refine (ends_reportHere _ _).bind fun _ d hd => hcomma d hd.1 (.inr hd.2) fun hnone => ?_
          have hsame : d.sees .comma = c₂.sees .comma := by
            rw [Cursor.sees, Cursor.sees, Cursor.kind, Cursor.kind, hd.1.token_nil]
          rw [← hsame, hnone] at h
          exact absurd rfl h
    split
    next h => exact (hl c₁ hc h).bind hvalue
    next => exact Ends.pure_bind (hvalue none c₁ (.none (.refl c₁)))

/-- A list is built. -/
theorem ends_read
    (hl : ∀ c, c.upcoming.length ≤ bound → l.starts c = true →
      l.element.Ends c fun r d => MayGrow outline c r d)
    (hc : c.upcoming.length ≤ bound) :
    l.read.Ends c fun items d =>
      Flush c (ofSeparated outline items) d ∧ Excused (Separated.isFull items) d ∧
        c.StopsAt (items.getLast?.map (·.span)) d :=
  Ends.get_bind (ends_rounds hl hc (fun _ h => absurd h (by simp)) (Nat.lt_succ_self _))

end Lists

section Rules

variable (hself : Serves budget self)
include hself

theorem ends_required {message : String} (hb : 4 * c.upcoming.length + 3 ≤ budget) :
    (required self depth message).Ends c fun r d =>
      Flush c (ofOptional r) d ∧ Excused r.isSome d ∧ c.StopsAt (r.map (·.span)) d := by
  unfold required
  refine Ends.sound fun hc => (hself (.value depth) c hb).bind fun r d h => ?_
  have hstop := h.1.stopsAt hc
  simp only [span_ofExpression] at hstop
  cases h.1 with
  | some h => exact Ends.pure ⟨h.flush, .inl rfl, hstop⟩
  | none h =>
    refine (ends_reportHere _ _).bind fun _ e he => Ends.pure ?_
    exact ⟨(Flush.nothing h).before (.nothing he.1), .inr he.2, hstop.before he.1⟩

/-- What has to be here, and the token that closes it. -/
theorem ends_enclosed {k : TokenKind} {left : Token} {message : String} {β : Type}
    {f : Option Expression → Option Token → Parse β} {R : β → Cursor → Prop}
    (hk : k ≠ .endOfInput) (hb : 4 * c.upcoming.length + 3 ≤ budget)
    (h : ∀ inner right d, Flush c (ofOptional inner ++ ofTokens [right]) d →
      Excused (right.isSome && inner.isSome) d → (f inner right).Ends d R) :
    (do let inner ← required self depth message
        let right ← expect k (some left)
        f inner right : Parse β).Ends c R := by
  refine (ends_required hself hb).bind fun inner d hinner => ?_
  refine (ends_expect_built hk).bind fun right e hright => ?_
  exact h inner right e (hinner.1.append hright.1) (hright.2.1.and (hinner.2.1.along hright.1))

/-! ## Variables and commands -/

theorem ends_varRoot (h : c.seesAny [.identifier, .dollar] = true)
    (hb : 4 * c.upcoming.length ≤ budget) :
    (varRoot self depth).Ends c fun r d =>
      Grown c (ofRoot r) d ∧ c.offset = r.head.span.start := by
  unfold varRoot
  refine Ends.get_bind (Ends.sound fun hc => ?_)
  split
  next h =>
    refine (ends_bump_of_sees h (by decide)).bind fun t d ht => Ends.pure ?_
    exact ⟨.ofOneToken hc ht.2 rfl rfl rfl trivial, (hc.offset_lt ht.2.toMoved).1⟩
  refine (ends_bump_of_seesAny h (by decide)).bind fun dollar c₁ hdollar => Ends.get_bind ?_
  have h₁ := hdollar.2.length_succ
  have hstart := (hc.offset_lt hdollar.2.toMoved).1
  split
  next h =>
    rw [Bool.and_eq_true] at h
    refine (ends_bump_of_sees h.1 (by decide)).bind fun name d hname => Ends.spanFrom_bind ?_
    exact Ends.pure ⟨.ofToken hc hdollar.2 (.token hname.2) rfl rfl (.of_true d) trivial, hstart⟩
  split
  next h =>
    rw [Bool.and_eq_true] at h
    refine (ends_bump_of_sees h.1 (by decide)).bind fun left c₂ hleft => ?_
    have h₂ := hleft.2.length_succ
    refine ends_enclosed hself (by decide) (by omega) fun inner right d hd hwhole =>
      Ends.spanFrom_bind ?_
    exact Ends.pure ⟨.ofToken hc hdollar.2 (.consToken hleft.2 hd) rfl rfl hwhole trivial, hstart⟩
  · refine (ends_reportHere _ _).bind fun _ d hd => Ends.spanFrom_bind ?_
    exact Ends.pure ⟨.ofToken hc hdollar.2 (.nothing hd.1) rfl rfl (.inr hd.2) trivial, hstart⟩

theorem ends_varSuffix (h : c.sees .dot = true) (hb : 4 * c.upcoming.length ≤ budget) :
    (varSuffix self depth).Ends c fun s d => Grown c (ofSuffix s) d := by
  unfold varSuffix
  refine Ends.sound fun hc => ?_
  refine (ends_bump_of_sees h (by decide)).bind fun period c₁ hperiod => Ends.get_bind ?_
  have h₁ := hperiod.2.length_succ
  split
  next h =>
    refine (ends_bump_of_sees h (by decide)).bind fun name d hname => Ends.spanFrom_bind ?_
    exact Ends.pure (.ofToken hc hperiod.2 (.token hname.2) rfl rfl (.of_true d) trivial)
  split
  next h =>
    refine (ends_bump_of_sees h (by decide)).bind fun left c₂ hleft => ?_
    have h₂ := hleft.2.length_succ
    refine ends_enclosed hself (by decide) (by omega) fun inner right d hd hwhole =>
      Ends.spanFrom_bind ?_
    exact Ends.pure (.ofToken hc hperiod.2 (.consToken hleft.2 hd) rfl rfl hwhole trivial)
  · refine (ends_reportHere _ _).bind fun _ d hd => Ends.spanFrom_bind ?_
    exact Ends.pure (.ofToken hc hperiod.2 (.nothing hd.1) rfl rfl (.inr hd.2) trivial)

theorem ends_varSuffixes {n : Nat} (hn : c.upcoming.length < n)
    (hb : 4 * c.upcoming.length ≤ budget) :
    (varSuffixes self depth n).Ends c fun ss d => Flush c (ofSuffixes ss) d := by
  induction n generalizing c with
  | zero => omega
  | succ n ih =>
    unfold varSuffixes
    refine Ends.get_bind ?_
    split
    next h =>
      refine (ends_varSuffix hself h hb).bind fun first c₁ hfirst => ?_
      have h₁ := hfirst.shorter
      refine (ih (by omega) (by omega)).bind fun rest d hrest => Ends.pure ?_
      exact .cons hfirst.flush hrest
    next => exact Ends.pure (.refl c)

theorem ends_var (h : c.seesAny [.identifier, .dollar] = true)
    (hb : 4 * c.upcoming.length ≤ budget) :
    (var self depth).Ends c fun v d => Grown c (ofVar v) d := by
  unfold var
  refine Ends.get_bind ((ends_varRoot hself h hb).bind fun root c₁ hroot => Ends.get_bind ?_)
  have h₁ := hroot.1.shorter
  refine (ends_varSuffixes hself (Nat.lt_succ_self _) (by omega)).bind
    fun suffixes d hsuffixes => ?_
  exact Ends.spanFrom_bind (Ends.pure (.ofGrown hroot.1 hsuffixes rfl rfl (.of_true d) hroot.2))

omit hself in
/-- Where the arguments of a command go on, so does the line. -/
theorem onNewLine_of_not_endsArguments (h : ¬ endsArguments c = true) : c.onNewLine = false := by
  cases hline : c.onNewLine with
  | false => rfl
  | true => exact absurd (by simp [endsArguments, endsStatement, hline]) h

theorem ends_arguments {before : Option Nat} (hbefore : ∀ offset ∈ before, offset < c.offset)
    {n : Nat} (hn : c.upcoming.length < n) (hb : 4 * c.upcoming.length + 1 ≤ budget) :
    (arguments self depth before n).Ends c fun es d => Flush c (ofArguments es) d ∧
      (c.last ≠ none → Token.InLine c.trail c.lastStop (es.map (·.span)) d.lastStop) := by
  induction n generalizing c before with
  | zero => omega
  | succ n ih =>
    unfold arguments
    refine Ends.get_bind (Ends.sound fun hc => ?_)
    split
    next => exact Ends.pure ⟨.refl c, (Cursor.Advanced.refl c).inLine⟩
    next hgoesOn =>
    refine (ends_progressed hbefore).bind fun goes c₁ hgoes => ?_
    obtain ⟨rfl, rfl⟩ := hgoes
    rw [if_neg (by simp)]
    refine (hself (.operand depth true) c₁ hb).bind fun r c₂ hr => ?_
    cases hr.1 with
    | none hr => exact Ends.pure ⟨.nothing hr, hr.inLine⟩
    | some hr =>
      have h₂ := hr.shorter
      have hforward : ∀ offset ∈ some c₁.offset, offset < c₂.offset := by
        rintro _ ⟨⟩
        exact hr.built.offset_lt hc h₂
      refine (ih hforward (by omega) (by omega)).bind fun rest d hrest => Ends.pure ⟨?_, ?_⟩
      · exact .cons hr.flush hrest.1
      · intro hlast
        rw [List.map_cons, ← span_ofExpression]
        exact hr.inLine hc (onNewLine_of_not_endsArguments hgoesOn) hlast hrest.2

theorem ends_command {callee : Var} {c₀ : Cursor} (hc₀ : c₀.Sound) (h : Grown c₀ (ofVar callee) c)
    (hb : 4 * c.upcoming.length + 1 ≤ budget) :
    (command self depth callee).Ends c fun k d => Grown c₀ (ofCommand k) d := by
  unfold command
  refine Ends.get_bind ((ends_arguments hself (fun _ h => absurd h (by simp))
    (Nat.lt_succ_self _) hb).bind fun args d hargs => Ends.spanFrom_bind (Ends.pure ?_))
  have hcallee : (ofVar callee).span = callee.span := by
    cases callee
    rfl
  have hspan : d.spanFrom callee.span.start = d.spanFrom c₀.offset := by
    rw [← hcallee, h.span]
    rfl
  refine .ofGrown h hargs.1 hspan rfl (.of_true d) ?_
  -- the command ends where its last argument does, or what is called
  obtain ⟨ts, hread⟩ := h.built.moved
  obtain ⟨us, hmoved⟩ := hargs.1.built.moved
  have hshorter : d.upcoming.length < c₀.upcoming.length :=
    Nat.lt_of_le_of_lt hargs.1.length_le h.shorter
  have hstop : (d.spanFrom callee.span.start).stop = d.lastStop := by
    rw [hspan]
    exact Nat.max_eq_right (hc₀.offset_le_lastStop (hread.trans hmoved) hshorter)
  change Token.InLine _ callee.span.stop _ (d.spanFrom callee.span.start).stop
  rw [hstop, ← hcallee, h.stop_eq hc₀]
  exact (hargs.2 h.last_ne_none).mono hread.trail.isInfix

theorem ends_call (h : c.sees .ampersand = true) (hb : 4 * c.upcoming.length ≤ budget) :
    (call self depth).Ends c fun k d => Grown c (ofCall k) d := by
  unfold call
  refine Ends.sound fun hc => ?_
  refine (ends_bump_of_sees h (by decide)).bind fun ampersand c₁ hamp => Ends.get_bind ?_
  have h₁ := hamp.2.length_succ
  extract_lets withCommand
  have hcommand : ∀ r d, Flush c₁ (ofOptionalCommand r) d → Excused r.isSome d →
      (withCommand r).Ends d fun k d => Grown c (ofCall k) d := fun r d hr hwhole =>
    Ends.spanFrom_bind (Ends.pure (.ofToken hc hamp.2 hr rfl rfl hwhole trivial))
  split
  next h =>
    refine Ends.bind (Q := fun r d => ∃ k, r = some k ∧ Grown c₁ (ofCommand k) d) ?_ ?_
    · refine Ends.map ((ends_var hself h (by omega)).bind fun v c₂ hv => ?_)
      have h₂ := hv.shorter
      have hc₁ := hamp.2.toMoved.sound hc
      exact (ends_command hself hc₁ hv (by omega)).imp fun k d _ hk => ⟨k, rfl, hk⟩
    · rintro _ d ⟨k, rfl, hk⟩
      exact hcommand _ d hk.flush (.of_true d)
  next =>
    refine (ends_reportHere _ _).bind fun _ d hd => Ends.pure_bind ?_
    exact hcommand none d (.nothing hd.1) (.inr hd.2)

/-! ## Expressions -/

theorem ends_operators {precedence chain n : Nat} {left : Expression} {c₀ : Cursor}
    (h : Grown c₀ (ofExpression left) c) (hn : c.upcoming.length < n)
    (hb : 4 * c.upcoming.length ≤ budget) :
    (operators self depth precedence chain left n).Ends c fun e d =>
      Grown c₀ (ofExpression e) d := by
  induction n generalizing c chain left with
  | zero => omega
  | succ n ih =>
    unfold operators
    refine Ends.get_bind ?_
    split
    next => exact Ends.pure h
    split
    next => exact Ends.pure h
    next p hp =>
    split
    next => exact Ends.pure h
    have hkind : c.kind ≠ .endOfInput := by
      intro hend
      rw [hend] at hp
      cases hp
    refine (ends_bump_of_kind rfl hkind).bind fun operator c₁ hoperator => ?_
    have h₁ := hoperator.2.length_succ
    refine (hself (.expression ..) c₁ (by dsimp only [Nonterminal.slack]; omega)).bind
      fun right c₂ hright => ?_
    have h₂ := hright.1.flush.length_le
    -- the chain so far, with the operator and what stands behind it
    have hjoined : ∀ d, Flush c₂ [] d → Excused right.isSome d →
        Grown c₀ (ofExpression (.binary left operator right (d.spanFrom left.span.start))) d := by
      intro d hd hwhole
      have hspan : d.spanFrom left.span.start = d.spanFrom c₀.offset := by
        rw [← span_ofExpression, h.span]
        rfl
      have hoperand := hright.1.flush.before hd
      rw [← ofOptional_eq] at hoperand
      exact .ofGrown h (.consToken hoperator.2 hoperand) hspan rfl hwhole trivial
    dsimp only
    cases right with
    | none =>
      refine (ends_reportHere _ _).bind fun _ d hd => Ends.spanFrom_bind (Ends.pure ?_)
      exact hjoined d (.nothing hd.1) (.inr hd.2)
    | some e =>
      refine Ends.spanFrom_bind (ih (hjoined c₂ (.refl c₂) (.of_true c₂)) ?_ ?_)
      · omega
      · omega

theorem ends_operatorChain {precedence : Nat} {left : Expression} {c₀ : Cursor}
    (h : Grown c₀ (ofExpression left) c) (hb : 4 * c.upcoming.length ≤ budget) :
    (operatorChain self depth precedence left).Ends c fun e d => Grown c₀ (ofExpression e) d :=
  Ends.get_bind (ends_operators hself h (Nat.lt_succ_self _) hb)

theorem ends_expression {precedence : Nat} (hb : 4 * c.upcoming.length + 1 ≤ budget) :
    (expression self depth precedence).Ends c
      ((Nonterminal.expression depth precedence).Reads c) := by
  unfold expression
  refine (hself (.operand depth false) c hb).bind fun r d h => ?_
  obtain ⟨hgrown, hstarts⟩ := h
  cases hgrown with
  | none hnone => exact Ends.pure ⟨.none hnone, hstarts⟩
  | some hsome =>
    have h₁ := hsome.shorter
    refine Ends.map ((ends_operatorChain hself hsome (by omega)).imp fun e d _ he => ?_)
    exact ⟨.some he, fun _ => .of_true d⟩

theorem ends_value (hb : 4 * c.upcoming.length + 2 ≤ budget) :
    (value self depth).Ends c ((Nonterminal.value depth).Reads c) := by
  unfold value
  refine Ends.get_bind ?_
  split
  next h =>
    refine (ends_call hself h (by omega)).bind fun k d hk => Ends.pure ?_
    exact ⟨.some hk, fun _ => .of_true d⟩
  next hamp =>
    refine (hself (.expression depth 1) c hb).imp fun r d _ hr => ⟨hr.1, fun hstarts => hr.2 ?_⟩
    -- an expression begins with an operand
    have hkind : c.kind ≠ .ampersand := fun h => hamp (sees_of_kind h)
    obtain h | h := List.mem_append.1 (List.contains_iff_mem.1 hstarts)
    · exact List.contains_iff_mem.2 h
    · exact absurd (List.mem_singleton.1 h) hkind

theorem ends_tableField (hb : 4 * c.upcoming.length + 3 ≤ budget) :
    (tableField self depth).Ends c fun r d => MayGrow ofField c r d := by
  unfold tableField
  refine Ends.get_bind (Ends.sound fun hc => ?_)
  have hstart : ∀ {t d}, c.Advanced [t] d → c.offset = t.span.start := fun h =>
    (hc.offset_lt h.toMoved).1
  dsimp only
  split
  next h =>
    simp only [Bool.and_eq_true, beq_iff_eq] at h
    refine (ends_bump_of_sees h.1 (by decide)).bind fun name c₁ hname => ?_
    have hequal : c₁.kind = .equal := by rw [Cursor.kind, hname.2.token_eq, h.2]
    refine (ends_bump_of_kind hequal (by decide)).bind fun equals c₂ hequals => ?_
    have h₁ := hname.2.length_succ
    have h₂ := hequals.2.length_succ
    refine (ends_required hself (by omega)).bind fun value d hvalue =>
      Ends.spanFrom_bind (Ends.pure ?_)
    rw [hstart hname.2]
    exact .some (.ofToken hc hname.2 (.consToken hequals.2 hvalue.1) rfl rfl hvalue.2.1 trivial)
  split
  next h =>
    rw [Bool.and_eq_true] at h
    refine (ends_bump_of_sees h.1 (by decide)).bind fun left c₁ hleft => ?_
    have h₁ := hleft.2.length_succ
    refine ends_enclosed hself (by decide) (by omega) fun key right c₂ hkey hwhole => ?_
    refine (ends_expect_built (by decide)).bind fun equals c₃ hequals => ?_
    have h₂ := hkey.length_le
    have h₃ := hequals.1.length_le
    -- what was read of the field, whatever its value is
    have hfield : ∀ value d, Flush c₃ (ofOptional value) d →
        Excused (equals.isSome && value.isSome) d →
        Grown c (ofField (.keyed ⟨left, right⟩ key equals value (d.spanFrom c.offset))) d := by
      intro value d hvalue hthere
      rw [hstart hleft.2]
      refine .ofToken hc hleft.2 ((hkey.append hequals.1).append hvalue) rfl rfl ?_ trivial
      have hall := ((hwhole.along hequals.1).along hvalue).and hthere
      rwa [← Bool.and_assoc] at hall
    split
    next hthere =>
      refine (ends_required hself (by omega)).bind fun value d hvalue =>
        Ends.spanFrom_bind (Ends.pure (.some (hfield value d hvalue.1 ?_)))
      rw [hthere, Bool.true_and]
      exact hvalue.2.1
    next hmissing =>
      refine Ends.pure_bind (Ends.spanFrom_bind (Ends.pure (.some ?_)))
      exact hfield none c₃ (.refl c₃) (.inr (hequals.2.1.resolve_left hmissing))
  refine (hself (.value depth) c hb).bind fun r d h => ?_
  cases h.1 with
  | none h => exact Ends.pure (.none h)
  | some h =>
    exact Ends.spanFrom_bind (Ends.pure (.some (.ofGrown h (.refl d) rfl rfl (.of_true d) trivial)))

theorem ends_unary (h : c.seesAny [.minus, .bang] = true) (hb : 4 * c.upcoming.length ≤ budget) :
    (unary self depth).Ends c fun e d => Grown c (ofExpression e) d := by
  unfold unary
  refine Ends.sound fun hc => ?_
  refine (ends_bump_of_seesAny h (by decide)).bind fun operator c₁ hoperator => ?_
  have h₁ := hoperator.2.length_succ
  refine (hself (.operand depth false) c₁ (by dsimp only [Nonterminal.slack]; omega)).bind
    fun r c₂ hr => ?_
  have hvalue : ∀ d, Flush c₂ [] d → Excused r.isSome d →
      Grown c (ofExpression (.unary operator r (d.spanFrom operator.span.start))) d := by
    intro d hd hwhole
    have hoperand := hr.1.flush.before hd
    rw [← ofOptional_eq] at hoperand
    exact .ofToken hc hoperator.2 hoperand rfl rfl hwhole trivial
  dsimp only
  cases r with
  | none =>
    refine (ends_reportHere _ _).bind fun _ d hd => Ends.spanFrom_bind (Ends.pure ?_)
    exact hvalue d (.nothing hd.1) (.inr hd.2)
  | some e => exact Ends.spanFrom_bind (Ends.pure (hvalue c₂ (.refl c₂) (.of_true c₂)))

theorem ends_group (h : c.sees .leftParen = true) (hb : 4 * c.upcoming.length ≤ budget) :
    (group self depth).Ends c fun e d => Grown c (ofExpression e) d := by
  unfold group
  refine Ends.sound fun hc => ?_
  refine (ends_bump_of_sees h (by decide)).bind fun left c₁ hleft => Ends.get_bind ?_
  have h₁ := hleft.2.length_succ
  extract_lets withInner
  have hgroup : ∀ inner c₂, Flush c₁ (ofOptional inner) c₂ → c₁.StopsAt (inner.map (·.span)) c₂ →
      (withInner inner).Ends c₂ fun e d => Grown c (ofExpression e) d := by
    intro inner c₂ hinner hstop
    refine (ends_expect_built (by decide)).bind fun right d hright => Ends.spanFrom_bind ?_
    have hall := hinner.append hright.1
    exact Ends.pure (.ofToken hc hleft.2 hall rfl rfl hright.2.1
      (hstop.spanFrom_eq_spanWith hc hleft.2 hright.2.2 hall.built.moved))
  split
  next => exact Ends.pure_bind (hgroup none c₁ (.refl c₁) (.nothing (.refl c₁)))
  next =>
    refine (ends_required hself (by omega)).bind fun inner c₂ hinner => ?_
    exact hgroup inner c₂ hinner.1 hinner.2.2

theorem ends_vector (h : c.sees .leftBracket = true) (hb : 4 * c.upcoming.length ≤ budget) :
    (vector self depth).Ends c fun e d => Grown c (ofExpression e) d := by
  unfold vector
  refine Ends.sound fun hc => ?_
  refine (ends_bump_of_sees h (by decide)).bind fun left c₁ hleft => ?_
  have h₁ := hleft.2.length_succ
  have hitems : ∀ c, c.upcoming.length ≤ c₁.upcoming.length → (items self depth).starts c = true →
      (items self depth).element.Ends c fun r d => MayGrow ofExpression c r d := fun c hlen _ =>
    (hself (.value depth) c (by dsimp only [Nonterminal.slack]; omega)).imp fun _ _ _ h => h.1
  refine (ends_read hitems (Nat.le_refl _)).bind fun contents c₂ hcontents => ?_
  refine (ends_expect_built (by decide)).bind fun right d hright => Ends.spanFrom_bind ?_
  have hall := hcontents.1.append hright.1
  rw [← ofItems_eq] at hall
  exact Ends.pure (.ofToken hc hleft.2 hall rfl rfl
    (hright.2.1.and (hcontents.2.1.along hright.1))
    (hcontents.2.2.spanFrom_eq_spanWith hc hleft.2 hright.2.2 hall.built.moved))

theorem ends_table (h : c.sees .leftBrace = true) (hb : 4 * c.upcoming.length ≤ budget) :
    (table self depth).Ends c fun e d => Grown c (ofExpression e) d := by
  unfold table
  refine Ends.sound fun hc => ?_
  refine (ends_bump_of_sees h (by decide)).bind fun left c₁ hleft => ?_
  have h₁ := hleft.2.length_succ
  have hfields : ∀ c, c.upcoming.length ≤ c₁.upcoming.length → (fields self depth).starts c = true →
      (fields self depth).element.Ends c fun r d => MayGrow ofField c r d := fun c hlen _ =>
    ends_tableField hself (by omega)
  refine (ends_read hfields (Nat.le_refl _)).bind fun contents c₂ hcontents => ?_
  refine (ends_expect_built (by decide)).bind fun right d hright => Ends.spanFrom_bind ?_
  have hall := hcontents.1.append hright.1
  rw [← ofFields_eq] at hall
  exact Ends.pure (.ofToken hc hleft.2 hall rfl rfl
    (hright.2.1.and (hcontents.2.1.along hright.1))
    (hcontents.2.2.spanFrom_eq_spanWith hc hleft.2 hright.2.2 hall.built.moved))

/-- A block between braces. Past the limit, what is in it is skipped. -/
theorem ends_braced (h : c.sees .leftBrace = true) (hb : 4 * c.upcoming.length ≤ budget) :
    (braced limit self depth).Ends c fun b d =>
      Flush c (ofBraced b) d ∧ Excused b.isClosed d := by
  unfold braced
  refine (ends_bump_of_sees h (by decide)).bind fun left c₁ hleft => ?_
  have h₁ := hleft.2.length_succ
  have hstart : left.span.stop = c₁.lastStop := (hleft.2.lastStop_one).symm
  dsimp only
  split
  next =>
    refine ends_tooDeep_built.bind fun rest d hrest => Ends.spanFrom_bind (Ends.pure ?_)
    have hspan : d.spanFrom left.span.stop = d.spanFrom c₁.lastStop := by rw [hstart]
    refine ⟨.of_told (.consToken hleft.2 ?_) hrest.1, .inr hrest.1⟩
    cases hrest.2 with
    | some hskipped => exact .block hskipped.built rfl (.inl hspan)
    | none hnothing => exact .block (.nothing hnothing) rfl (.inl hspan)
  next =>
    refine (hself (.block (depth + 1) [.rightBrace] left.span.stop) c₁
      (by dsimp only [Nonterminal.slack]; omega)).bind fun b c₂ hblock => ?_
    refine (ends_expect (by decide)).bind fun right d hright => Ends.pure ?_
    have hbefore := Built.consToken hleft.2 (hblock hstart)
    obtain ⟨t, rfl, -, hmoved⟩ | ⟨rfl, hmoved, htold⟩ := hright
    · exact ⟨.closed hbefore hmoved, .inl rfl⟩
    · exact ⟨.of_told (hbefore.before (.nothing hmoved)) htold, .inr htold⟩

theorem ends_lambda (h : c.sees .pipe = true) (hb : 4 * c.upcoming.length ≤ budget) :
    (lambda limit self depth).Ends c fun e d => Grown c (ofExpression e) d := by
  unfold lambda
  refine Ends.sound fun hc => ?_
  refine (ends_bump_of_sees h (by decide)).bind fun left c₁ hleft => ?_
  have h₁ := hleft.2.length_succ
  have hparameters : ∀ c, c.upcoming.length ≤ c₁.upcoming.length → parameters.starts c = true →
      parameters.element.Ends c fun r d => MayGrow .token c r d := by
    intro c _ _
    refine Ends.sound fun hc => (ends_eat (by decide)).imp fun r d _ h => ?_
    obtain ⟨t, rfl, -, hmoved⟩ | ⟨rfl, rfl, -⟩ := h
    · exact .some (.token hc hmoved)
    · exact .none (.refl _)
  refine (ends_read hparameters (Nat.le_refl _)).bind fun names c₂ hnames => ?_
  refine (ends_expect_built (by decide)).bind fun right c₃ hright => Ends.get_bind ?_
  have h₂ := hnames.1.length_le
  have h₃ := hright.1.length_le
  extract_lets withBlock
  have hblock : ∀ block d, Flush c₃ (ofOptionalBraced block) d →
      Excused (block.all Braced.isClosed) d →
      (withBlock block).Ends d fun e d => Grown c (ofExpression e) d := by
    intro block d hblock hclosed
    refine Ends.spanFrom_bind (Ends.pure ?_)
    have hbody :
        Grown c (ofBody (.mk ⟨left, right⟩ names block (d.spanFrom left.span.start))) d := by
      refine .ofToken hc hleft.2 ?_ rfl rfl ?_ trivial
      · rw [ofParameters_eq]
        exact (hnames.1.append hright.1).append hblock
      · exact ((hright.2.1.and (hnames.2.1.along hright.1)).along hblock).and hclosed
    exact .ofGrown hbody (.refl d) hbody.span rfl (.of_true d) trivial
  split
  next h =>
    refine Ends.bind (Q := fun b d => ∃ b', b = some b' ∧ Flush c₃ (ofBraced b') d ∧
      Excused b'.isClosed d) (Ends.map ((ends_braced hself h (by omega)).imp fun b d _ hb => ?_)) ?_
    · exact ⟨b, rfl, hb⟩
    · rintro _ d ⟨b, rfl, hb, hclosed⟩
      exact hblock _ d hb hclosed
  next => exact Ends.pure_bind (hblock none c₃ (.refl c₃) (.of_true c₃))

theorem ends_operand {argument : Bool} (hb : 4 * c.upcoming.length ≤ budget) :
    (operand limit self depth argument).Ends c ((Nonterminal.operand depth argument).Reads c) := by
  unfold operand
  split
  next =>
    refine ends_tooDeep_built.bind fun r d hr => Ends.pure ⟨?_, fun _ => .inr hr.1⟩
    cases hr.2 with
    | some hskipped => exact .some hskipped
    | none hnothing => exact .none hnothing
  refine Ends.get_bind (Ends.sound fun hc => ?_)
  have hone : ∀ {k} {f : Token → Expression}, c.kind = k → k ≠ .endOfInput →
      (∀ t, ∃ p, ofExpression (f t) = .node p [.token t] ∧ p.span = t.span ∧ p.isWhole = true ∧
        p.isBlock = false ∧ p.Coheres c.trail) →
      (do return some (f (← bump)) : Parse (Option Expression)).Ends c
        ((Nonterminal.operand depth argument).Reads c) := by
    intro k f h hk hf
    refine (ends_bump_of_kind h hk).bind fun t d ht => Ends.pure ⟨.some ?_, fun _ => .of_true d⟩
    obtain ⟨p, hp, hspan, hwhole, hblock, hcoheres⟩ := hf t
    rw [hp]
    exact .ofOneToken hc ht.2 hspan hblock hwhole hcoheres
  have hvar : c.seesAny [.identifier, .dollar] = true →
      (do return some (.var (← var self (depth + 1))) : Parse (Option Expression)).Ends c
        ((Nonterminal.operand depth argument).Reads c) := fun h =>
    (ends_var hself h hb).bind fun v d hv => Ends.pure ⟨.some hv, fun _ => .of_true d⟩
  have hmap : ∀ {p : Parse Expression}, (p.Ends c fun e d => Grown c (ofExpression e) d) →
      (some <$> p).Ends c ((Nonterminal.operand depth argument).Reads c) := fun h =>
    Ends.map (h.imp fun _ d _ he => ⟨.some he, fun _ => .of_true d⟩)
  split
  next h => exact hone h (by decide) fun t => ⟨_, rfl, rfl, rfl, rfl, trivial⟩
  next h => exact hone h (by decide) fun t => ⟨_, rfl, rfl, rfl, rfl, trivial⟩
  next h => exact hone h (by decide) fun t => ⟨_, rfl, rfl, rfl, rfl, trivial⟩
  next h => exact hone h (by decide) fun t => ⟨_, rfl, rfl, rfl, rfl, trivial⟩
  next h => exact hone h (by decide) fun t => ⟨_, rfl, rfl, rfl, rfl, trivial⟩
  next h =>
    split
    next => exact hone h (by decide) fun t => ⟨_, rfl, rfl, rfl, rfl, trivial⟩
    next => exact hvar (seesAny_of_kind h (by decide))
  next h => exact hvar (seesAny_of_kind h (by decide))
  next h => exact hmap (ends_group hself (sees_of_kind h) hb)
  next h => exact hmap (ends_vector hself (sees_of_kind h) hb)
  next h => exact hmap (ends_table hself (sees_of_kind h) hb)
  next h => exact hmap (ends_lambda hself (sees_of_kind h) hb)
  next h => exact hmap (ends_unary hself (seesAny_of_kind h (by decide)) hb)
  next h => exact hmap (ends_unary hself (seesAny_of_kind h (by decide)) hb)
  next h =>
    refine (ends_bump_of_kind h (by decide)).bind fun t d ht =>
      Ends.pure ⟨.some ?_, fun _ => .of_true d⟩
    exact .ofSkipped hc ht.2 rfl (hc.span_eq ht.2.toMoved) (.inr ht.1)
  next =>
    refine Ends.pure ⟨.none (.refl c), fun hstarts => ?_⟩
    have hmem : c.kind ∈ operandStart := List.contains_iff_mem.1 hstarts
    simp only [operandStart, List.mem_cons, List.not_mem_nil, or_false] at hmem
    simp_all

/-! ## Statements -/

theorem ends_requiredBlock {behind : Option Token} (hb : 4 * c.upcoming.length ≤ budget) :
    (requiredBlock limit self depth behind).Ends c fun b d =>
      Flush c (ofOptionalBraced b) d ∧ Excused (b.any Braced.isClosed) d := by
  unfold requiredBlock
  refine Ends.get_bind ?_
  split
  next h => exact (ends_braced hself h hb).bind fun b d hb => Ends.pure hb
  next =>
    refine (ends_reportHere _ _).bind fun _ d hd => Ends.pure ?_
    exact ⟨.nothing hd.1, .inr hd.2⟩

theorem ends_condition (hb : 4 * c.upcoming.length ≤ budget) :
    (condition self depth).Ends c fun r d => Flush c (ofOptionalCondition r) d ∧
      Excused (r.any Condition.isWhole) d ∧ (d.Told ∨ c.Fits (ofOptionalCondition r) d) := by
  unfold condition
  refine Ends.get_bind (Ends.sound fun hc => ?_)
  split
  next =>
    refine (ends_reportHere _ _).bind fun _ d hd => Ends.pure ?_
    exact ⟨.nothing hd.1, .inr hd.2, .inl hd.2⟩
  next h =>
    have hparen : c.sees .leftParen = true := by simpa using h
    refine (ends_bump_of_sees hparen (by decide)).bind fun left c₁ hleft => ?_
    have h₁ := hleft.2.length_succ
    refine ends_enclosed hself (by decide) (by omega) fun inner right d hd hwhole => Ends.pure ?_
    have hall := Flush.consToken hleft.2 hd
    exact ⟨hall, hwhole, hall.fits rfl (hc.offset_lt hleft.2.toMoved).1.symm⟩

theorem ends_branch (hb : 4 * c.upcoming.length ≤ budget) :
    (branch limit self depth).Ends c fun b d => Flush c [ofBranch b] d := by
  unfold branch
  refine Ends.get_bind ?_
  refine (ends_condition hself hb).bind fun condition c₁ hcondition => ?_
  have h₁ := hcondition.1.length_le
  refine (ends_requiredBlock hself (by omega)).bind fun block d hblock =>
    Ends.spanFrom_bind (Ends.pure ?_)
  have hwhole := (hcondition.2.1.along hblock.1).and hblock.2
  have hbuilt := (hcondition.1.append hblock.1).built
  have hfits := hcondition.1.fits_append hcondition.2.2 hblock.1
  refine ⟨.node hbuilt rfl (hwhole.imp_right .inl) ?_ rfl hfits trivial,
    hfits.imp_right (·.node.last_or)⟩
  -- a condition and a block both begin with a token
  have hlength := hbuilt.length_tokens_add_le
  rw [tokensOfAll_append, List.length_append] at hlength
  cases condition with
  | some k =>
    obtain ⟨b, inner⟩ := k
    simp only [ofOptionalCondition, ofCondition, bracketed, List.cons_append, tokensOfAll, tokens,
      List.length_cons] at hlength
    exact .inl (by omega)
  | none =>
    cases block with
    | some k =>
      obtain ⟨b, inner⟩ := k
      simp only [ofOptionalBraced, ofBraced, bracketed, List.cons_append, tokensOfAll, tokens,
        List.length_cons] at hlength
      exact .inl (by omega)
    | none => exact .inr rfl

theorem ends_elseIfs {n : Nat} (hn : c.upcoming.length < n) (hb : 4 * c.upcoming.length ≤ budget) :
    (elseIfs limit self depth n).Ends c fun es d => Flush c (ofElseIfs es) d := by
  induction n generalizing c with
  | zero => omega
  | succ n ih =>
    unfold elseIfs
    refine Ends.get_bind (Ends.sound fun hc => ?_)
    split
    next => exact Ends.pure (.refl c)
    next h =>
      have helseif : c.sees .kwElseif = true := by simpa using h
      refine (ends_bump_of_sees helseif (by decide)).bind fun token c₁ htoken => ?_
      have h₁ := htoken.2.length_succ
      refine (ends_branch hself (by omega)).bind fun branch c₂ hbranch => Ends.spanFrom_bind ?_
      have h₂ := hbranch.length_le
      refine (ih (by omega) (by omega)).bind fun rest d hrest => Ends.pure ?_
      have hfirst : Grown c (ofElseIf (.mk token branch (c₂.spanFrom token.span.start))) c₂ :=
        .ofToken hc htoken.2 hbranch rfl rfl (.of_true c₂) trivial
      exact .cons hfirst.flush hrest

theorem ends_otherwise (hb : 4 * c.upcoming.length ≤ budget) :
    (otherwise limit self depth).Ends c fun o d => Flush c (ofOptionalOtherwise o) d := by
  unfold otherwise
  refine Ends.get_bind (Ends.sound fun hc => ?_)
  split
  next => exact Ends.pure (.refl c)
  next h =>
    have helse : c.sees .kwElse = true := by simpa using h
    refine (ends_bump_of_sees helse (by decide)).bind fun token c₁ htoken => ?_
    have h₁ := htoken.2.length_succ
    refine (ends_requiredBlock hself (by omega)).bind fun block d hblock =>
      Ends.spanFrom_bind (Ends.pure ?_)
    have hother : Grown c (ofOtherwise (.mk token block (d.spanFrom token.span.start))) d :=
      .ofToken hc htoken.2 hblock.1 rfl rfl hblock.2 trivial
    exact hother.flush

theorem ends_conditional (h : c.sees .kwIf = true) (hb : 4 * c.upcoming.length ≤ budget) :
    (conditional limit self depth).Ends c fun s d => Grown c (ofStatement s) d := by
  unfold conditional
  refine Ends.sound fun hc => ?_
  refine (ends_bump_of_sees h (by decide)).bind fun token c₁ htoken => ?_
  have h₁ := htoken.2.length_succ
  refine (ends_branch hself (by omega)).bind fun first c₂ hfirst => Ends.get_bind ?_
  have h₂ := hfirst.length_le
  refine (ends_elseIfs hself (Nat.lt_succ_self _) (by omega)).bind fun others c₃ hothers => ?_
  have h₃ := hothers.length_le
  refine (ends_otherwise hself (by omega)).bind fun last d hlast =>
    Ends.spanFrom_bind (Ends.pure ?_)
  exact .ofToken hc htoken.2 ((Flush.cons hfirst hothers).append hlast) rfl rfl (.of_true d) trivial

theorem ends_whileLoop (h : c.sees .kwWhile = true) (hb : 4 * c.upcoming.length ≤ budget) :
    (whileLoop limit self depth).Ends c fun s d => Grown c (ofStatement s) d := by
  unfold whileLoop
  refine Ends.sound fun hc => ?_
  refine (ends_bump_of_sees h (by decide)).bind fun token c₁ htoken => ?_
  have h₁ := htoken.2.length_succ
  refine (ends_condition hself (by omega)).bind fun condition c₂ hcondition => ?_
  have h₂ := hcondition.1.length_le
  refine (ends_requiredBlock hself (by omega)).bind fun block d hblock =>
    Ends.spanFrom_bind (Ends.pure ?_)
  exact .ofToken hc htoken.2 (hcondition.1.append hblock.1) rfl rfl
    ((hcondition.2.1.along hblock.1).and hblock.2) trivial

theorem ends_forLoop (h : c.sees .kwFor = true) (hb : 4 * c.upcoming.length ≤ budget) :
    (forLoop self depth).Ends c fun s d => Grown c (ofStatement s) d := by
  unfold forLoop
  refine Ends.sound fun hc => ?_
  refine (ends_bump_of_sees h (by decide)).bind fun token c₁ htoken => ?_
  have h₁ := htoken.2.length_succ
  refine (ends_condition hself (by omega)).bind fun subject c₂ hsubject => Ends.get_bind ?_
  have h₂ := hsubject.1.length_le
  extract_lets withBody
  have hbody : ∀ body d, Flush c₂ (ofOptional body) d → Excused body.isSome d →
      (withBody body).Ends d fun s d => Grown c (ofStatement s) d := by
    intro body d hbody hthere
    refine Ends.spanFrom_bind (Ends.pure ?_)
    exact .ofToken hc htoken.2 (hsubject.1.append hbody) rfl rfl
      ((hsubject.2.1.along hbody).and hthere) trivial
  split
  next hstarts =>
    rw [Bool.and_eq_true] at hstarts
    refine (hself (.value depth) c₂ (by dsimp only [Nonterminal.slack]; omega)).bind
      fun r d hr => ?_
    refine hbody r d ?_ (hr.2 hstarts.1)
    rw [ofOptional_eq]
    exact hr.1.flush
  next =>
    refine (ends_reportHere _ _).bind fun _ d hd => Ends.pure_bind ?_
    exact hbody none d (.nothing hd.1) (.inr hd.2)

theorem ends_varStatement (h : c.seesAny [.identifier, .dollar] = true)
    (hb : 4 * c.upcoming.length ≤ budget) :
    (varStatement self depth).Ends c fun s d => Grown c (ofStatement s) d := by
  unfold varStatement
  refine Ends.sound fun hc => ?_
  refine Ends.get_bind ((ends_var hself h hb).bind fun target c₁ htarget => Ends.get_bind ?_)
  have h₁ := htarget.shorter
  split
  next hequal =>
    refine (ends_bump_of_sees hequal (by decide)).bind fun equals c₂ hequals => ?_
    have h₂ := hequals.2.length_succ
    extract_lets withValue
    have hvalue : ∀ d, Flush c₂ [] d →
        (withValue ()).Ends d fun s e => Grown c (ofStatement s) e := by
      intro d hd
      have h₃ := hd.length_le
      refine (ends_required hself (by omega)).bind fun value e hvalue =>
        Ends.spanFrom_bind (Ends.pure ?_)
      exact .ofGrown htarget (.consToken hequals.2 (hd.after hvalue.1)) rfl rfl hvalue.2.1 trivial
    split
    next =>
      obtain ⟨ts, hmoved⟩ := htarget.built.moved
      have hspan := congrArg Span.start htarget.span
      have hstart := hc.offset_le_offset (hmoved.trans hequals.2.toMoved)
      exact (ends_report (Nat.le_trans (Nat.le_of_eq hspan) hstart)).bind fun _ d hd =>
        hvalue d (.nothing hd.1)
    next => exact hvalue c₂ (.refl c₂)
  split
  next =>
    have hvar : Grown c (ofExpression (.var target)) c₁ := htarget
    refine (ends_operatorChain hself hvar (by omega)).bind fun e d he => Ends.pure ?_
    exact .ofGrown he (.refl d) ((span_ofExpression e).symm.trans he.span) rfl (.of_true d) trivial
  next => exact (ends_command hself hc htarget (by omega)).bind fun k d hk => Ends.pure hk

theorem ends_statement (hb : 4 * c.upcoming.length + 2 ≤ budget) :
    (statement limit self depth).Ends c fun r d => MayGrow ofStatement c r d := by
  unfold statement
  refine Ends.get_bind ?_
  have hmap : ∀ {p : Parse Statement}, (p.Ends c fun s d => Grown c (ofStatement s) d) →
      (some <$> p).Ends c fun r d => MayGrow ofStatement c r d := fun h =>
    Ends.map (h.imp fun _ _ _ hs => .some hs)
  split
  next h => exact hmap (ends_conditional hself (sees_of_kind h) (by omega))
  next h => exact hmap (ends_whileLoop hself (sees_of_kind h) (by omega))
  next h => exact hmap (ends_forLoop hself (sees_of_kind h) (by omega))
  next h =>
    exact (ends_call hself (sees_of_kind h) (by omega)).bind fun k d hk => Ends.pure (.some hk)
  next h => exact hmap (ends_varStatement hself (seesAny_of_kind h (by decide)) (by omega))
  next h => exact hmap (ends_varStatement hself (seesAny_of_kind h (by decide)) (by omega))
  next =>
    split
    next =>
      refine (hself (.expression depth 1) c hb).bind fun r d hr => Ends.pure ?_
      cases hr.1 with
      | none hnone => exact .none hnone
      | some hsome =>
        exact .some (.ofGrown hsome (.refl d) ((span_ofExpression _).symm.trans hsome.span) rfl
          (.of_true d) trivial)
    next => exact Ends.pure (.none (.refl c))

theorem ends_lastStatement (h : c.seesAny lastStart = true) (hb : 4 * c.upcoming.length ≤ budget) :
    (lastStatement self depth).Ends c fun l d =>
      Grown c (ofLast l) d ∧ (l.isReturn = false → d.found = c.found) := by
  unfold lastStatement
  refine Ends.sound fun hc => ?_
  refine (ends_bump_of_seesAny h (by decide)).quiet.bind fun token c₁ htoken => ?_
  obtain ⟨htoken, hquiet⟩ := htoken
  have h₁ := htoken.2.length_succ
  split
  next => exact Ends.pure ⟨.ofOneToken hc htoken.2 rfl rfl rfl trivial, fun _ => hquiet⟩
  next => exact Ends.pure ⟨.ofOneToken hc htoken.2 rfl rfl rfl trivial, fun _ => hquiet⟩
  refine Ends.get_bind ?_
  extract_lets withValues
  have hvalues : ∀ values d, Flush c₁ (ofItems values) d → Excused (Separated.isFull values) d →
      (withValues values).Ends d fun l d =>
        Grown c (ofLast l) d ∧ (l.isReturn = false → d.found = c.found) :=
    fun values d hvalues hfull => Ends.spanFrom_bind <| Ends.pure
      ⟨.ofToken hc htoken.2 hvalues rfl rfl hfull trivial, fun hleaves => by cases hleaves⟩
  split
  next => exact Ends.pure_bind (hvalues [] c₁ (.refl c₁) (.of_true c₁))
  next =>
    have helement : ∀ c, c.upcoming.length ≤ c₁.upcoming.length →
        (returned self depth).starts c = true →
        (returned self depth).element.Ends c fun r d => MayGrow ofExpression c r d :=
      fun c hlen _ =>
        (hself (.value depth) c (by dsimp only [Nonterminal.slack]; omega)).imp fun _ _ _ h => h.1
    refine (ends_read helement (Nat.le_refl _)).bind fun values d hd => ?_
    exact hvalues values d (ofItems_eq values ▸ hd.1) hd.2.1

/-! ## Blocks -/

omit hself in
/-- What fits nowhere is skipped, at least one token, and that is reported. -/
theorem ends_recover {stop : List TokenKind} {context : String} :
    (recover stop context).Ends c fun ss d => Built c (ofStatements ss) d ∧
      (c.upcoming ≠ [] → d.upcoming.length < c.upcoming.length) := by
  unfold recover
  refine Ends.sound fun hc => Ends.get_bind ((ends_skip _).bind fun node d hnode => ?_)
  obtain ⟨rfl, rfl, hnothing⟩ | ⟨t, ts, rfl, -, hmoved⟩ := hnode
  · exact Ends.pure ⟨.refl _, fun h => absurd hnothing h⟩
  · refine (ends_report (hc.offset_le_offset hmoved.toMoved)).bind fun _ e he => Ends.pure ?_
    have hskipped : Grown c (ofSkipped ⟨t :: ts, d.spanFrom c.offset⟩) e :=
      .ofSkipped hc (by simpa using hmoved.trans he.1) rfl
        (by rw [Cursor.spanFrom, Cursor.spanFrom, Cursor.lastStop, Cursor.lastStop, he.1.last_nil])
        (.inl he.2)
    exact ⟨hskipped.built, fun _ => hskipped.shorter⟩

theorem ends_someStatements {stop : List TokenKind} (hup : c.upcoming ≠ [])
    (hb : 4 * c.upcoming.length + 2 ≤ budget) :
    (someStatements limit self depth stop).Ends c fun ss d =>
      Built c (ofStatements ss) d ∧ d.upcoming.length < c.upcoming.length := by
  unfold someStatements
  refine Ends.sound fun hc => Ends.get_bind ?_
  split
  next hunknown =>
    refine (ends_skip _).bind fun node d hnode => Ends.pure ?_
    obtain ⟨rfl, rfl, hnothing⟩ | ⟨t, ts, rfl, rfl, hmoved⟩ := hnode
    · exact absurd hnothing hup
    · have hkind : c.token.kind = .unknown := by simpa [Cursor.sees, Cursor.kind] using hunknown
      have hskipped : Grown c (ofSkipped ⟨c.token :: ts, d.spanFrom c.offset⟩) d :=
        .ofSkipped hc hmoved rfl rfl (.inr hkind)
      exact ⟨hskipped.built, hskipped.shorter⟩
  refine (ends_statement hself hb).bind fun r d hr => ?_
  cases hr with
  | none hr =>
    have hlength := hr.length_le
    refine ends_recover.imp fun ss e _ hss => ⟨.after (.nothing hr) hss.1, ?_⟩
    have hrest := hss.1.length_le
    cases hd : d.upcoming with
    | nil =>
      have hpos := List.length_pos_iff.2 hup
      rw [hd, List.length_nil] at hrest
      omega
    | cons t rest =>
      have hskipped := hss.2 (by rw [hd]; exact List.cons_ne_nil t rest)
      omega
  | some hr =>
    have hshorter := hr.shorter
    refine Ends.get_bind ?_
    split
    next => exact Ends.pure ⟨hr.built, hshorter⟩
    next =>
      refine ends_recover.bind fun ss e hss => Ends.pure ⟨.cons hr.built hss.1, ?_⟩
      have hrest := hss.1.length_le
      omega

/-- The statements of a block and the one that leaves it; without that one, the block goes
on to where it is to stop. -/
theorem ends_statements {stop : List TokenKind} {before : Option Nat}
    (hbefore : ∀ offset ∈ before, offset < c.offset) {n : Nat} (hn : c.upcoming.length < n)
    (hb : 4 * c.upcoming.length + 2 ≤ budget) :
    (statements limit self depth stop before n).Ends c fun r d =>
      (∃ d', Built c (ofStatements r.1) d' ∧ MayGrow ofLast d' r.2 d ∧
        ∀ l ∈ r.2, l.isReturn = false → d.found = d'.found) ∧
        (r.2 = none → d.atEnd = true ∨ d.seesAny stop = true) := by
  induction n generalizing c before with
  | zero => omega
  | succ n ih =>
    unfold statements
    refine Ends.get_bind (Ends.sound fun hc => ?_)
    split
    next h => exact Ends.pure ⟨⟨c, .refl c, .none (.refl c), by simp⟩, fun _ => by simpa using h⟩
    next hend =>
    refine (ends_progressed hbefore).bind fun goes c₁ hgoes => ?_
    obtain ⟨rfl, rfl⟩ := hgoes
    rw [if_neg (by simp)]
    have hup : c₁.upcoming ≠ [] := fun hnil => hend (by simp [hc.atEnd_iff.2 hnil])
    have hforward : ∀ {os d}, Built c₁ os d → d.upcoming.length < c₁.upcoming.length →
        ∀ offset ∈ some c₁.offset, offset < d.offset := by
      rintro os d hbuilt hlt _ ⟨⟩
      exact hbuilt.offset_lt hc hlt
    split
    next hsemicolon =>
      refine (ends_bump_of_sees hsemicolon (by decide)).bind fun t c₂ ht => ?_
      have h₂ := ht.2.length_succ
      have hpassed : Built c₁ [] c₂ := .passed ht.2 fun u hu => List.mem_singleton.1 hu ▸ ht.1
      refine (ih (hforward hpassed (by omega)) (by omega) (by omega)).imp fun r d _ hr => ?_
      obtain ⟨⟨d', hbody, hlast⟩, hstop⟩ := hr
      exact ⟨⟨d', hpassed.after hbody, hlast⟩, hstop⟩
    split
    next hlast =>
      refine (ends_lastStatement hself hlast (by omega)).bind fun l d hl => Ends.pure ⟨?_, ?_⟩
      · refine ⟨c₁, .refl c₁, .some hl.1, ?_⟩
        rintro _ ⟨⟩
        exact hl.2
      · exact fun h => absurd h (Option.some_ne_none l)
    next =>
      refine (ends_someStatements hself hup hb).bind fun read c₂ hread => ?_
      have h₂ := hread.2
      refine (ih (hforward hread.1 h₂) (by omega) (by omega)).bind fun r d hr => Ends.pure ?_
      obtain ⟨⟨d', hbody, hlast⟩, hstop⟩ := hr
      refine ⟨⟨d', ?_, hlast⟩, hstop⟩
      rw [ofStatements_append]
      exact hread.1.append hbody

/-- A block is built, wherever it is said to end: at what was read last, or at the end of
the text. A block that only the end of the text stops leaves nothing behind. -/
theorem ends_block {stop : List TokenKind} {start : Nat}
    (hb : 4 * c.upcoming.length + 2 ≤ budget) :
    (block limit self depth stop start).Ends c fun b d => b.span = d.spanFrom start ∧
      (∀ span, d.BlockSpan c span → Built c [ofBlock (.mk b.body b.last span)] d) ∧
      (stop = [.endOfInput] → d.upcoming = []) := by
  unfold block
  refine Ends.get_bind ((ends_statements hself (fun _ h => absurd h (by simp))
    (Nat.lt_succ_self _) hb).bind fun r d hr => ?_)
  obtain ⟨body, last⟩ := r
  obtain ⟨⟨d', hbody, hlast, hquiet⟩, hstop⟩ := hr
  dsimp only
  cases hlast with
  | none hnothing =>
    refine Ends.sound fun hd => Ends.spanFrom_bind (Ends.pure ⟨rfl, fun span hspan => ?_, ?_⟩)
    · refine .block ?_ rfl hspan
      exact (hbody.before (.nothing hnothing)).append (.refl d)
    · rintro rfl
      refine hd.atEnd_iff.1 ((hstop rfl).elim id fun hany => ?_)
      simpa [Cursor.atEnd, Cursor.sees, Cursor.seesAny] using hany
  | some hsome =>
    rename_i l
    refine (ends_skipUnreachable stop).bind fun _ e he => Ends.spanFrom_bind (Ends.pure ?_)
    obtain ⟨⟨ts, hmoved, hreports⟩, hnothing⟩ := he
    refine ⟨rfl, fun span hspan => ?_, hnothing⟩
    have hl : l.span = d.spanFrom d'.offset := by
      cases l <;> exact hsome.span
    exact .left hbody hsome.built rfl ⟨hl, hsome.shorter, hquiet l rfl⟩ hmoved hreports hspan

end Rules

/-- **Every rule builds what it gives**, if it is served. -/
theorem Serves.rule (hself : Serves budget self) : Serves (budget + 1) (rule limit self) := by
  intro n c hb
  cases n with
  | operand depth argument =>
    exact ends_operand hself (by dsimp only [Nonterminal.slack] at hb; omega)
  | expression depth precedence =>
    exact ends_expression hself (by dsimp only [Nonterminal.slack] at hb; omega)
  | value depth => exact ends_value hself (by dsimp only [Nonterminal.slack] at hb; omega)
  | block depth stop start =>
    refine (ends_block hself (by dsimp only [Nonterminal.slack] at hb; omega)).imp
      fun b d _ h hstart => ?_
    obtain ⟨hspan, hbuilt, -⟩ := h
    rw [hstart] at hspan
    cases b
    exact hbuilt _ (.inl hspan)

theorem serves_read (limit budget : Nat) : Serves budget (read limit budget) := by
  induction budget with
  | zero =>
    intro n c hb
    cases n <;> simp [Nonterminal.slack] at hb
  | succ budget ih => exact ih.rule

/-- The whole text is read, and built into one block. -/
theorem ends_source (hstart : c.lastStop = 0) : (source limit).Ends c fun b d =>
    Built c [ofBlock b] d ∧ d.upcoming = [] := by
  unfold source
  refine Ends.get_bind ?_
  have hbudget : budgetFor c.upcoming.length = 4 * c.upcoming.length + 7 + 1 := by
    rw [budgetFor]
    omega
  unfold readHere
  refine Ends.bind (Q := fun b d =>
    Built c [ofBlock (.mk b.body b.last ⟨0, c.ending.span.stop⟩)] d ∧ d.upcoming = [])
    (Ends.get_bind ?_) fun b d hd => Ends.pure hd
  rw [hbudget]
  refine (ends_block (serves_read limit _) (by omega)).imp fun b d _ h => ?_
  obtain ⟨-, hbuilt, hnothing⟩ := h
  exact ⟨hbuilt _ (.inr ⟨hstart, hnothing rfl, rfl⟩), hnothing rfl⟩

end Grammar

/-- **The tree of a text is built of all its tokens**, and whatever was found on the way
is among its issues. -/
theorem exists_built_of_parse {text : String} {limit : Nat} {b : Block}
    (h : (parse text limit).block = some b) :
    ∃ d, Built (Cursor.ofTokens (Token.tokenize text)) [ofBlock b] d ∧ d.upcoming = [] ∧
      (parse text limit).issues = Issue.sort (Token.issues (Token.tokenize text) ++ d.issues) := by
  unfold parse at h ⊢
  dsimp only at h ⊢
  split at h
  · cases h
  next hup =>
    obtain ⟨-, -, -, -, -, -, hsound⟩ := Cursor.ofTokens_tokenize text
    have hread : (Grammar.source limit).Ends (Cursor.ofTokens (Token.tokenize text)) _ :=
      Grammar.ends_source rfl
    obtain ⟨-, hbuilt, hnothing⟩ := hread hsound
    rw [if_neg hup]
    cases h
    exact ⟨_, hbuilt, hnothing, rfl⟩

end CommandScript
