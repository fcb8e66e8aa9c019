import CommandScript.Proofs.Abreast
/-!
# CommandScript — statements and blocks side by side

Statements and blocks are read in lockstep like expressions are. A block may end with its
text, and so where the right text goes on, a block is only as good as the brace that closes
it (`View.Lockstep` where something is open). At the end the rules are put together: the
parser reads two texts in lockstep (`View.alike_read`).
-/

namespace CommandScript

-- A rule is a long term, and the search for what it keeps goes through all of it.
set_option synthInstance.maxSize 2000

variable {α β : Type} {c c' d d' : Cursor}

namespace Grammar

open Parse

variable (limit : Nat) (self : (n : Nonterminal) → Parse n.Result) (depth : Nat) (stop : List TokenKind)

/-- The statements of a block, and past what stands behind the one that leaves it. -/
def wholly (before : Option Nat) (n : Nat) : Parse (List Statement × Option LastStatement) := do
  let r ← statements limit self depth stop before n
  if r.2.isSome then Parse.skipUnreachable stop
  return r

instance [Forward self] (before : Option Nat) (n : Nat) :
    Moves (wholly limit self depth stop before n) := by
  unfold wholly
  infer_instance

theorem block_eq (start : Nat) : block limit self depth stop start = (do
    let r ← wholly limit self depth stop none ((← get).upcoming.length + 1)
    return .mk r.1 r.2 (← Parse.spanFrom start)) := by
  funext c
  simp only [block, wholly, bind, StateT.bind, get, getThe, MonadStateOf.get, StateT.get, pure]
  generalize statements limit self depth stop none (c.upcoming.length + 1) c = r
  obtain ⟨⟨ss, last⟩, d⟩ := r
  cases last <;> rfl

end Grammar

namespace View

open Grammar Parse

variable {V : View} {opened : Prop}

namespace Lockstep

variable {limit depth : Nat} {self self' : (n : Nonterminal) → Parse n.Result} [Forward self]
  (hself : V.Alike self self')
include hself

theorem requiredBlock {behind behind' : Option Token} :
    V.Lockstep opened (requiredBlock limit self depth behind) (requiredBlock limit self' depth behind')
      c c' fun b b' _ => V.left.optionalBraced b = V.right.optionalBraced b' := by
  unfold Grammar.requiredBlock
  by_cases hin : V.Inside c
  · refine .get_bind fun hal => .ite (by rw [hal.sees_eq hin]) (fun hbrace => ?_) fun _ => ?_
    · refine .bind (.braced hself (eq_of_beq hbrace)) fun b b' _ _ _ _ hb => .pure fun _ => ?_
      exact congrArg some hb.1
    · exact .bind .reportHere fun _ _ _ _ _ _ _ => .pure fun _ => rfl
  · refine .along fun hal => .of_not_inside hin ?_
    change Parse.Tells (if c.sees .leftBrace = true then _ else _) c
    rw [hal.sees_of_nil (upcoming_of_not_inside hin) (by decide), if_neg (by decide)]
    exact .bind (tells_reportHere _ _ _)

theorem condition :
    V.Lockstep opened (condition self depth) (condition self' depth) c c' fun k k' _ =>
      V.left.optionalCondition k = V.right.optionalCondition k' ∧ (V.exact ∨ c.upcoming ≠ []) := by
  unfold Grammar.condition
  by_cases hin : V.Inside c
  · refine .get_bind fun hal => ?_
    rw [hal.sees_eq hin]
    cases hsees : c.sees .leftParen with
    | false => exact .bind .reportHere fun _ _ _ _ _ _ he => .pure fun _ => ⟨rfl, .inl he⟩
    | true =>
      have hk : c.kind = .leftParen := eq_of_beq hsees
      refine .bump_bind (by rw [hk]; decide) (.inr (by rw [hk]; decide)) fun t t' d d' hreads => ?_
      refine .enclosed hself (by decide) (by decide) fun i i' r r' e e' _ hi hr => .pure fun _ =>
        ⟨?_, .inr (hal.upcoming_ne_nil (by rw [hk]; decide))⟩
      simp only [Relocation.optionalCondition, Relocation.condition, Relocation.brackets,
        hreads.same.token, hi, hr]
  · refine .along fun hal => .of_not_inside hin ?_
    change Parse.Tells (if (!c.sees .leftParen) = true then _ else _) c
    rw [hal.sees_of_nil (upcoming_of_not_inside hin) (by decide), if_pos (by decide)]
    exact .bind (tells_reportHere _ _ _)

theorem branch :
    V.Lockstep opened (branch limit self depth) (branch limit self' depth) c c' fun b b' _ =>
      V.left.branch b = V.right.branch b' := by
  refine .get_bind fun hal => .bind (.condition hself) fun k k' d d' _ _ hk => ?_
  refine .bind (.requiredBlock hself) fun b b' _ _ _ _ hb => ?_
  refine .spanFrom_bind (V.place_of_start (hal.offsets hk.2)) fun s s' _ _ hs => .pure fun _ => ?_
  rw [Relocation.branch, Relocation.branch, hk.1, hb, hs]

theorem elseIfs {n n' : Nat} (hn : n ≤ n') (hexact : V.exact → n = n') :
    V.Lockstep opened (elseIfs limit self depth n) (elseIfs limit self' depth n') c c' fun bs bs' _ =>
      V.left.elseIfs bs = V.right.elseIfs bs' := by
  induction n generalizing n' c c' with
  | zero => exact .of_stall (fun he => (hexact he).symm) rfl fun _ _ _ => rfl
  | succ n ih =>
    obtain ⟨n', rfl⟩ : ∃ m, n' = m + 1 := ⟨n' - 1, by omega⟩
    unfold Grammar.elseIfs
    refine .get_bind fun hal => ?_
    rw [hal.sees_eq_of_notMem (by decide)]
    cases hsees : c.sees .kwElseif with
    | false => exact .pure fun _ => rfl
    | true =>
      have hk : c.kind = .kwElseif := eq_of_beq hsees
      refine .bump_bind (by rw [hk]; decide) (.inr (by rw [hk]; decide)) fun t t' d d' hreads => ?_
      refine .bind (.branch hself) fun b b' _ _ _ _ hb => ?_
      refine .spanFrom_bind hreads.same.place_start fun s s' _ _ hs => ?_
      refine .bind (ih (by omega) fun he => by have := hexact he; omega) fun bs bs' _ _ _ _ hbs =>
        .pure fun _ => ?_
      simp only [Relocation.elseIfs, Relocation.elseIf, hreads.same.token, hb, hs, hbs]

theorem otherwise :
    V.Lockstep opened (otherwise limit self depth) (otherwise limit self' depth) c c' fun o o' _ =>
      V.left.optionalOtherwise o = V.right.optionalOtherwise o' := by
  unfold Grammar.otherwise
  refine .get_bind fun hal => ?_
  rw [hal.sees_eq_of_notMem (by decide)]
  cases hsees : c.sees .kwElse with
  | false => exact .pure fun _ => rfl
  | true =>
    have hk : c.kind = .kwElse := eq_of_beq hsees
    refine .bump_bind (by rw [hk]; decide) (.inr (by rw [hk]; decide)) fun t t' d d' hreads => ?_
    refine .bind (.requiredBlock hself) fun b b' _ _ _ _ hb => ?_
    refine .spanFrom_bind hreads.same.place_start fun s s' _ _ hs => .pure fun _ => ?_
    simp only [Relocation.optionalOtherwise, Relocation.otherwise, hreads.same.token, hb, hs]

theorem conditional (hk : c.kind = .kwIf) :
    V.Lockstep opened (conditional limit self depth) (conditional limit self' depth) c c' fun s s' d =>
      V.left.statement s = V.right.statement s' ∧ V.Began d := by
  unfold Grammar.conditional
  refine .bump_bind (by rw [hk]; decide) (.inr (by rw [hk]; decide)) fun t t' d d' hreads => ?_
  refine .begun hreads.began (.bind (.branch hself) fun b b' _ _ _ _ hb => .get_bind fun hal => ?_)
  refine .bind (.elseIfs hself (Nat.succ_le_succ hal.length_le)
    fun he => congrArg Nat.succ (hal.length_eq he)) fun bs bs' _ _ _ _ hbs => ?_
  refine .bind (.otherwise hself) fun o o' _ _ _ _ ho => ?_
  refine .spanFrom_bind hreads.same.place_start fun s s' _ _ hs => .pure fun _ => ?_
  simp only [Relocation.statement, hreads.same.token, hb, hbs, ho, hs]

theorem whileLoop (hk : c.kind = .kwWhile) :
    V.Lockstep opened (whileLoop limit self depth) (whileLoop limit self' depth) c c' fun s s' d =>
      V.left.statement s = V.right.statement s' ∧ V.Began d := by
  unfold Grammar.whileLoop
  refine .bump_bind (by rw [hk]; decide) (.inr (by rw [hk]; decide)) fun t t' d d' hreads => ?_
  refine .begun hreads.began (.bind (.condition hself) fun k k' _ _ _ _ hcondition => ?_)
  refine .bind (.requiredBlock hself) fun b b' _ _ _ _ hb => ?_
  refine .spanFrom_bind hreads.same.place_start fun s s' _ _ hs => .pure fun _ => ?_
  simp only [Relocation.statement, hreads.same.token, hcondition.1, hb, hs]

theorem forLoop (hk : c.kind = .kwFor) :
    V.Lockstep opened (forLoop self depth) (forLoop self' depth) c c' fun s s' d =>
      V.left.statement s = V.right.statement s' ∧ V.Began d := by
  unfold Grammar.forLoop
  dsimp only
  refine .bump_bind (by rw [hk]; decide) (.inr (by rw [hk]; decide)) fun t t' d d' hreads => ?_
  refine .begun hreads.began (.bind (.condition hself) fun k k' e e' _ hon hcondition => ?_)
  have hbegan := hreads.began.onward hon
  have hrest : ∀ b b' f f', V.left.optional b = V.right.optional b' → V.Lockstep opened
      (do return Statement.forLoop t k b (← Parse.spanFrom t.span.start))
      (do return Statement.forLoop t' k' b' (← Parse.spanFrom t'.span.start)) f f' fun s s' _ =>
        V.left.statement s = V.right.statement s' := fun b b' f f' hb => by
    refine .spanFrom_bind hreads.same.place_start fun s s' _ _ hs => .pure fun _ => ?_
    simp only [Relocation.statement, hreads.same.token, hcondition.1, hb, hs]
  by_cases hin : V.Inside e
  · have hstarts : V.Along e e' → (e'.seesAny expressionStart && !e'.onNewLine) =
        (e.seesAny expressionStart && !e.onNewLine) := fun hal =>
      have hlists : V.Lists (Grammar.returned self depth) (Grammar.returned self' depth) _ :=
        Lockstep.returned hself
      hlists.starts hal hin hbegan
    refine .get_bind fun hal => .ite (by rw [hstarts hal]) (fun _ => ?_) fun _ => ?_
    · exact .bind (hself.value hin).weaken fun b b' f f' _ _ hb => hrest b b' f f' hb.same
    · exact .bind .reportHere fun _ _ f f' _ _ _ => hrest none none f f' rfl
  · refine .along fun hal => .of_not_inside hin ?_
    change Parse.Tells (if (e.seesAny expressionStart && !e.onNewLine) = true then _ else _) e
    have hnone : expressionStart.contains .endOfInput = false := by decide
    rw [Cursor.seesAny, hal.kind_of_nil (upcoming_of_not_inside hin), hnone, Bool.false_and,
      if_neg Bool.false_ne_true]
    exact .bind (tells_reportHere _ _ _)

/-- A minus that ends the left text is an argument of the command before it. -/
theorem lost_command {t : Token} {callee : Var} (hal : V.Along c c') (he : ¬ V.exact)
    (hoperator : seesOperator c = true) (hnegative : seesNegative c = true) (ht : c.upcoming = [t]) :
    V.Lost opened (Grammar.command self depth callee c).2 := by
  have hminus : c.sees .minus = true := by
    simp only [seesNegative, Bool.and_eq_true] at hnegative
    exact hnegative.1.1
  have hk : c.kind = .minus := eq_of_beq hminus
  have hline : c.onNewLine = false := by
    simpa [seesOperator, hk, TokenKind.precedence?] using hoperator
  have hends : endsArguments c = false := by
    rw [endsArguments, endsStatement, hline, Cursor.seesAny, hk, hminus, hnegative]
    decide
  unfold Grammar.command
  change V.Lost opened ((do
    let args ← Grammar.arguments self depth none (c.upcoming.length + 1)
    return .mk callee args (← Parse.spanFrom callee.span.start) : Parse Command) c).2
  refine lost_bind (lost_arguments hself hal he hends ht ?_)
  rw [← hk, Cursor.kind, Cursor.token, ht]
  rfl

theorem varStatement (hk : c.kind = .identifier ∨ c.kind = .dollar) :
    V.Lockstep opened (varStatement self depth) (varStatement self' depth) c c' fun s s' d =>
      V.left.statement s = V.right.statement s' ∧ V.Began d := by
  unfold Grammar.varStatement
  refine .get_bind fun hal => ?_
  have hne : c.upcoming ≠ [] :=
    hal.upcoming_ne_nil (by obtain hk | hk := hk <;> rw [hk] <;> decide)
  have hplace := V.place_of_start (hal.offsets (.inr hne))
  refine .bind (m := fun v => ?_) (.var hself hk) fun v v' d d' _ _ hv => ?_
  · dsimp only
    refine @Moves.bind _ _ _ _ _ fun c => ?_
    split
    · refine @Moves.bind _ _ _ _ _ fun equals => ?_
      split <;> infer_instance
    · infer_instance
  obtain ⟨hvar, hstart, hbegan⟩ := hv
  refine .get_bind fun hal => ?_
  rw [hal.sees_eq_of_notMem (by decide)]
  cases hsees : d.sees .equal with
  | true =>
    have hk : d.kind = .equal := eq_of_beq hsees
    refine .bump_bind (by rw [hk]; decide) (.inr (by rw [hk]; decide)) fun t t' e e' hreads => ?_
    have hrest : ∀ f f', V.Began f → V.Lockstep opened
        (do
          let value ← Grammar.required self depth ("Expected a value after `" ++ t.text ++ "`")
          return Statement.assign v t value (← Parse.spanFrom c.offset))
        (do
          let value ← Grammar.required self' depth ("Expected a value after `" ++ t'.text ++ "`")
          return Statement.assign v' t' value (← Parse.spanFrom c'.offset)) f f' fun s s' d =>
        V.left.statement s = V.right.statement s' ∧ V.Began d := fun f f' hf => by
      refine .begun hf (.bind (.required hself) fun a a' _ _ _ _ ha => ?_)
      refine .spanFrom_bind hplace fun s s' _ _ hs => .pure fun _ => ?_
      rw [Relocation.statement, Relocation.statement, hvar, hreads.same.token, ha, hs]
    have hassign := hrest e e' hreads.began
    obtain ⟨root, ss, span⟩ := v
    obtain ⟨root', ss', span'⟩ := v'
    have hparts := hvar
    rw [Relocation.var, Relocation.var] at hparts
    injection hparts with hroot hsuffixes hspan
    have hreported : V.Lockstep opened (Parse.report (.of .invalidAssignment span))
      (Parse.report (.of .invalidAssignment span')) e e' _ := .report rfl fun _ _ => hstart
    have hreport := hreported.bind fun _ _ f f' _ hon _ => hrest f f' (hreads.began.onward hon)
    cases root <;> cases root' <;> first
      | cases hroot
      | (cases ss <;> cases ss' <;> first
          | (cases hsuffixes; done)
          | exact hassign
          | exact hreport)
  | false =>
    have hchain : V.Lockstep opened
        (do return Statement.expression (← Grammar.operatorChain self depth 1 (.var v)))
        (do return Statement.expression (← Grammar.operatorChain self' depth 1 (.var v'))) d d'
        fun s s' d => V.left.statement s = V.right.statement s' ∧ V.Began d :=
      .begun hbegan <|
        .bind (.operatorChain hself hbegan (by rw [Relocation.expression, Relocation.expression, hvar]))
        fun e e' _ _ _ _ he => .pure fun _ => by rw [Relocation.statement, Relocation.statement, he.1]
    have hcommand : V.Lockstep opened
        (do return Statement.command (← Grammar.command self depth v))
        (do return Statement.command (← Grammar.command self' depth v')) d d'
        fun s s' d => V.left.statement s = V.right.statement s' ∧ V.Began d :=
      .begun hbegan <| .bind (.command hself hvar hstart hbegan)
        fun e e' _ _ _ _ he => .pure fun _ => by rw [Relocation.statement, Relocation.statement, he]
    refine .ite Iff.rfl (fun h => absurd h Bool.false_ne_true) fun _ => ?_
    rw [hal.seesOperator_eq hbegan]
    cases hoperator : seesOperator d with
    | false => exact hcommand
    | true =>
      have hdne : d.upcoming ≠ [] := fun hnil => by
        simp [seesOperator, hal.kind_of_nil hnil, TokenKind.precedence?] at hoperator
      obtain hsame | ⟨he, hnegative, t, ht⟩ := hal.seesNegative_eq hbegan hdne
      · rw [hsame]
        exact .ite Iff.rfl (fun _ => hchain) fun _ => hcommand
      · rw [hnegative]
        exact fun hal => .inl (lost_bind (lost_command hself hal he hoperator hnegative ht))

theorem statement (hne : c.upcoming ≠ []) :
    V.Lockstep opened (statement limit self depth) (statement limit self' depth) c c' fun r r' d =>
      r.map V.left.statement = r'.map V.right.statement ∧ (r.isSome = true → V.Began d) ∧
        (r = none → V.exact ∨ d.upcoming = c.upcoming) := by
  have hin : V.Inside c := .inr hne
  have hsome : ∀ {p p' : Parse Statement},
      V.Lockstep opened p p' c c' (fun s s' d => V.left.statement s = V.right.statement s' ∧ V.Began d) →
      V.Lockstep opened (some <$> p) (some <$> p') c c' fun r r' d =>
        r.map V.left.statement = r'.map V.right.statement ∧ (r.isSome = true → V.Began d) ∧
          (r = none → V.exact ∨ d.upcoming = c.upcoming) := fun h =>
    .map (h.imp fun s s' d hs => ⟨congrArg some hs.1, fun _ => hs.2, (fun h => by cases h)⟩)
  refine .get_bind fun hal => ?_
  rw [hal.kind_eq hin]
  split
  next hk => exact hsome (.conditional hself hk)
  next hk => exact hsome (.whileLoop hself hk)
  next hk => exact hsome (.forLoop hself hk)
  next hk =>
    exact .bind (.call hself hk) fun k k' d d' _ _ h => .pure fun _ =>
      ⟨congrArg (fun k => some (Statement.call k)) h.1, fun _ => h.2, (fun h => by cases h)⟩
  next hk => exact hsome (.varStatement hself (.inl hk))
  next hk => exact hsome (.varStatement hself (.inr hk))
  next =>
    refine .ite (by rw [hal.seesAny_eq hin]) (fun _ => ?_) fun _ =>
      .pure fun _ => ⟨rfl, (fun h => by cases h), fun _ => .inr rfl⟩
    refine .bind (hself.expression hin).weaken fun r r' d d' _ _ hr => .pure fun _ => ?_
    have habsent := hr.absent
    have hbegan := hr.began
    obtain ⟨rfl, rfl⟩ | ⟨e, e', rfl, rfl, he⟩ := optional_cases hr.same
    · exact ⟨rfl, (fun h => by cases h), fun _ => habsent rfl⟩
    · exact ⟨congrArg (fun e => some (Statement.expression e)) he, fun _ => hbegan rfl, (fun h => by cases h)⟩

theorem lastStatement (hk : c.kind ∈ lastStart) :
    V.Lockstep True (lastStatement self depth) (lastStatement self' depth) c c' fun l l' _ =>
      V.left.last l = V.right.last l' := by
  have hkinds : c.kind ≠ .endOfInput ∧ c.kind ∉ squares := by
    simp only [lastStart, List.mem_cons, List.not_mem_nil, or_false] at hk
    obtain hk | hk | hk := hk <;> rw [hk] <;> decide
  unfold Grammar.lastStatement
  refine .bump_bind hkinds.1 (.inr hkinds.2) fun t t' d d' hreads => ?_
  rw [← hreads.same.kind]
  split
  next => exact .pure fun _ => congrArg LastStatement.break hreads.same.token
  next => exact .pure fun _ => congrArg LastStatement.continue hreads.same.token
  next =>
    dsimp only
    have hrest : ∀ is is' e e', is.map V.left.item = is'.map V.right.item → V.Lockstep True
        (do return LastStatement.return t is (← Parse.spanFrom t.span.start))
        (do return LastStatement.return t' is' (← Parse.spanFrom t'.span.start)) e e' fun l l' _ =>
          V.left.last l = V.right.last l' := fun is is' e e' his => by
      refine .spanFrom_bind hreads.same.place_start fun s s' _ _ hs => .pure fun _ => ?_
      simp only [Relocation.last, hreads.same.token, Relocation.items_eq_map, his, hs]
    refine .get_bind fun hal => .ite (by rw [hal.endsStatement_eq hreads.began])
      (fun _ => hrest [] [] d d' rfl) fun _ => ?_
    refine .bind (.read V.left.item V.right.item (Lockstep.returned hself) (fun v v' t t' s s' hv ht hs => ?_)
      hreads.began) fun is is' e e' _ _ his => hrest is is' e e' his
    simp only [Relocation.item, hv, ht, hs]

omit [Forward self] hself in
/-- What is skipped in place of a statement is reported. -/
theorem tells_recover {stop : List TokenKind} {context : String} (hend : c.kind ≠ .endOfInput) :
    (Grammar.recover stop context).Tells c := by
  obtain ⟨node, hnode⟩ := Option.isSome_iff_exists.1 (isSome_skip (r := ⟨.semicolon :: stop, true⟩) hend)
  exact .get_bind (tells_of_eq hnode (.bind (tells_report _ _)))

omit [Forward self] hself in
theorem recover {stop : List TokenKind} {context : String} (hat : V.exact ∨ c.upcoming ≠ []) :
    V.Lockstep opened (recover stop context) (recover stop context) c c' fun ss ss' _ =>
      V.left.statements ss = V.right.statements ss' := by
  unfold Grammar.recover
  by_cases he : V.exact
  · refine .get_bind fun _ => .bind (m := fun r => by cases r <;> infer_instance) (.skip he _)
      fun k k' d d' _ _ hk => ?_
    obtain ⟨hsame, hstart⟩ := hk
    cases k <;> cases k' <;> first | exact .pure fun _ => rfl | cases hsame | skip
    refine .bind (.report rfl fun _ _ => hstart _ rfl _ rfl) fun _ _ _ _ _ _ _ => .pure fun _ => ?_
    exact congrArg (fun k => [Statement.skipped k]) (Option.some.inj hsame)
  · refine .along fun hal => .of_tells ?_ fun h => absurd h he
    exact tells_recover (hal.kind_ne_endOfInput (hat.resolve_left he))

theorem someStatements {stop : List TokenKind} (hne : c.upcoming ≠ []) :
    V.Lockstep opened (someStatements limit self depth stop) (someStatements limit self' depth stop)
      c c' fun ss ss' _ => V.left.statements ss = V.right.statements ss' := by
  unfold Grammar.someStatements
  refine .get_bind fun hal => .ite (by rw [hal.sees_eq (.inr hne)]) (fun hunknown => ?_) fun _ => ?_
  · have he : V.exact := by
      obtain ⟨hnil, -⟩ | ⟨t, t', us, us', hup, -, -, -, -, hknown, -⟩ := hal.cases
      · exact absurd hnil hne
      · refine hknown.resolve_right fun hk => hk ?_
        have hkind : c.kind = .unknown := eq_of_beq hunknown
        rw [Cursor.kind, Cursor.token, hup] at hkind
        exact hkind
    refine .bind (.skip he _) fun k k' _ _ _ _ hk => .pure fun _ => ?_
    have hsame := hk.1
    cases k <;> cases k' <;> first | rfl | cases hsame | skip
    exact congrArg (fun k => [Statement.skipped k]) (Option.some.inj hsame)
  refine .bind (m := fun r => by cases r <;> infer_instance) (.statement hself hne)
    fun r r' d d' _ _ hr => ?_
  obtain ⟨hsame, hbegan, habsent⟩ := hr
  cases r <;> cases r' <;> first | cases hsame | skip
  · exact .recover ((habsent rfl).imp_right fun (hup : d.upcoming = c.upcoming) => hup ▸ hne)
  next s s' =>
    replace hsame : V.left.statement s = V.right.statement s' := Option.some.inj hsame
    have hcompound : s'.isCompound = s.isCompound := by
      rw [← V.right.isCompound_statement, ← hsame, V.left.isCompound_statement]
    have hone {ss ss' : List Statement} (h : V.left.statements ss = V.right.statements ss') :
        V.left.statements (s :: ss) = V.right.statements (s' :: ss') := by
      rw [Relocation.statements, Relocation.statements, hsame, h]
    refine .get_bind fun hal => .ite (by
      rw [hal.endsStatement_eq (hbegan rfl), hal.endsWithBrace_eq (hbegan rfl) hcompound])
      (fun _ => .pure fun _ => hone rfl) fun hgo => ?_
    have hdne : d.upcoming ≠ [] := fun hnil => hgo (by
      simp [endsStatement, Cursor.seesAny, hal.kind_of_nil hnil, statementEnd])
    exact .bind (.recover (.inr hdne)) fun ss ss' _ _ _ _ hss => .pure fun _ => hone hss

theorem statements {stop : List TokenKind} {before before' : Option Nat} {n n' : Nat}
    (hbefore : Option.Rel V.start before before') (hn : n ≤ n') (hexact : V.exact → n = n') :
    V.Lockstep True (statements limit self depth stop before n)
      (statements limit self' depth stop before' n') c c' fun r r' _ =>
        V.left.statements r.1 = V.right.statements r'.1 ∧
          V.left.optionalLast r.2 = V.right.optionalLast r'.2 := by
  induction n generalizing before before' n' c c' with
  | zero => exact .of_stall (fun he => (hexact he).symm) rfl fun _ _ _ => ⟨rfl, rfl⟩
  | succ n ih =>
    obtain ⟨n', rfl⟩ : ∃ m, n' = m + 1 := ⟨n' - 1, by omega⟩
    refine .of_inside fun hin => ?_
    unfold Grammar.statements
    refine .get_bind fun hal => .ite (by rw [hal.atEnd_eq hin, hal.seesAny_eq hin])
      (fun _ => .pure fun _ => ⟨rfl, rfl⟩) fun hend => ?_
    have hne : c.upcoming ≠ [] := fun hnil => hend (by
      simp [Cursor.atEnd, Cursor.sees, hal.kind_of_nil hnil])
    have hrest : ∀ d d', V.Lockstep True (Grammar.statements limit self depth stop (some c.offset) n)
        (Grammar.statements limit self' depth stop (some c'.offset) n') d d' fun r r' _ =>
          V.left.statements r.1 = V.right.statements r'.1 ∧
            V.left.optionalLast r.2 = V.right.optionalLast r'.2 := fun d d' =>
      ih (.some (hal.offsets (.inr hne))) (by omega) fun he => by have := hexact he; omega
    refine .bind (.progressed (.inr hne) hbefore) fun goes _ d d' hal' _ hgoes => ?_
    obtain ⟨rfl, hup⟩ := hgoes
    refine .ite Iff.rfl (fun _ => .pure fun _ => ⟨rfl, rfl⟩) fun _ => ?_
    have hkind : d.kind = c.kind := by
      rw [Cursor.kind, Cursor.kind, Cursor.token, Cursor.token, hup, hal'.leftEnd, hal.leftEnd]
    refine .ite (by rw [hal.sees_eq hin]) (fun hsees => ?_) fun _ => ?_
    · have hk : d.kind = .semicolon := hkind.trans (eq_of_beq hsees)
      exact .bump_bind (by rw [hk]; decide) (.inr (by rw [hk]; decide)) fun _ _ e e' _ => hrest e e'
    refine .ite (by rw [hal.seesAny_eq hin]) (fun hlast => ?_) fun _ => ?_
    · have hk : d.kind ∈ lastStart := hkind ▸ List.contains_iff_mem.1 hlast
      exact .bind (.lastStatement hself hk) fun l l' _ _ _ _ hl => .pure fun _ => ⟨rfl, congrArg some hl⟩
    · refine .bind (.someStatements hself (hup ▸ hne)) fun ss ss' e e' _ _ hss => ?_
      refine .bind (hrest e e') fun r r' _ _ _ _ hr => .pure fun _ => ⟨?_, hr.2⟩
      simp only [Relocation.statements_append, hss, hr.1]

/-- The statements of a block are read in lockstep, and past what stands behind them. -/
theorem wholly {stop : List TokenKind} {n n' : Nat} (hn : n ≤ n') (hexact : V.exact → n = n') :
    V.Lockstep True (wholly limit self depth stop none n) (wholly limit self' depth stop none n') c c'
      fun r r' _ => V.left.statements r.1 = V.right.statements r'.1 ∧
        V.left.optionalLast r.2 = V.right.optionalLast r'.2 := by
  unfold Grammar.wholly
  refine .bind (.statements hself .none hn hexact) fun r r' d d' _ _ hr => ?_
  have hsome : r'.2.isSome = r.2.isSome := by
    have hlast := hr.2
    cases hleft : r.2 <;> cases hright : r'.2 <;> rw [hleft, hright] at hlast <;>
      first | rfl | cases hlast
  refine .ite (by rw [hsome]) (fun _ => ?_) fun _ => .pure fun _ => hr
  exact .bind (.skipUnreachable stop) fun _ _ _ _ _ _ _ => .pure fun _ => hr

theorem block {stop : List TokenKind} {start start' : Nat} (hstart : V.place start start') :
    V.Lockstep True (block limit self depth stop start) (block limit self' depth stop start') c c'
      fun b b' _ => V.left.block b = V.right.block b' := by
  rw [block_eq, block_eq]
  refine .get_bind fun hal => .bind (.wholly hself (Nat.succ_le_succ hal.length_le)
    fun he => congrArg Nat.succ (hal.length_eq he)) fun r r' d d' _ _ hr => ?_
  refine .spanFrom_bind hstart fun s s' _ _ hs => .pure fun _ => ?_
  rw [Relocation.block, Relocation.block, hr.1, hr.2, hs]

end Lockstep

/-! ## The rules together -/

section Ends

variable {limit depth : Nat} {self self' : (n : Nonterminal) → Parse n.Result}

theorem kind_of_nil (hnil : c.upcoming = []) (hend : c.ending.kind = .endOfInput) :
    c.kind = .endOfInput := by
  rw [Cursor.kind, Cursor.token, hnil]
  exact hend

theorem tooDeep_of_nil (hnil : c.upcoming = []) (hend : c.ending.kind = .endOfInput) :
    (tooDeep c).1 = none := by
  have hreport : (Parse.reportTooDeep c).2.upcoming = c.upcoming ∧
      (Parse.reportTooDeep c).2.ending = c.ending := by
    simp only [Parse.reportTooDeep, modify, modifyGet, MonadStateOf.modifyGet, StateT.modifyGet]
    split <;> exact ⟨rfl, rfl⟩
  have hatEnd : (Parse.reportTooDeep c).2.atEnd = true := by
    rw [Cursor.atEnd, Cursor.sees, kind_of_nil (hreport.1.trans hnil) (hreport.2 ▸ hend)]
    rfl
  change ((if (Parse.reportTooDeep c).2.atEnd = true then _ else _ : Parse (Option Skipped))
    (Parse.reportTooDeep c).2).1 = none
  rw [if_pos hatEnd]
  rfl

/-- At the end of a text there is no operand. -/
theorem operand_of_nil {argument : Bool} (hnil : c.upcoming = []) (hend : c.ending.kind = .endOfInput) :
    (operand limit self depth argument c).1 = none := by
  unfold operand
  split
  next =>
    change ((tooDeep c).1.map Expression.skipped) = none
    rw [tooDeep_of_nil hnil hend]
    rfl
  next =>
    have hk := kind_of_nil hnil hend
    simp only [Bind.bind, StateT.bind, get, getThe, MonadStateOf.get, StateT.get, Pure.pure, hk]
    rfl

end Ends

/-- The rules are read in lockstep, as long as what they ask for is. -/
theorem Alike.rule {limit : Nat} {self self' : (n : Nonterminal) → Parse n.Result} [Forward self]
    (hself : V.Alike self self') : V.Alike (rule limit self) (rule limit self') where
  operand hin := .operand hself hin
  expression hin := .expression hself hin
  value hin := .value hself hin
  block hstart := .block hself hstart
  noOperand hnil hend := operand_of_nil hnil hend
  noExpression {depth precedence c} hnil hend := by
    have hnone : (self (.operand depth false) c).1 = none := hself.noOperand hnil hend
    change (Grammar.expression self depth precedence c).1 = none
    rw [Grammar.expression, run_bind hnone]
    rfl
  noValue {depth c} hnil hend := by
    have hsees : c.sees .ampersand = false := by
      rw [Cursor.sees, kind_of_nil hnil hend]
      rfl
    change ((if c.sees .ampersand = true then _ else self (.expression depth 1) : Parse (Option Expression)) c).1 = none
    rw [hsees, if_neg Bool.false_ne_true]
    exact hself.noExpression hnil hend
  minus {depth c t} ht hk hend he := by
    refine ⟨he, .inl ?_⟩
    change (Grammar.operand limit self depth true).Tells c
    unfold Grammar.operand
    split
    next => exact Tells.bind (tells_tooDeep c)
    next =>
      have hkind : c.kind = .minus := by rw [Cursor.kind, Cursor.token, ht]; exact hk
      have hbump : (bump c).2 = { c with upcoming := [], last := some t } := by
        simp only [Parse.bump, modifyGet, MonadStateOf.modifyGet, StateT.modifyGet, ht]
        rfl
      refine .get_bind ?_
      rw [hkind]
      refine .map (.bump_bind ?_)
      rw [hbump]
      exact tells_of_eq (hself.noOperand rfl hend) (.bind (tells_reportHere _ _ _))

/-- Without a budget nothing is read, and the left text is lost. -/
theorem alike_zero {limit n : Nat} (hn : V.exact → n = 0) : V.Alike (read limit 0) (read limit n) := by
  have hnone {c c' : Cursor} {p : Nat → Parse (Option Expression)}
      (hzero : p 0 = (do Parse.stall; Pure.pure none)) :
      V.Lockstep False (do Parse.stall; Pure.pure none) (p n) c c' (V.Found c c') :=
    .of_stall hn hzero fun he hal _ => ⟨rfl, (fun h => by cases h), fun _ => .inl he, fun _ =>
      hal.facing.closesBeforeEquals_eq (tail_nil he) 0⟩
  exact {
    operand := fun {depth argument} _ _ _ => hnone (p := (read limit · (.operand depth argument))) rfl
    expression := fun {depth precedence} _ _ _ => hnone (p := (read limit · (.expression depth precedence))) rfl
    value := fun {depth} _ _ _ => hnone (p := (read limit · (.value depth))) rfl
    block := fun {depth stop start start' c c'} hstart => by
      by_cases he : V.exact
      · rw [hn he]
        refine .bind .stall fun _ _ _ _ _ _ _ => .spanFrom_bind hstart fun s s' _ _ hs => .pure fun _ => ?_
        simp only [Relocation.block, hs, Relocation.statements, Relocation.optionalLast]
      · exact fun _ => .inl ⟨he, .inr (.inl rfl)⟩
    noOperand := fun _ _ => rfl
    noExpression := fun _ _ => rfl
    noValue := fun _ _ => rfl
    minus := fun _ _ _ he => ⟨he, .inr (.inl rfl)⟩ }

/-- **The parser reads two texts in lockstep** as far as the left one goes, under as much of a
budget on the right as on the left. -/
theorem alike_read (V : View) (limit : Nat) {n n' : Nat} (hn : n ≤ n') (hexact : V.exact → n = n') :
    V.Alike (read limit n) (read limit n') := by
  induction n generalizing n' with
  | zero => exact alike_zero fun he => (hexact he).symm
  | succ n ih =>
    obtain ⟨n', rfl⟩ : ∃ m, n' = m + 1 := ⟨n' - 1, by omega⟩
    have hrule (n : Nat) : read limit (n + 1) = rule limit (read limit n) := by
      funext m
      cases m <;> rfl
    rw [hrule, hrule]
    exact (ih (by omega) fun he => by have := hexact he; omega).rule

/-! ## Whole texts -/

/-- Where two texts are the same to the end, the whole of the one is read like the whole of the
other. -/
theorem Along.source (h : V.Along c c') (he : V.exact)
    (hplace : V.place 0 0) (limit : Nat) :
    V.Along (source limit c).2 (source limit c').2 ∧
      V.left.statements (source limit c).1.body =
        V.right.statements (source limit c').1.body ∧
      V.left.optionalLast (source limit c).1.last =
        V.right.optionalLast (source limit c').1.last := by
  have hbudget := congrArg budgetFor (h.length_eq he)
  have hrules := V.alike_read limit (Nat.le_of_eq hbudget) fun _ => hbudget
  have hread : V.Lockstep True (readHere limit (.block 0 [.endOfInput] 0))
      (readHere limit (.block 0 [.endOfInput] 0)) c c' fun b b' _ =>
        V.left.block b = V.right.block b' := by
    unfold readHere
    exact .get_bind fun _ => hrules.block hplace
  -- Beside the span, the block of a text is the one that was read.
  have hsource (c : Cursor) : Grammar.source limit c =
      ((fun b : Block => .mk b.body b.last ⟨0, c.ending.span.stop⟩)
        (readHere limit (.block 0 [.endOfInput] 0) c).1,
        (readHere limit (.block 0 [.endOfInput] 0) c).2) := rfl
  unfold Lockstep at hread
  rw [hsource, hsource]
  generalize readHere limit (.block 0 [.endOfInput] 0) c = r,
    readHere limit (.block 0 [.endOfInput] 0) c' = r' at hread
  obtain hlost | ⟨hkept, hblock⟩ := hread h
  · exact absurd he hlost.1
  obtain ⟨⟨ss, last, span⟩, d⟩ := r
  obtain ⟨⟨ss', last', span'⟩, d'⟩ := r'
  injection hblock with hbody hlast
  exact ⟨hkept.along, hbody, hlast⟩

end View

end CommandScript
