import CommandScript.Proofs.Equality
import CommandScript.Proofs.Idle
import CommandScript.Proofs.Meaning
import CommandScript.Vm
/-!
# CommandScript — what is printed is read back

The text of data is a script, and its value is that data again. The tokens of the text are
known, so the way of the parser through them is: every rule finds its own token where it
looks for it, and none complains.

The budget of the parser is four for each token. An operand that is a container passes
three of it on to each value in it, and has two brackets of its own to spare.
-/

namespace CommandScript

open Parse Cursor

/-- What can follow a value in a text of data. -/
def Closes (ws : List Spelling) : Prop :=
  Spelling.firstKind ws ∈ [.endOfInput, .comma, .rightBracket, .rightBrace]

theorem closes_nil : Closes [] := List.mem_cons_self

theorem closes_cons {w : Spelling} {ws : List Spelling}
    (h : w.kind ∈ [.comma, .rightBracket, .rightBrace]) : Closes (w :: ws) :=
  List.mem_cons_of_mem _ h

namespace Parse

variable {α β : Type} {p : Parse (Option α)} {us ws : List Spelling} {P : α → Prop}

/-- These tokens are read to the last, wherever they stand, and what is read has the
property. -/
def Reads (p : Parse (Option α)) (us : List Spelling) (P : α → Prop) : Prop :=
  ∀ (c : Cursor) (ws : List Spelling), Closes ws → c.Shows (us ++ ws) →
    p.Ends c fun r d => (∃ a, r = some a ∧ P a) ∧ c.Passes ws d

theorem Reads.imp {Q : α → Prop} (h : p.Reads us P) (himp : ∀ a, P a → Q a) : p.Reads us Q := by
  intro c ws hws hshows
  refine (h c ws hws hshows).imp fun r d _ hr => ?_
  obtain ⟨⟨a, rfl, ha⟩, hpasses⟩ := hr
  exact ⟨⟨a, rfl, himp a ha⟩, hpasses⟩

/-- A token that is not there is not read. -/
theorem passes_eat_none {c : Cursor} {k : TokenKind} (h : c.Shows ws)
    (hk : Spelling.firstKind ws ≠ k) : (eat k).Ends c fun r d => r = none ∧ d = c := by
  refine Ends.sound fun hc => Ends.get_bind ?_
  rw [if_neg (by rw [h.sees_eq hc]; simpa using hk)]
  exact Ends.pure ⟨rfl, rfl⟩

end Parse

namespace Listing

variable {α β : Type}

/-- The list is one of values, up to a closing sign. -/
structure UpTo (l : Listing α) (close : TokenKind) : Prop where
  closing : close ∈ [.rightBracket, .rightBrace]
  starts : ∀ {c ws}, c.Sound → c.Shows ws →
    l.starts c = Grammar.expressionStart.contains (Spelling.firstKind ws)
  ends : ∀ {c ws}, c.Sound → c.Shows ws → l.ends c = (Spelling.firstKind ws == close)

variable {l : Listing α} {close : TokenKind} {tok : β → List Spelling} {w : Spelling}

/-- Behind an element stands a comma before the others, or the end of the list. -/
theorem UpTo.exists_tail (hl : l.UpTo close) (hw : w.kind = close) (tok : β → List Spelling)
    (x : β) (xs : List β) (ws : List Spelling) :
    ∃ tail, Spelling.commas ((x :: xs).map tok) ++ w :: ws = tok x ++ tail ∧ Closes tail ∧
      ∀ {c : Cursor}, c.Shows tail → (eat .comma).Ends c fun s d =>
        c.Passes (Spelling.commas (xs.map tok) ++ w :: ws) d ∧ (s.isNone && !l.ends d) = false := by
  have hcomma : close ≠ .comma := by
    have hall : ∀ k ∈ [TokenKind.rightBracket, .rightBrace], k ≠ .comma := by decide
    exact hall close hl.closing
  cases xs with
  | nil =>
    have hcloses : Closes (w :: ws) := closes_cons (List.mem_cons_of_mem _ (hw ▸ hl.closing))
    refine ⟨w :: ws, by simp, hcloses, fun {c} h => Ends.sound fun hc => ?_⟩
    refine (passes_eat_none h (by simpa [hw] using hcomma)).imp fun s d _ hd => ?_
    obtain ⟨rfl, rfl⟩ := hd
    refine ⟨.refl h, ?_⟩
    rw [hl.ends hc h]
    simp [hw]
  | cons y ys =>
    refine ⟨.sign .comma ',' :: (Spelling.commas ((y :: ys).map tok) ++ w :: ws), by simp,
      closes_cons List.mem_cons_self, fun {c} h => ?_⟩
    refine (passes_eat h rfl).imp fun s d _ hd => ?_
    obtain ⟨t, rfl, -, hpasses⟩ := hd
    exact ⟨hpasses, rfl⟩

/-- **A list is read element by element**, where each element is read and a comma stands
between two of them. -/
theorem UpTo.passes_rounds (hl : l.UpTo close) (hw : w.kind = close) {R : β → α → Prop}
    {xs : List β} {ws : List Spelling} {c : Cursor}
    (hfirst : ∀ x ∈ xs, ∃ v us, tok x = v :: us ∧ v.kind ∈ Grammar.expressionStart)
    (helement : ∀ x ∈ xs, l.element.Reads (tok x) (R x))
    (h : c.Shows (Spelling.commas (xs.map tok) ++ w :: ws)) {before : Option Nat}
    (hbefore : ∀ offset ∈ before, offset < c.offset) {n : Nat} (hn : xs.length < n) :
    (l.rounds before n).Ends c fun is d =>
      List.Forall₂ (fun x i => ∃ a, i.value = some a ∧ R x a) xs is ∧ c.Passes (w :: ws) d := by
  induction xs generalizing c before n with
  | nil =>
    obtain ⟨n, rfl⟩ := Nat.exists_eq_succ_of_ne_zero (Nat.ne_zero_of_lt hn)
    refine Ends.sound fun hc => Ends.get_bind ?_
    have hover : l.ends c = true := by
      rw [hl.ends hc h]
      exact beq_iff_eq.2 hw
    rw [if_pos (by rw [hover, Bool.or_true])]
    exact Ends.pure ⟨.nil, .refl h⟩
  | cons x xs ih =>
    obtain ⟨n, rfl⟩ := Nat.exists_eq_succ_of_ne_zero (Nat.ne_zero_of_lt hn)
    obtain ⟨⟨v, us, htok, hv⟩, hfirst⟩ := List.forall_mem_cons.1 hfirst
    obtain ⟨hx, helement⟩ := List.forall_mem_cons.1 helement
    obtain ⟨tail, htail, hcloses, hcomma⟩ := hl.exists_tail hw tok x xs ws
    rw [htail] at h
    unfold Listing.rounds
    refine Ends.sound fun hc => Ends.get_bind ?_
    have hkind : Spelling.firstKind (tok x ++ tail) = v.kind := by rw [htok]; rfl
    have hgoes : (c.atEnd || l.ends c) = false := by
      have hall : ∀ k ∈ Grammar.expressionStart, k ≠ .endOfInput ∧
          ∀ k' ∈ [TokenKind.rightBracket, .rightBrace], k ≠ k' := by
        decide
      obtain ⟨hend, hclosing⟩ := hall v.kind hv
      rw [atEnd, h.sees_eq hc, hl.ends hc h, hkind]
      simp [hend, hclosing close hl.closing]
    rw [if_neg (by simp [hgoes])]
    refine (ends_progressed hbefore).bind fun goes c₁ hgoes => ?_
    obtain ⟨rfl, rfl⟩ := hgoes
    rw [if_neg (by simp)]
    extract_lets withValue
    have hstarts : l.starts c₁ = true := by
      rw [hl.starts hc h, hkind]
      simpa using hv
    rw [if_pos hstarts]
    refine (hx _ _ hcloses h).bind fun r c₂ hr => ?_
    obtain ⟨⟨a, rfl, ha⟩, hpasses⟩ := hr
    dsimp -zeta only [withValue]
    extract_lets withComma
    rw [if_neg (by simp)]
    dsimp -zeta only [withComma]
    refine (hcomma hpasses.shows).bind fun separator c₃ hc₃ => Ends.spanFrom_bind ?_
    obtain ⟨hpasses', hover⟩ := hc₃
    extract_lets item
    refine Ends.get_bind ?_
    rw [if_neg (by simp [hover])]
    have hall := hpasses.trans hpasses'
    -- the rounds stop where nothing is read, but an element has a token
    have hforward : ∀ offset ∈ some c₁.offset, offset < c₃.offset := by
      rintro _ ⟨⟩
      refine hall.offset_lt hc ?_
      have hne : tok x ≠ [] := by simp [htok]
      have hlt := Spelling.length_commas_lt hne (xs.map tok)
      rw [h.length_eq, ← htail, List.length_append, List.length_append, List.map_cons]
      omega
    refine (ih hfirst helement hall.shows hforward (by simpa using hn)).bind fun is d hd => Ends.pure ?_
    exact ⟨.cons ⟨a, rfl, ha⟩ hd.1, hall.trans hd.2⟩

/-- The whole list is read: it has no more elements than tokens. -/
theorem UpTo.passes_read (hl : l.UpTo close) (hw : w.kind = close) {R : β → α → Prop}
    {xs : List β} {ws : List Spelling} {c : Cursor}
    (hfirst : ∀ x ∈ xs, ∃ v us, tok x = v :: us ∧ v.kind ∈ Grammar.expressionStart)
    (helement : ∀ x ∈ xs, l.element.Reads (tok x) (R x))
    (h : c.Shows (Spelling.commas (xs.map tok) ++ w :: ws)) :
    l.read.Ends c fun is d =>
      List.Forall₂ (fun x i => ∃ a, i.value = some a ∧ R x a) xs is ∧ c.Passes (w :: ws) d := by
  have hne : ∀ us ∈ xs.map tok, us ≠ [] := by
    refine List.forall_mem_map.2 fun x hx => ?_
    obtain ⟨v, us, htok, -⟩ := hfirst x hx
    rw [htok]
    exact List.cons_ne_nil v us
  have hle := Spelling.length_le_length_commas hne
  rw [List.length_map] at hle
  have hn : xs.length < c.upcoming.length + 1 := by
    rw [h.length_eq, List.length_append]
    omega
  exact Ends.get_bind (hl.passes_rounds hw hfirst helement h (fun _ h => absurd h (by simp)) hn)

/-- A list between its brackets, and what is made of it. -/
theorem UpTo.passes_enclosed {γ : Type} (hl : l.UpTo close) (hw : w.kind = close)
    {R : β → α → Prop} {xs : List β} {ws : List Spelling} {opening : Spelling} {c : Cursor}
    (hfirst : ∀ x ∈ xs, ∃ v us, tok x = v :: us ∧ v.kind ∈ Grammar.expressionStart)
    (helement : ∀ x ∈ xs, l.element.Reads (tok x) (R x))
    (h : c.Shows (opening :: (Spelling.commas (xs.map tok) ++ w :: ws)))
    {make : Brackets → Separated α → Span → γ} {P : γ → Prop}
    (hmake : ∀ {is : Separated α}, List.Forall₂ (fun x i => ∃ a, i.value = some a ∧ R x a) xs is →
      ∀ brackets span, P (make brackets is span)) :
    (do let left ← bump
        let contents ← l.read
        let right ← expect close (some left)
        return make ⟨left, right⟩ contents (← spanFrom left.span.start) : Parse γ).Ends c
      fun e d => P e ∧ c.Passes ws d := by
  refine (passes_bump h).bind fun left c₁ hleft => ?_
  refine (hl.passes_read hw hfirst helement hleft.2.shows).bind fun is c₂ his => ?_
  refine (passes_expect his.2.shows hw).bind fun right c₃ hright => Ends.spanFrom_bind ?_
  obtain ⟨t, rfl, -, hright⟩ := hright
  exact Ends.pure ⟨hmake his.1 _ _, hleft.2.trans (his.2.trans hright)⟩

end Listing

namespace Grammar

variable {σ : Type} {host : Host σ} {limit depth budget : Nat}
variable {self : (n : Nonterminal) → Parse n.Result} {us : List Spelling} {P : Expression → Prop}

/-! ## Values -/

/-- Data begins as an expression does, and as no call does. -/
theorem exists_expressionStart (d : Datum) :
    ∃ w us, d.tokens = w :: us ∧ w.kind ∈ expressionStart ∧ w.kind ≠ .ampersand := by
  have hall : ∀ k ∈ Datum.firstKinds, k ∈ expressionStart ∧ k ≠ .ampersand := by decide
  obtain ⟨w, us, htokens, hw⟩ := d.tokens_eq_cons
  exact ⟨w, us, htokens, hall w.kind hw⟩

/-- Behind an operand that ends a value, there is no operator. -/
theorem reads_expression {precedence : Nat} (h : (self (.operand depth false)).Reads us P) :
    (expression self depth precedence).Reads us P := by
  intro c ws hws hshows
  refine (h _ _ hws hshows).bind fun r d hr => ?_
  obtain ⟨⟨e, rfl, he⟩, hpasses⟩ := hr
  refine Ends.map (Ends.get_bind (Ends.sound fun hd => Ends.get_bind ?_))
  have hnone : seesOperator d = false := by
    have hall : ∀ k ∈ [TokenKind.endOfInput, .comma, .rightBracket, .rightBrace],
        k.precedence?.isSome = false := by decide
    rw [seesOperator, hpasses.shows.kind_eq hd, hall _ hws, Bool.false_and]
  rw [if_pos (by simp [hnone])]
  exact Ends.pure ⟨⟨e, rfl, he⟩, hpasses⟩

/-- A value that is no call is an expression. -/
theorem reads_value (hus : ∃ w vs, us = w :: vs ∧ w.kind ≠ .ampersand)
    (h : (self (.expression depth 1)).Reads us P) : (value self depth).Reads us P := by
  intro c ws hws hshows
  obtain ⟨w, vs, rfl, hw⟩ := hus
  refine Ends.sound fun hc => Ends.get_bind ?_
  rw [if_neg (by rw [hshows.sees_eq hc]; simpa using hw)]
  exact h _ _ hws hshows

theorem reads_required {message : String} (h : (self (.value depth)).Reads us P) :
    (required self depth message).Reads us P := by
  intro c ws hws hshows
  refine (h _ _ hws hshows).bind fun r d hr => ?_
  obtain ⟨⟨e, rfl, he⟩, hpasses⟩ := hr
  exact Ends.pure ⟨⟨e, rfl, he⟩, hpasses⟩

/-- A value costs two more than its operand. -/
theorem reads_read_value {d : Datum}
    (h : (read limit budget (.operand depth false)).Reads d.tokens P) :
    (read limit (budget + 2) (.value depth)).Reads d.tokens P := by
  have hexpression : (read limit (budget + 1) (.expression depth 1)).Reads d.tokens P :=
    reads_expression h
  obtain ⟨w, us, htokens, -, hw⟩ := exists_expressionStart d
  exact reads_value ⟨w, us, htokens, hw⟩ hexpression

/-! ## What is no container -/

/-- Literals of one token. -/
theorem reads_literal (limit depth budget : Nat) (argument : Bool) (w : Spelling) (k : TokenKind)
    (make : Token → Expression) (hw : w.kind = k)
    (hmake : (k, make) ∈ [(.kwNil, .nil), (.kwTrue, .boolean), (.kwFalse, .boolean),
      (.number, .number), (.string, .string)]) (hlimit : depth ≤ limit) :
    (read limit (budget + 1) (.operand depth argument)).Reads [w] fun e =>
      ∃ t, e = make t ∧ t.spelling = w := by
  intro c ws _ hshows
  refine Ends.sound fun hc => ?_
  have hkind : c.kind = k := (hshows.kind_eq hc).trans hw
  have hread : (do return some (make (← bump)) : Parse (Option Expression)).Ends c fun r d =>
      (∃ e, r = some e ∧ ∃ t, e = make t ∧ t.spelling = w) ∧ c.Passes ws d :=
    (passes_bump hshows).bind fun t d ht => Ends.pure ⟨⟨_, rfl, t, rfl, ht.1⟩, ht.2⟩
  change (operand limit (read limit budget) depth argument).Ends c _
  unfold operand
  rw [if_neg (Nat.not_lt_of_le hlimit)]
  refine Ends.get_bind ?_
  rw [hkind]
  simp only [List.mem_cons, List.not_mem_nil, or_false, Prod.mk.injEq] at hmake
  obtain ⟨rfl, rfl⟩ | ⟨rfl, rfl⟩ | ⟨rfl, rfl⟩ | ⟨rfl, rfl⟩ | ⟨rfl, rfl⟩ := hmake <;> exact hread

/-- A minus before a number is an operand of its own, and the number is one inside it. -/
theorem reads_negated (limit depth budget : Nat) (argument : Bool) (w : Spelling)
    (hw : w.kind = .number) (hlimit : depth + 1 ≤ limit) :
    (read limit (budget + 2) (.operand depth argument)).Reads [.sign .minus '-', w] fun e =>
      ∃ o t span, e = .unary o (some (.number t)) span ∧ o.kind = .minus ∧ t.spelling = w := by
  intro c ws hws hshows
  refine Ends.sound fun hc => ?_
  have hkind : c.kind = .minus := hshows.kind_eq hc
  change (operand limit (read limit (budget + 1)) depth argument).Ends c _
  unfold operand
  rw [if_neg (by omega)]
  refine Ends.get_bind ?_
  rw [hkind]
  refine Ends.map ((passes_bump hshows).bind fun o c₁ ho => ?_)
  have hnumber := reads_literal limit (depth + 1) budget false w .number .number hw (by simp) hlimit
  refine (hnumber _ _ hws ho.2.shows).bind fun r c₂ hr => ?_
  obtain ⟨⟨e, rfl, t, rfl, ht⟩, hpasses⟩ := hr
  rw [if_neg (by simp)]
  refine Ends.spanFrom_bind (Ends.pure ⟨⟨_, rfl, ?_⟩, ho.2.trans hpasses⟩)
  exact ⟨o, t, _, rfl, congrArg Spelling.kind ho.1, ht⟩

/-- A negative number is read as that number. -/
theorem reads_negative {argument : Bool} {n : Nat}
    (hn : n < Decimal.tenTo Decimal.digitLimit) (hlimit : depth + 1 ≤ limit) :
    (read limit (budget + 2) (.operand depth argument)).Reads
      [.sign .minus '-', .number n] (Denotes host · (.int (-n))) := by
  refine (reads_negated limit depth budget argument (.number n) rfl hlimit).imp fun e he => ?_
  obtain ⟨o, t, span, rfl, ho, ht⟩ := he
  exact .negative ht hn ho span

/-- **What is no container is read as what it was.** -/
theorem reads_scalar {argument : Bool} {d : Datum} (hd : d.Scalar) (hlimit : depth + 1 ≤ limit) :
    (read limit (budget + 2) (.operand depth argument)).Reads d.scalarTokens (Denotes host · d) := by
  have hdepth : depth ≤ limit := Nat.le_of_succ_le hlimit
  have hliteral := reads_literal limit depth (budget + 1) argument
  cases hd with
  | nil =>
    refine (hliteral (.word "nil".toList) .kwNil .nil rfl (by simp) hdepth).imp fun e he => ?_
    obtain ⟨t, rfl, -⟩ := he
    exact .nil t
  | bool b =>
    cases b
    · refine (hliteral (.word "false".toList) .kwFalse .boolean rfl (by simp) hdepth).imp fun e he => ?_
      obtain ⟨t, rfl, ht⟩ := he
      have hkind : t.kind = .kwFalse := congrArg Spelling.kind ht
      exact .boolean (by rw [hkind]; rfl)
    · refine (hliteral (.word "true".toList) .kwTrue .boolean rfl (by simp) hdepth).imp fun e he => ?_
      obtain ⟨t, rfl, ht⟩ := he
      have hkind : t.kind = .kwTrue := congrArg Spelling.kind ht
      exact .boolean (by rw [hkind]; rfl)
  | @int n digits =>
    unfold Datum.scalarTokens
    dsimp only
    split
    next hn =>
      have habs : n = -(n.natAbs : Int) := by omega
      have hread : (read limit (budget + 2) (.operand depth argument)).Reads
        [.sign .minus '-', .number n.natAbs] (Denotes host · (.int (-(n.natAbs : Int)))) :=
        reads_negative digits hlimit
      rwa [← habs] at hread
    next hn =>
      have habs : n = (n.natAbs : Int) := by omega
      refine (hliteral (.number n.natAbs) .number .number rfl (by simp) hdepth).imp fun e he => ?_
      obtain ⟨t, rfl, ht⟩ := he
      rw [habs]
      exact .number ht digits
  | @string s oneLine =>
    refine (hliteral (.string s) .string .string rfl (by simp) hdepth).imp fun e he => ?_
    obtain ⟨t, rfl, ht⟩ := he
    exact .string ht

/-! ## Containers -/

theorem upTo_items : (items self depth).UpTo .rightBracket where
  closing := List.mem_cons_self
  starts hc h := h.seesAny_eq hc _
  ends hc h := h.sees_eq hc _

theorem upTo_fields : (fields self depth).UpTo .rightBrace where
  closing := List.mem_cons_of_mem _ List.mem_cons_self
  starts hc h := h.seesAny_eq hc _
  ends hc h := h.sees_eq hc _

/-- **A vector of values that are read is read.** -/
theorem reads_vector {ds : List Datum} (hlimit : depth ≤ limit)
    (h : ∀ d ∈ ds, (read limit budget (.value (depth + 1))).Reads d.tokens (Denotes host · d)) :
    (read limit (budget + 1) (.operand depth false)).Reads (Datum.vector ds).tokens
      (Denotes host · (.vector ds)) := by
  intro c ws hws hshows
  rw [Datum.tokens, Datum.tokensAll_eq_map, List.cons_append, List.append_assoc] at hshows
  refine Ends.sound fun hc => ?_
  have hkind : c.kind = .leftBracket := hshows.kind_eq hc
  change (operand limit (read limit budget) depth false).Ends c _
  unfold operand
  rw [if_neg (Nat.not_lt_of_le hlimit)]
  refine Ends.get_bind ?_
  rw [hkind]
  have hfirst : ∀ d ∈ ds, ∃ w us, d.tokens = w :: us ∧ w.kind ∈ expressionStart := by
    intro d _
    obtain ⟨w, us, htokens, hw, -⟩ := exists_expressionStart d
    exact ⟨w, us, htokens, hw⟩
  have hvector := upTo_items.passes_enclosed rfl hfirst h hshows (P := (Denotes host · (.vector ds)))
    fun his => Denotes.vector his
  exact Ends.map (hvector.imp fun e d _ he => ⟨⟨e, rfl, he.1⟩, he.2⟩)

/-- In a key between brackets no bracket is closed but the one before it. -/
theorem closesBeforeEquals_of_spelled {ts : List Token} {us ws : List Spelling}
    (hts : ts.map Token.spelling = us ++ .sign .rightBracket ']' :: .sign .equal '=' :: ws)
    (hus : ∀ u ∈ us, u.kind ≠ .leftBracket ∧ u.kind ≠ .rightBracket) :
    closesBeforeEquals 1 ts = true := by
  induction us generalizing ts with
  | nil =>
    obtain ⟨t, rest, rfl, ht, hrest⟩ := List.map_eq_cons_iff.1 hts
    obtain ⟨e, rest, rfl, he, -⟩ := List.map_eq_cons_iff.1 hrest
    have hbracket : t.kind = .rightBracket := congrArg Spelling.kind ht
    have hequal : e.kind = .equal := congrArg Spelling.kind he
    rw [closesBeforeEquals, if_neg (by simp [hbracket]), if_pos hbracket, if_pos rfl]
    simp [hequal]
  | cons u us ih =>
    obtain ⟨t, rest, rfl, ht, hrest⟩ := List.map_eq_cons_iff.1 hts
    obtain ⟨⟨hleft, hright⟩, hus⟩ := List.forall_mem_cons.1 hus
    have hkind : t.kind = u.kind := congrArg Spelling.kind ht
    rw [closesBeforeEquals, if_neg (hkind ▸ hleft), if_neg (hkind ▸ hright)]
    exact ih hrest hus

/-- The tokens of a key are no brackets. -/
theorem forall_mem_scalarTokens (d : Datum) :
    ∀ u ∈ d.scalarTokens, u.kind ≠ .leftBracket ∧ u.kind ≠ .rightBracket := by
  cases d with
  | nil => decide
  | bool b => cases b <;> decide
  | int n =>
    unfold Datum.scalarTokens
    dsimp only
    split <;> simp [Spelling.number]
  | string s => simp [Datum.scalarTokens, Spelling.string]
  | vector | table => simp [Datum.scalarTokens]

/-- An entry begins with a name or with a bracket. -/
theorem exists_entryStart {e : Key × Datum}
    (hname : ∀ name ∈ e.1.name?, isIdentifier name.toList = true) :
    ∃ w us, Datum.tokensEntry e = w :: us ∧ w.kind ∈ expressionStart := by
  rw [Datum.tokensEntry_eq, Key.tokens]
  cases hn : e.1.name? with
  | some name =>
    exact ⟨_, _, rfl, by rw [Spelling.kind_word (hname name hn)]; decide⟩
  | none => exact ⟨_, _, rfl, by decide⟩

/-- **A field is read as the entry it was written for.** -/
theorem reads_tableField {k : Key} {d : Datum}
    (hname : ∀ name ∈ k.name?, isIdentifier name.toList = true)
    (hkey : (self (.value depth)).Reads k.datum.scalarTokens (Denotes host · k.datum))
    (hvalue : (self (.value depth)).Reads d.tokens (Denotes host · d)) :
    (tableField self depth).Reads (Datum.tokensEntry (k, d)) (DenotesEntry host · (k, d)) := by
  intro c ws hws hshows
  rw [Datum.tokensEntry_eq, Key.tokens, List.append_assoc, List.cons_append] at hshows
  refine Ends.sound fun hc => Ends.get_bind ?_
  cases hn : k.name? with
  | some name =>
    obtain rfl : k = .string name := by
      cases k with
      | string s =>
        rw [Key.name?] at hn
        split at hn
        · rw [Option.some.inj hn]
        · cases hn
      | bool | int => cases hn
    rw [hn] at hshows
    have hkind : c.sees .identifier = true := by
      rw [hshows.sees_eq hc]
      exact beq_iff_eq.2 (Spelling.kind_word (hname name hn))
    have hequal : (c.ahead 1).kind = .equal := hshows.ahead_kind_eq hc
    rw [if_pos (by simp [hkind, hequal])]
    refine (passes_bump hshows).bind fun t c₁ ht => ?_
    refine (passes_bump ht.2.shows).bind fun equal c₂ hequal => ?_
    refine (reads_required hvalue _ _ hws hequal.2.shows).bind fun r c₃ hr => ?_
    obtain ⟨⟨e, rfl, he⟩, hpasses⟩ := hr
    have hname : t.text = name := (congrArg Spelling.text ht.1).trans String.ofList_toList
    refine Ends.spanFrom_bind (Ends.pure ⟨⟨_, rfl, .named hname he _ _⟩, ?_⟩)
    exact ht.2.trans (hequal.2.trans hpasses)
  | none =>
    rw [hn] at hshows
    dsimp only at hshows
    rw [List.cons_append, List.append_assoc] at hshows
    have hkind : c.sees .identifier = false := by rw [hshows.sees_eq hc]; rfl
    have hbracket : c.sees .leftBracket = true := by rw [hshows.sees_eq hc]; rfl
    -- the parser looks for the closing bracket and the equals sign behind it to tell a key in
    -- brackets from a vector that is an item
    have hcloses : closesBeforeEquals 0 c.upcoming = true := by
      obtain ⟨t, rest, hup, ht, hrest⟩ := List.map_eq_cons_iff.1 hshows.spelled
      have hleft : t.kind = .leftBracket := congrArg Spelling.kind ht
      rw [hup, closesBeforeEquals, if_pos hleft]
      exact closesBeforeEquals_of_spelled hrest (forall_mem_scalarTokens _)
    rw [if_neg (by simp [hkind]), if_pos (by simp [hbracket, hcloses])]
    refine (passes_bump hshows).bind fun left c₁ hleft => ?_
    refine (reads_required hkey _ _ (closes_cons (by decide)) hleft.2.shows).bind fun r c₂ hr => ?_
    obtain ⟨⟨key, rfl, hkey⟩, hpasses⟩ := hr
    refine (passes_expect hpasses.shows rfl).bind fun right c₃ hright => ?_
    obtain ⟨t, rfl, -, hright⟩ := hright
    refine (passes_expect hright.shows rfl).bind fun equal c₄ hequal => ?_
    obtain ⟨t', rfl, -, hequal⟩ := hequal
    extract_lets withValue
    rw [if_pos Option.isSome_some]
    refine (reads_required hvalue _ _ hws hequal.shows).bind fun r c₅ hr => ?_
    obtain ⟨⟨e, rfl, he⟩, hpasses'⟩ := hr
    dsimp -zeta only [withValue]
    refine Ends.spanFrom_bind (Ends.pure ⟨⟨_, rfl, .keyed hkey he _ _ _⟩, ?_⟩)
    exact hleft.2.trans (hpasses.trans (hright.trans (hequal.trans hpasses')))

/-- **A table of entries that are read is read.** -/
theorem reads_table {es : List (Key × Datum)} (hlimit : depth ≤ limit)
    (hnames : ∀ e ∈ es, ∀ name ∈ e.1.name?, isIdentifier name.toList = true)
    (hdistinct : es.Pairwise fun e f => e.1.value.same f.1.value = false)
    (hpresent : ∀ e ∈ es, e.2 ≠ .nil)
    (h : ∀ e ∈ es, (tableField (read limit budget) (depth + 1)).Reads (Datum.tokensEntry e)
      (DenotesEntry host · e)) :
    (read limit (budget + 1) (.operand depth false)).Reads (Datum.table es).tokens
      (Denotes host · (.table es)) := by
  intro c ws hws hshows
  rw [Datum.tokens, Datum.tokensEntries_eq_map, List.cons_append, List.append_assoc] at hshows
  refine Ends.sound fun hc => ?_
  have hkind : c.kind = .leftBrace := hshows.kind_eq hc
  change (operand limit (read limit budget) depth false).Ends c _
  unfold operand
  rw [if_neg (Nat.not_lt_of_le hlimit)]
  refine Ends.get_bind ?_
  rw [hkind]
  have htable := upTo_fields.passes_enclosed rfl (fun e he => exists_entryStart (hnames e he)) h hshows
    (P := (Denotes host · (.table es))) fun hfs => Denotes.table hfs hdistinct hpresent
  exact Ends.map (htable.imp fun e d _ he => ⟨⟨e, rfl, he.1⟩, he.2⟩)

/-- **Data is read as what it was**, where the limit leaves room for its levels. -/
theorem reads_operand {d : Datum} (hd : d.Writable) (hlimit : depth + d.levels + 1 ≤ limit)
    (hbudget : 4 * d.tokens.length ≤ budget + 2) :
    (read limit budget (.operand depth false)).Reads d.tokens (Denotes host · d) := by
  induction hd generalizing depth budget with
  | @scalar d hd =>
    have hlength : 0 < d.tokens.length := d.length_tokens_pos
    obtain ⟨budget, rfl⟩ : ∃ b, budget = b + 2 := ⟨budget - 2, by omega⟩
    rw [hd.tokens_eq]
    exact reads_scalar hd (by omega)
  | @vector ds items ih =>
    have hlength : (Datum.vector ds).tokens.length = (Spelling.commas (ds.map Datum.tokens)).length + 2 := by
      rw [Datum.tokens, Datum.tokensAll_eq_map, List.length_cons, List.length_append]
      rfl
    obtain ⟨budget, rfl⟩ : ∃ b, budget = b + 3 := ⟨budget - 3, by omega⟩
    refine reads_vector (by omega) fun d hd => ?_
    have hlevels : d.levels + 1 ≤ (Datum.vector ds).levels := Nat.succ_le_succ (Datum.levels_le_levelsAll hd)
    have hle := Spelling.length_le_commas (List.mem_map_of_mem (f := Datum.tokens) hd)
    exact reads_read_value (ih d hd (by omega) (by omega))
  | @table es keys names distinct present values ih =>
    have hlength : (Datum.table es).tokens.length = (Spelling.commas (es.map Datum.tokensEntry)).length + 2 := by
      rw [Datum.tokens, Datum.tokensEntries_eq_map, List.length_cons, List.length_append]
      rfl
    obtain ⟨budget, rfl⟩ : ∃ b, budget = b + 3 := ⟨budget - 3, by omega⟩
    refine reads_table (by omega) names distinct present fun e he => ?_
    have hlevels : e.2.levels + 1 ≤ (Datum.table es).levels :=
      Nat.succ_le_succ (Datum.levels_le_levelsEntries he)
    have hle := Spelling.length_le_commas (List.mem_map_of_mem (f := Datum.tokensEntry) he)
    have hentry : e.2.tokens.length < (Datum.tokensEntry e).length := by
      rw [Datum.tokensEntry_eq, List.length_append, List.length_cons]
      omega
    refine reads_tableField (names e he) ?_ (reads_read_value (ih e he (by omega) (by omega)))
    -- a key is no container, so it takes no more budget than any value
    obtain ⟨budget, rfl⟩ : ∃ b, budget = b + 2 := by
      have hlength := e.2.length_tokens_pos
      exact ⟨budget - 2, by omega⟩
    rw [← (keys e he).tokens_eq]
    refine reads_read_value ?_
    rw [(keys e he).tokens_eq]
    exact reads_scalar (keys e he) (by omega)

/-- Data is a statement of its own. -/
theorem passes_statement {d : Datum} (hd : d.Writable) (hlimit : d.levels + 1 ≤ limit)
    (hbudget : 4 * d.tokens.length ≤ budget + 2) {c : Cursor} (h : c.Shows d.tokens) :
    (statement limit (read limit (budget + 1)) 0).Ends c fun r e =>
      (∃ s, r = some s ∧ ∃ x, s = .expression x ∧ Denotes host x d) ∧ c.Passes [] e := by
  have hoperand : (read limit budget (.operand 0 false)).Reads d.tokens (Denotes host · d) :=
    reads_operand hd (by omega) hbudget
  have hexpression : (expression (read limit budget) 0 1).Reads d.tokens (Denotes host · d) :=
    reads_expression hoperand
  refine Ends.sound fun hc => Ends.get_bind ?_
  obtain ⟨w, us, htokens, hw⟩ := d.tokens_eq_cons
  have hkind : c.kind = w.kind := by
    rw [h.kind_eq hc, htokens]
    rfl
  have hstarts : c.seesAny operandStart = true := by
    have hall : ∀ k ∈ Datum.firstKinds, operandStart.contains k = true := by decide
    rw [seesAny, hkind, hall w.kind hw]
  have hread : (if c.seesAny operandStart then
      return (← read limit (budget + 1) (.expression 0 1)).map .expression
      else pure none : Parse (Option Statement)).Ends c fun r e =>
        (∃ s, r = some s ∧ ∃ x, s = .expression x ∧ Denotes host x d) ∧ c.Passes [] e := by
    rw [if_pos hstarts]
    refine (hexpression c [] closes_nil (by rwa [List.append_nil])).bind fun r e hr => ?_
    obtain ⟨⟨x, rfl, hx⟩, hpasses⟩ := hr
    exact Ends.pure ⟨⟨_, rfl, x, rfl, hx⟩, hpasses⟩
  rw [hkind]
  simp only [Datum.firstKinds, List.mem_cons, List.not_mem_nil, or_false] at hw
  obtain hw | hw | hw | hw | hw | hw | hw | hw := hw <;> rw [hw] <;> exact hread

end Grammar

/-- **The text of data is one expression, which denotes it.** -/
theorem parse_text {σ : Type} (host : Host σ) {d : Datum} (hd : d.Writable) {limit : Nat}
    (hlimit : d.levels + 1 ≤ limit) :
    ∃ e span, (parse d.text limit).block = some (.mk [.expression e] none span) ∧
      Denotes host e d ∧ (parse d.text limit).issues = [] := by
  obtain ⟨w, us, htokens, hw⟩ := d.tokens_eq_cons
  have hspelled := hd.spelledBy
  have hspells : Spells d.text.toList (w :: us) := by
    have hall := hspelled.before (fun c hc => absurd hc (by simp)) Spells.nil
    rwa [List.append_nil, List.append_nil, htokens] at hall
  have hfirst : w.kind ∉ [.endOfInput, .semicolon, .unknown, .kwBreak, .kwContinue, .kwReturn] := by
    have hall : ∀ k ∈ Datum.firstKinds,
        k ∉ [.endOfInput, .semicolon, .unknown, .kwBreak, .kwContinue, .kwReturn] := by decide
    exact hall w.kind hw
  obtain ⟨s, span, hblock, ⟨e, rfl, he⟩, hissues⟩ := parse_of_statement limit
    (P := fun s => ∃ x, s = .expression x ∧ Denotes host x d) hspells (htokens ▸ hspelled.whole) hfirst
    fun budget hbudget => by
      obtain ⟨budget, rfl⟩ : ∃ b, budget = b + 1 := ⟨budget - 1, by omega⟩
      rw [← htokens] at hbudget
      exact Grammar.passes_statement hd hlimit (by omega) (htokens ▸ hspells.shows)
  exact ⟨e, span, hblock, he, hissues⟩

namespace Exec

variable {σ α : Type} {s : State σ} {h : Heap}

/-- A step in another scope comes back from it. -/
theorem Gives.within {scope : FrameId} {step : Exec σ α} {a : α}
    (hstep : step.Gives { s with scope } a h) : (Exec.within scope step).Gives s a h := by
  refine ⟨?_, hstep.2⟩
  have hfinish : Exec.within scope step s =
      ((step { s with scope }).1, { (step { s with scope }).2 with scope := s.scope }) := rfl
  rw [hfinish, hstep.1]

end Exec

open Exec in
/-- A block of one statement gives the values of the statement. -/
theorem gives_runBlock_singleton {σ : Type} {host : Host σ} {budget : Nat} {source : String}
    {st : Statement} {span : Span} {s : State σ} {values : Option (List Value)} {h : Heap}
    (hst : (Eval.statement host budget (Eval.run host budget) source st).Gives s values h)
    (hs : s.pending = none) :
    (runBlock host budget source (.mk [st] none span)).Gives s values h := by
  have hstatements : (Eval.statements host budget (Eval.run host budget) source none none
      [st]).Gives s values h := by
    refine hst.bind (gives_get ?_)
    rw [if_neg (by simp [hs])]
    exact gives_pure _ _
  refine hstatements.bind (gives_get ?_)
  dsimp only
  rw [hs]
  exact gives_pure _ _

open Exec in
/-- A block of one expression gives the value of the expression. -/
theorem gives_runBlock {σ : Type} {host : Host σ} {e : Expression} {d : Datum}
    (he : Denotes host e d) {budget : Nat} (hbudget : d.levels + 2 ≤ budget) (source : String)
    (span : Span) {s : State σ} (hs : s.pending = none) :
    ∃ v h, (runBlock host budget source (.mk [.expression e] none span)).Gives s (some [v]) h ∧
      d.Is h v := by
  obtain ⟨v, h, hv, his⟩ := he source s budget hbudget
  exact ⟨v, h, gives_runBlock_singleton (hv.bind (gives_pure _ _)) hs, his⟩

/-- **What is printed can be pasted back.** A value that is data, in any heap, has a text,
and an idle machine runs the text to one value, which is the same data: the same items in
the same order, and the same entries in the order of their keys. Where the value is one of
that machine's heap, the two are equal for scripts. The limit has to leave room for one
level more than there are containers in one another. -/
theorem run_format {σ : Type} (host : Host σ) {vm : Vm σ} (hidle : vm.state.Idle) {d : Datum}
    (hd : d.Writable) {heap : Heap} {v : Value} (hv : d.Is heap v) {limit budget : Nat}
    (hlimit : d.levels + 1 ≤ limit) (hbudget : d.levels + 2 ≤ budget) :
    ∃ text w vm', heap.format v = .ok text ∧
      vm.run host budget text limit = (.ok (some [w]), vm') ∧ d.Is vm'.state.heap w ∧
      (heap = vm.state.heap → vm'.state.heap.equal v w = .ok true) := by
  obtain ⟨e, span, hblock, he, -⟩ := parse_text host hd hlimit
  obtain ⟨frame, frames, hchild⟩ :
      ∃ frame frames, vm.state.frames.child vm.state.scope true = (frame, frames) := ⟨_, _, rfl⟩
  obtain ⟨w, h, hrun, his⟩ := gives_runBlock he hbudget d.text span
    (s := { vm.state with frames, scope := frame }) hidle.pending
  have hwithin : (Exec.within frame (runBlock host budget d.text (.mk [.expression e] none span))).Gives
      { vm.state with frames } (some [w]) h := hrun.within
  have hexecute : execute host budget d.text (.mk [.expression e] none span) vm.state =
      (.done (some [w]), { vm.state with frames, heap := h }) := by
    unfold execute
    rw [hchild]
    dsimp only
    rw [hwithin.1]
  refine ⟨d.text, w, { vm with state := { vm.state with frames, heap := h } }, hd.format_eq hv, ?_,
    his, ?_⟩
  · unfold Vm.run
    dsimp only
    rw [hblock]
    dsimp only
    rw [hexecute]
  · rintro rfl
    exact hd.equal_eq (hv.mono hrun.2) his

/-- A table with a name and a boolean for keys, and with a vector in it. -/
theorem run_format_inventory :
    let d : Datum := .table [(.string "n", .vector [.int (-7), .nil]), (.bool true, .string "say \"hi\"")]
    let heap : Heap :=
      { vectors := #[[.int (-7), .nil]]
        tables := #[⟨[(.string "n", .vector 0), (.bool true, .string "say \"hi\"")]⟩] }
    let vm : Vm Recorder := { state := { Recorder.ready with heap } }
    vm.state.Idle ∧ d.Writable ∧ d.Is heap (.table 0) ∧ d.levels = 2 ∧
      ∃ text w vm', heap.format (.table 0) = .ok text ∧
        vm.run (Recorder.host 8) 4 text 3 = (.ok (some [w]), vm') ∧ d.Is vm'.state.heap w ∧
        vm'.state.heap.equal (.table 0) w = .ok true := by
  intro d heap vm
  have hidle : vm.state.Idle := ⟨rfl, rfl, rfl⟩
  have hdigits : (-7 : Int).natAbs < Decimal.tenTo Decimal.digitLimit := by
    have hseven : 7 < Decimal.tenTo 1 := by decide
    exact Nat.lt_of_lt_of_le hseven (Decimal.tenTo_mono (by decide))
  have hitems : (Datum.vector [.int (-7), .nil]).Writable :=
    .vector (List.forall_mem_cons.2 ⟨.scalar (.int hdigits), List.forall_mem_singleton.2 (.scalar .nil)⟩)
  have hd : d.Writable := by
    refine .table ?_ ?_ ?_ ?_ ?_
    · exact List.forall_mem_cons.2
        ⟨.string (by simp [isLineBreak]), List.forall_mem_singleton.2 (.bool true)⟩
    · decide
    · decide
    · simp
    · exact List.forall_mem_cons.2
        ⟨hitems, List.forall_mem_singleton.2 (.scalar (.string (by simp [isLineBreak])))⟩
  have hv : d.Is heap (.table 0) :=
    .table rfl rfl (.cons (.vector rfl (.cons (.int (-7)) (.cons .nil .nil))) (.cons (.string _) .nil))
  obtain ⟨text, w, vm', htext, hrun, his, hequal⟩ :=
    run_format (Recorder.host 8) hidle hd hv (Nat.le_refl 3) (Nat.le_refl 4)
  exact ⟨hidle, hd, hv, rfl, text, w, vm', htext, hrun, his, hequal rfl⟩

end CommandScript
