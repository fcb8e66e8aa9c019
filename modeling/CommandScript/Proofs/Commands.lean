import CommandScript.Proofs.ReadBack
/-!
# CommandScript — commands by their tokens

A statement that begins with a variable chain is a command where neither an equals sign nor an
operator stands behind the chain. What stands there may begin with a minus all the same, if there
is a blank before the minus and none behind it; so besides what the tokens say it matters what
they come after (`Cursor.Passes.upcoming_eq`, `upcoming_ofTokens`).
-/

namespace CommandScript

open Parse Cursor

namespace Cursor

variable {c d : Cursor} {us vs : List Token} {ws : List Spelling}

/-- What is left behind the tokens that were passed. -/
theorem Passes.upcoming_eq (h : c.Passes ws d) (hup : c.upcoming = us ++ vs)
    (hlength : vs.length = ws.length) : d.upcoming = vs := by
  obtain ⟨ts, hts⟩ := h.moved
  have hall : us ++ vs = ts ++ d.upcoming := hup.symm.trans hts.upcoming
  exact (List.append_inj_right' hall (by rw [hlength, h.shows.length_eq])).symm

/-- Behind the token that was passed, the cursor is at the next one. -/
theorem Passes.token_eq {w : Spelling} (hpasses : c.Passes ws d) (h : c.Shows (w :: ws)) :
    d.token = c.ahead 1 := by
  obtain ⟨ts, hts⟩ := hpasses.moved
  have hlength : ts.length = 1 := by
    have hall := hts.length_add
    rw [h.length_eq, hpasses.shows.length_eq, List.length_cons] at hall
    omega
  obtain ⟨t, rfl⟩ := List.length_eq_one_iff.1 hlength
  exact hts.token_eq

/-- The parser starts before the tokens of a text that it sees. -/
theorem upcoming_ofTokens {text : String} {ts : List Token} {ending : Token}
    (h : Token.tokenize text = ts ++ [ending]) :
    (ofTokens (Token.tokenize text)).upcoming = ts.filter (!·.kind.isHidden) := by
  obtain ⟨us, last, hus, -, hup, -⟩ := ofTokens_tokenize text
  obtain ⟨rfl, rfl⟩ : us = ts ∧ last = ending := by
    have hsame : us ++ [last] = ts ++ [ending] := hus.symm.trans h
    simpa using hsame
  exact hup

end Cursor

namespace Token

/-- A lexeme that the grammar sees makes one token, and there is nothing between that and what
stands behind it. -/
theorem walk_seen (offset : Nat) (around : Surroundings) {c : Char} {tail rest : List Char}
    {k : TokenKind} (h : Lexeme.scan c (tail ++ rest) = ⟨k, tail, false, false⟩)
    (hk : k.isHidden = false) :
    ∃ t, walk offset around 0 (c :: (tail ++ rest)) =
        t :: walk (offset + 1 + tail.length) {} 0 rest ∧
      t.spelling = ⟨k, String.ofList (c :: tail), false, false⟩ ∧
      t.span = ⟨offset, offset + 1 + tail.length⟩ ∧ t.flags = around.flags := by
  have hpast : around.past k = {} := by
    rw [TokenKind.isHidden, Bool.or_eq_false_iff, beq_eq_false_iff_ne] at hk
    rw [Surroundings.past, if_neg hk.2, if_neg (by simp [hk.1])]
  rw [walk]
  dsimp only
  rw [h, walk_append, hpast]
  exact ⟨_, rfl, rfl, rfl, rfl⟩

/-- Behind a name and a blank, a minus has a blank before it and the number behind it has none. -/
theorem exists_upcoming_negated {name cs : List Char} (hname : isIdentifier name = true)
    (hcs : IsNumeral cs) {text : String} (htext : text.toList = name ++ ' ' :: '-' :: cs) :
    ∃ t t₁ t₂, (Cursor.ofTokens (tokenize text)).upcoming = [t] ++ [t₁, t₂] ∧
      t₁.flags.triviaBefore = true ∧ t₂.flags.triviaBefore = false := by
  obtain ⟨c, tail, rfl, hc, htail, -⟩ := eq_cons_of_isIdentifier hname
  obtain ⟨d, digits, rfl, hd, hscan⟩ := hcs
  have hblank : ∀ e ∈ (' ' :: '-' :: d :: digits).head?, continuesIdentifier e = false := by
    simp
    decide
  have hminus : ('-' : Char) ≠ '-' ∨ (d :: digits).head? ≠ some '-' :=
    .inr (by simpa using (Lexeme.only_isDecimalDigit hd).2.2.1)
  obtain ⟨t, hwalk, hspelling, -⟩ := walk_seen 0 {} (Lexeme.scan_word hc htail hblank)
    (Lexeme.isHidden_ofWord _)
  have hspace : Lexeme.scan ' ' ([] ++ '-' :: d :: digits) = ⟨.whitespace, [], false, false⟩ :=
    Lexeme.scan_space (by simp; decide)
  have hsign : Lexeme.scan '-' ([] ++ d :: digits) = ⟨.minus, [], false, false⟩ :=
    Lexeme.scan_sign (by decide) hminus (Lexeme.pairAt_eq_none _ (by decide)) rfl
  obtain ⟨span, hwalk₁⟩ := walk_cons (0 + 1 + tail.length) {} hspace rfl
  obtain ⟨t₁, hwalk₂, hspelling₁, -, hflags₁⟩ := walk_seen (0 + 1 + tail.length + 1 + 0) ⟨false, true⟩
    hsign rfl
  obtain ⟨t₂, hwalk₃, hspelling₂, -, hflags₂⟩ := walk_seen (0 + 1 + tail.length + 1 + 0 + 1 + 0) {}
    (hscan [] fun _ h => absurd h (by simp)) rfl
  rw [List.append_nil] at hwalk₃
  have hall := hwalk.trans (congrArg _ (hwalk₁.trans (congrArg _ (hwalk₂.trans (congrArg _ hwalk₃)))))
  have htokens : ∃ blank ending, blank.kind = .whitespace ∧
      tokenize text = [t, blank, t₁, t₂] ++ [ending] := by
    rw [tokenize, htext]
    exact ⟨_, _, rfl, hall⟩
  obtain ⟨blank, ending, hkind, htokens⟩ := htokens
  refine ⟨t, t₁, t₂, ?_, by rw [hflags₁]; rfl, by rw [hflags₂]; rfl⟩
  rw [Cursor.upcoming_ofTokens htokens]
  have hhidden : blank.kind.isHidden = true := by rw [hkind]; rfl
  have hseen : t.kind.isHidden = false := by
    rw [show t.kind = _ from congrArg Spelling.kind hspelling]
    exact Lexeme.isHidden_ofWord _
  have hseen₁ : t₁.kind.isHidden = false := by
    rw [show t₁.kind = _ from congrArg Spelling.kind hspelling₁]
    rfl
  have hseen₂ : t₂.kind.isHidden = false := by
    rw [show t₂.kind = _ from congrArg Spelling.kind hspelling₂]
    rfl
  simp [hseen, hhidden, hseen₁, hseen₂]

end Token
namespace Grammar

variable {limit depth : Nat} {self : (n : Nonterminal) → Parse n.Result} {c : Cursor}
variable {w : Spelling} {us : List Spelling} {P : Expression → Prop}

/-! ## Arguments -/

/-- At the end of a text, there are no more arguments. -/
theorem passes_arguments_nil (h : c.Shows []) {before : Option Nat} {n : Nat} :
    (arguments self depth before (n + 1)).Ends c fun es d => es = [] ∧ d = c := by
  refine Ends.sound fun hc => Ends.get_bind ?_
  have hends : endsStatement c = true := by
    rw [endsStatement, h.seesAny_eq hc, Bool.or_eq_true]
    exact .inr rfl
  rw [if_pos (by rw [endsArguments, if_pos hends])]
  exact Ends.pure ⟨rfl, rfl⟩

/-- A command without arguments. -/
theorem passes_command_nil (h : c.Shows []) (callee : Var) :
    (command self depth callee).Ends c fun k d =>
      (∃ span, k = .mk callee [] span) ∧ c.Passes [] d := by
  refine Ends.get_bind ((passes_arguments_nil h).bind fun es d hd => Ends.spanFrom_bind (Ends.pure ?_))
  obtain ⟨rfl, rfl⟩ := hd
  exact ⟨⟨_, rfl⟩, .refl h⟩

/-- An argument begins on the line of its command, and with no operator but a minus that is a
sign. -/
theorem endsArguments_eq_false (hc : c.Sound) (h : c.Shows us)
    (hoperand : Spelling.firstKind us ∈ operandStart)
    (hargument : (Spelling.firstKind us).precedence? = none ∨ seesNegative c = true) :
    endsArguments c = false := by
  have hall : ∀ k ∈ operandStart, statementEnd.contains k = false := by decide
  have hgoes : endsStatement c = false := by
    rw [endsStatement, h.onNewLine_eq, h.seesAny_eq hc, hall _ hoperand]
    rfl
  rw [endsArguments, if_neg (by simp [hgoes])]
  obtain hnone | hnegative := hargument
  · have hminus : c.sees .minus = false := by
      rw [h.sees_eq hc, beq_eq_false_iff_ne]
      intro hminus
      rw [hminus] at hnone
      cases hnone
    rw [if_neg (by simp [hminus]), h.kind_eq hc, hnone]
    rfl
  · have hminus : c.sees .minus = true := by
      rw [seesNegative, Bool.and_eq_true, Bool.and_eq_true] at hnegative
      exact hnegative.1.1
    rw [if_pos hminus, hnegative]
    rfl

/-- **A command with one argument**, where an operand is all that stands behind the callee. -/
theorem passes_command_singleton (h : c.Shows (w :: us)) (hgoes : endsArguments c = false)
    (hread : (self (.operand depth true)).Reads (w :: us) P) (callee : Var) :
    (command self depth callee).Ends c fun k d =>
      (∃ e span, k = .mk callee [e] span ∧ P e) ∧ c.Passes [] d := by
  have hone : ∀ n, (arguments self depth none (n + 2)).Ends c fun es d =>
      (∃ e, es = [e] ∧ P e) ∧ c.Passes [] d := by
    intro n
    refine Ends.get_bind ?_
    rw [if_neg (by simp [hgoes])]
    refine (ends_progressed (by simp)).bind fun goes d hd => ?_
    obtain ⟨rfl, rfl⟩ := hd
    rw [if_neg (by simp)]
    refine (hread _ _ closes_nil (by rwa [List.append_nil])).bind fun r d hr => ?_
    obtain ⟨⟨e, rfl, he⟩, hpasses⟩ := hr
    refine (passes_arguments_nil hpasses.shows).bind fun es f hf => Ends.pure ?_
    obtain ⟨rfl, rfl⟩ := hf
    exact ⟨⟨e, rfl, he⟩, hpasses⟩
  -- an operand has a token at least, so there is a round for it and one for the end
  have hn : c.upcoming.length + 1 = us.length + 2 := by rw [h.length_eq, List.length_cons]
  refine Ends.get_bind ?_
  rw [hn]
  refine (hone us.length).bind fun es d hd => Ends.spanFrom_bind (Ends.pure ?_)
  obtain ⟨⟨e, rfl, he⟩, hpasses⟩ := hd
  exact ⟨⟨e, _, rfl, he⟩, hpasses⟩

/-! ## Variable chains -/

/-- A name alone is a chain. -/
theorem passes_var_bare {name : List Char} (hname : isIdentifier name = true)
    (hus : Spelling.firstKind us ≠ .dot) (h : c.Shows (.word name :: us)) :
    (var self depth).Ends c fun v d =>
      (∃ t span, v = .mk (.bare t) [] span ∧ t.text = String.ofList name) ∧ c.Passes us d := by
  refine Ends.sound fun hc => Ends.get_bind ?_
  have hroot : (varRoot self depth).Ends c fun r d =>
      (∃ t, r = .bare t ∧ t.text = String.ofList name) ∧ c.Passes us d := by
    refine Ends.get_bind ?_
    rw [if_pos (by rw [h.sees_eq hc]; exact beq_iff_eq.2 (Spelling.kind_word hname))]
    refine (passes_bump h).bind fun t d ht => Ends.pure ?_
    exact ⟨⟨t, rfl, congrArg Spelling.text ht.1⟩, ht.2⟩
  refine hroot.bind fun r d hr => Ends.get_bind ?_
  obtain ⟨⟨t, rfl, ht⟩, hpasses⟩ := hr
  refine (passes_varSuffixes_nil hpasses.shows hus (Nat.succ_pos _)).bind fun ss e he => ?_
  obtain ⟨rfl, rfl⟩ := he
  exact Ends.spanFrom_bind (Ends.pure ⟨⟨t, _, rfl, ht⟩, hpasses⟩)

/-- **A chain and what is read behind it are a command**, where no equals sign and no operator
follows the chain. -/
theorem ends_varStatement_command {Q : Var → Cursor → Prop} {R : Command → Cursor → Prop}
    (hvar : (var self depth).Ends c Q)
    (hbehind : ∀ v d, d.Sound → Q v d →
      d.sees .equal = false ∧ (seesOperator d && !seesNegative d) = false)
    (hcommand : ∀ v d, d.Sound → Q v d → (command self depth v).Ends d R) :
    (varStatement self depth).Ends c fun s d => ∃ k, s = .command k ∧ R k d := by
  refine Ends.get_bind (hvar.bind fun v d hv => Ends.sound fun hd => Ends.get_bind ?_)
  obtain ⟨hequal, hoperator⟩ := hbehind v d hd hv
  rw [if_neg (by simp [hequal]), if_neg (by simp [hoperator])]
  exact (hcommand v d hd hv).bind fun k e hk => Ends.pure ⟨k, rfl, hk⟩

/-- A statement that begins with a name or with a dollar begins with a chain. -/
theorem ends_statement_var {Q : Statement → Cursor → Prop}
    (hc : c.kind = .identifier ∨ c.kind = .dollar) (h : (varStatement self depth).Ends c Q) :
    (statement limit self depth).Ends c fun r d => ∃ s, r = some s ∧ Q s d := by
  refine Ends.get_bind ?_
  have hmap : (some <$> varStatement self depth).Ends c fun r d => ∃ s, r = some s ∧ Q s d :=
    Ends.map (h.imp fun s d _ hs => ⟨s, rfl, hs⟩)
  obtain hkind | hkind := hc <;> rw [hkind] <;> exact hmap

end Grammar

end CommandScript
