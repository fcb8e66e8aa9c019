import CommandScript.Proofs.Lexemes
import CommandScript.Proofs.Nesting
import CommandScript.Proofs.Spelled
/-!
# CommandScript — the one way around the limit

The callee of a call behind `&` is read at the depth of the `&` itself, and so is what
stands between the brackets of the callee. Such brackets can hold a call again, and no
operand and no brace lies in between. So these brackets nest as deep as a text likes, and
all others nest no deeper than the limit allows.
-/

namespace CommandScript

open Parse Cursor

/-- A call of `a`, or of an item of `a` whose index is such a call, so many levels deep. -/
def calls : Nat → List Char
  | 0 => ['&', 'a']
  | n + 1 => '&' :: 'a' :: '.' :: '[' :: (calls n ++ [']'])

/-- The tokens of such a call. -/
def callTokens : Nat → List Spelling
  | 0 => [.sign .ampersand '&', .word ['a']]
  | n + 1 => .sign .ampersand '&' :: .word ['a'] :: .sign .dot '.' :: .sign .leftBracket '[' ::
      (callTokens n ++ [.sign .rightBracket ']'])

/-- A call is spelled by its tokens, where it is all there is or a bracket closes behind it. -/
theorem spells_calls (n : Nat) {rest : List Char} {ws : List Spelling} (h : Spells rest ws)
    (hrest : ∀ c ∈ rest.head?, c = ']') : Spells (calls n ++ rest) (callTokens n ++ ws) := by
  have hpair : ∀ {c rest}, c ∈ ['&', '-', ',', '[', ']', '\x7b', '\x7d'] →
      Lexeme.pairAt c rest = none := fun hc => Lexeme.pairAt_eq_none _ hc
  induction n generalizing rest ws with
  | zero =>
    refine .sign (by decide) rfl rfl (.inl (by decide)) (hpair (by decide)) ?_
    refine .letter (by decide) (fun d hd => ?_) h
    rw [hrest d hd]
    decide
  | succ n ih =>
    have hclosed : Spells (']' :: rest) (.sign .rightBracket ']' :: ws) :=
      .sign (by decide) rfl rfl (.inl (by decide)) (hpair (by decide)) h
    have hinner := ih hclosed (by simp)
    simp only [calls, callTokens, List.cons_append, List.append_assoc, List.nil_append]
    refine .sign (by decide) rfl rfl (.inl (by decide)) (hpair (by decide)) ?_
    refine .letter (by decide) (by simp; decide) ?_
    refine .sign (by decide) rfl rfl (.inl (by decide)) rfl ?_
    exact .sign (by decide) rfl rfl (.inl (by decide)) (hpair (by decide)) hinner

/-- The tokens of a call are whole lexemes. -/
theorem clean_callTokens (n : Nat) :
    ∀ w ∈ callTokens n, w.kind ≠ .unknown ∧ w.unterminated = false := by
  induction n with
  | zero => decide
  | succ n ih =>
    simp only [callTokens, List.forall_mem_cons, List.forall_mem_append]
    exact ⟨by decide, by decide, by decide, by decide, ih, by decide⟩

theorem lt_length_callTokens (n : Nat) : n < (callTokens n).length := by
  induction n with
  | zero => decide
  | succ n ih =>
    simp only [callTokens, List.length_cons, List.length_append, List.length_nil]
    omega

namespace Grammar

variable {limit budget : Nat} {self : (n : Nonterminal) → Parse n.Result} {c : Cursor}
variable {ws us : List Spelling}

/-- What stands behind a call here: the end of the text, or a closing bracket. -/
def CallEnds (ws : List Spelling) : Prop := Spelling.firstKind ws ∈ [.endOfInput, .rightBracket]

theorem CallEnds.ne_dot (h : CallEnds ws) : Spelling.firstKind ws ≠ .dot := by
  have hall : ∀ k ∈ [TokenKind.endOfInput, .rightBracket], k ≠ .dot := by decide
  exact hall _ h

/-- Where a call ends, it has no more arguments. -/
theorem passes_command (h : c.Shows ws) (hws : CallEnds ws) (callee : Var) :
    (command (read limit (budget + 1)) 0 callee).Ends c fun k d =>
      (∃ span, k = .mk callee [] span) ∧ d = c := by
  have hnone : (arguments (read limit (budget + 1)) 0 none (c.upcoming.length + 1)).Ends c
      fun es d => es = [] ∧ d = c := by
    refine Ends.sound fun hc => Ends.get_bind ?_
    split
    · exact Ends.pure ⟨rfl, rfl⟩
    next hgoes =>
    refine (ends_progressed (by simp)).bind fun goes d hd => ?_
    obtain ⟨rfl, rfl⟩ := hd
    rw [if_neg (by simp)]
    -- the end of the text ends the statement, so it is a bracket that stands here
    have hkind : d.kind = .rightBracket := by
      rw [h.kind_eq hc]
      unfold CallEnds at hws
      simp only [List.mem_cons, List.not_mem_nil, or_false] at hws
      refine hws.resolve_left fun hend => hgoes ?_
      have hends : endsStatement d = true := by
        rw [endsStatement, h.seesAny_eq hc, hend, Bool.or_eq_true]
        exact .inr rfl
      rw [endsArguments, if_pos hends]
    have hoperand : (read limit (budget + 1) (.operand 0 true)).Ends d fun r e => r = none ∧ e = d := by
      change (operand limit (read limit budget) 0 true).Ends d _
      unfold operand
      rw [if_neg (Nat.not_lt_zero limit)]
      refine Ends.get_bind ?_
      rw [hkind]
      exact Ends.pure ⟨rfl, rfl⟩
    refine hoperand.bind fun r e he => ?_
    obtain ⟨rfl, rfl⟩ := he
    exact Ends.pure ⟨rfl, rfl⟩
  refine Ends.get_bind (hnone.bind fun es d hd => Ends.spanFrom_bind (Ends.pure ?_))
  obtain ⟨rfl, rfl⟩ := hd
  exact ⟨⟨_, rfl⟩, rfl⟩

/-- A call nests what the steps of its callee nest. -/
theorem passes_call_of_varSuffixes {n : Nat} (hws : CallEnds ws)
    (h : c.Shows (.sign .ampersand '&' :: .word ['a'] :: us))
    (hsuffixes : ∀ d m, d.Shows us → us.length < m →
      (varSuffixes (read limit (budget + 1)) 0 m).Ends d fun ss e =>
        n ≤ Nesting.suffixes 1 1 true ss ∧ d.Passes ws e) :
    (call (read limit (budget + 1)) 0).Ends c fun k d => n ≤ Nesting.call 1 1 k ∧ c.Passes ws d := by
  refine (passes_bump h).bind fun ampersand c₁ hamp => Ends.sound fun hc₁ => Ends.get_bind ?_
  obtain ⟨-, hamp⟩ := hamp
  have hroot : (varRoot (read limit (budget + 1)) 0).Ends c₁ fun _ d => c₁.Passes us d := by
    refine Ends.get_bind ?_
    rw [if_pos (by rw [hamp.shows.sees_eq hc₁]; rfl)]
    exact (passes_bump hamp.shows).bind fun t d ht => Ends.pure ht.2
  have hvar : (var (read limit (budget + 1)) 0).Ends c₁ fun v d =>
      n ≤ Nesting.chain 1 1 true v ∧ c₁.Passes ws d := by
    refine Ends.get_bind (hroot.bind fun r d hr => Ends.get_bind ?_)
    refine (hsuffixes d _ hr.shows (by rw [hr.shows.length_eq]; omega)).bind fun ss e hss => ?_
    exact Ends.spanFrom_bind (Ends.pure ⟨Nat.le_trans hss.1 (Nat.le_max_right _ _), hr.trans hss.2⟩)
  rw [if_pos (by rw [hamp.shows.seesAny_eq hc₁]; rfl)]
  refine Ends.bind (Q := fun r d => n ≤ Nesting.optionalCommand 1 1 true r ∧ c.Passes ws d)
    (Ends.map (hvar.bind fun v d hv => ?_)) fun k d hd => Ends.spanFrom_bind (Ends.pure hd)
  refine (passes_command hv.2.shows hws v).imp fun k e _ hk => ?_
  obtain ⟨⟨span, rfl⟩, rfl⟩ := hk
  exact ⟨Nat.le_trans hv.1 (Nat.le_max_left _ _), hamp.trans hv.2⟩

/-- **A call nests as deep as it is written**, whatever the limit is. -/
theorem passes_call {n : Nat} (hn : n < budget) (hws : CallEnds ws)
    (h : c.Shows (callTokens n ++ ws)) :
    (call (read limit budget) 0).Ends c fun k d => n ≤ Nesting.call 1 1 k ∧ c.Passes ws d := by
  induction n generalizing c ws budget with
  | zero =>
    obtain ⟨budget, rfl⟩ := Nat.exists_eq_succ_of_ne_zero (Nat.ne_of_gt hn)
    refine passes_call_of_varSuffixes hws h fun d m hd hm => ?_
    refine (passes_varSuffixes_nil hd hws.ne_dot (Nat.zero_lt_of_lt hm)).imp fun ss e _ he => ?_
    obtain ⟨rfl, rfl⟩ := he
    exact ⟨Nat.zero_le _, .refl hd⟩
  | succ n ih =>
    obtain ⟨budget, rfl⟩ := Nat.exists_eq_succ_of_ne_zero (Nat.ne_zero_of_lt hn)
    simp only [callTokens, List.cons_append, List.append_assoc, List.nil_append] at h
    refine passes_call_of_varSuffixes hws h fun d m hd hm => ?_
    have hvalue : ∀ e : Cursor, e.Shows (callTokens n ++ .sign .rightBracket ']' :: ws) →
        (required (read limit (budget + 1)) 0 "Expected an index expression").Ends e fun r f =>
          n ≤ Nesting.optional 1 1 r ∧ e.Passes (.sign .rightBracket ']' :: ws) f := by
      intro e he
      have hcall : (read limit (budget + 1) (.value 0)).Ends e fun r f =>
          (∃ k, r = some (.call k) ∧ n ≤ Nesting.call 1 1 k) ∧
            e.Passes (.sign .rightBracket ']' :: ws) f := by
        refine Ends.sound fun hc => Ends.get_bind ?_
        rw [if_pos (by rw [he.sees_eq hc]; cases n <;> rfl)]
        refine (ih (by omega) (List.mem_cons_of_mem _ List.mem_cons_self) he).bind fun k f hk => Ends.pure ?_
        exact ⟨⟨k, rfl, hk.1⟩, hk.2⟩
      refine hcall.bind fun r f hr => ?_
      obtain ⟨⟨k, rfl, hk⟩, hpasses⟩ := hr
      exact Ends.pure ⟨hk, hpasses⟩
    have hsuffix : (varSuffix (read limit (budget + 1)) 0).Ends d fun s e =>
        n + 1 ≤ Nesting.suffix 1 1 true s ∧ d.Passes ws e := by
      refine (passes_bump hd).bind fun period d₁ hperiod => Ends.sound fun hc₁ => Ends.get_bind ?_
      obtain ⟨-, hperiod⟩ := hperiod
      rw [hperiod.shows.sees_eq hc₁, hperiod.shows.sees_eq hc₁, if_neg (by simp),
        if_pos (by simp)]
      refine (passes_bump hperiod.shows).bind fun left d₂ hleft => ?_
      refine (hvalue d₂ hleft.2.shows).bind fun inner d₃ hinner => ?_
      refine (passes_expect hinner.2.shows rfl).bind fun right d₄ hright => Ends.spanFrom_bind ?_
      obtain ⟨t, rfl, -, hright⟩ := hright
      refine Ends.pure ⟨Nat.succ_le_succ hinner.1, ?_⟩
      exact hperiod.trans (hleft.2.trans (hinner.2.trans hright))
    obtain ⟨m, rfl⟩ := Nat.exists_eq_succ_of_ne_zero (Nat.ne_zero_of_lt hm)
    simp only [List.length_cons] at hm
    refine Ends.sound fun hc => Ends.get_bind ?_
    rw [if_pos (by rw [hd.sees_eq hc]; rfl)]
    refine hsuffix.bind fun s e hs => ?_
    refine (passes_varSuffixes_nil hs.2.shows hws.ne_dot (by omega)).bind fun ss f hf => Ends.pure ?_
    obtain ⟨rfl, rfl⟩ := hf
    exact ⟨Nat.le_trans hs.1 (Nat.le_max_left _ _), hs.2⟩

/-- A call that stands alone is a statement. -/
theorem passes_statement_call {n : Nat} (hn : n < budget) (h : c.Shows (callTokens n)) :
    (statement limit (read limit budget) 0).Ends c fun r d =>
      (∃ s, r = some s ∧ n ≤ Nesting.statement 1 1 s) ∧ c.Passes [] d := by
  refine Ends.sound fun hc => Ends.get_bind ?_
  have hkind : c.kind = .ampersand := by
    rw [h.kind_eq hc]
    cases n <;> rfl
  rw [hkind]
  have hcall : (call (read limit budget) 0).Ends c fun k d =>
      n ≤ Nesting.call 1 1 k ∧ c.Passes [] d :=
    passes_call hn List.mem_cons_self (by simpa using h)
  refine hcall.bind fun k d hk => Ends.pure ?_
  exact ⟨⟨_, rfl, hk.1⟩, hk.2⟩

end Grammar

/-- **The limit bounds how deep a text nests, but for the callees behind `&`.** What a text
nests exceeds what its callees nest by no more than a number that depends on the limit.
There is no such bound for all brackets: under any limit there is a text without an issue
that nests deeper than any given number. -/
theorem nesting_of_parse (text : String) (limit : Nat) :
    (parse text limit).nesting 1 1 ≤ 2 * limit + 3 + (parse text limit).nesting 0 1 ∧
      ∀ n, ∃ deep, (parse deep limit).issues = [] ∧ n ≤ (parse deep limit).nesting 1 1 := by
  refine ⟨Parsed.nesting_le text limit, fun n => ⟨String.ofList (calls n), ?_⟩⟩
  have hspells : Spells (String.ofList (calls n)).toList (callTokens n) := by
    have hcalls := spells_calls n .nil fun c hc => absurd hc (by simp)
    simpa using hcalls
  obtain ⟨ws, hws⟩ : ∃ ws, callTokens n = .sign .ampersand '&' :: ws := by
    cases n <;> exact ⟨_, rfl⟩
  have hlength := lt_length_callTokens n
  rw [hws] at hspells
  obtain ⟨s, span, hblock, hs, hissues⟩ := parse_of_statement limit
    (P := fun s => n ≤ Nesting.statement 1 1 s) hspells (hws ▸ clean_callTokens n) (by decide) fun budget hb => by
      rw [← hws] at hb
      exact Grammar.passes_statement_call (by omega) (hws ▸ hspells.shows)
  refine ⟨hissues, ?_⟩
  rw [Parsed.nesting, hblock]
  exact Nat.le_trans hs (Nat.le_trans (Nat.le_max_left _ _) (Nat.le_max_left _ _))

end CommandScript
