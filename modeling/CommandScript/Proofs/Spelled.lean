import CommandScript.Parser.Basic
import CommandScript.Proofs.Lexemes
import CommandScript.Proofs.Reading
/-!
# CommandScript — texts token by token

What the parser makes of a token depends on its kind, its text and two flags of its
lexeme, and on whether it begins a line. It does not depend on where the token stands.
`Spells` says which tokens a text on one line consists of, without their places. It is
built from the end of the text: a lexeme takes what it takes because of what follows it,
so each lexeme is put before a text that is spelled already.

A cursor shows the tokens that are left (`Cursor.Shows`), and a step that has nothing to
complain about passes some of them (`Cursor.Passes`).
-/

namespace CommandScript

/-- What a token says, wherever it stands. -/
structure Spelling where
  kind : TokenKind
  text : String
  unterminated : Bool := false
  hasEscape : Bool := false
  deriving DecidableEq, Repr

namespace Spelling

/-- The kind of the token that comes first, or that of the end. -/
def firstKind (ws : List Spelling) : TokenKind := (ws.head?.map (·.kind)).getD .endOfInput

/-- A token that is a sign. -/
def sign (k : TokenKind) (c : Char) : Spelling := ⟨k, String.ofList [c], false, false⟩

/-- A token that is a word. -/
def word (cs : List Char) : Spelling := ⟨.ofWord (String.ofList cs), String.ofList cs, false, false⟩

@[simp]
theorem firstKind_nil : firstKind [] = .endOfInput := rfl

@[simp]
theorem firstKind_cons (w : Spelling) (ws : List Spelling) : firstKind (w :: ws) = w.kind := rfl

@[simp]
theorem sign_kind (k : TokenKind) (c : Char) : (sign k c).kind = k := rfl

end Spelling

/-- What a token says. -/
def Token.spelling (t : Token) : Spelling :=
  ⟨t.kind, t.text, t.flags.unterminated, t.flags.hasEscape⟩

/-- A text on one line consists of lexemes that say this, with blanks between them. -/
inductive Spells : List Char → List Spelling → Prop
  | nil : Spells [] []
  /-- A lexeme that the grammar sees. -/
  | token {c : Char} {tail rest : List Char} {ws : List Spelling} {k : TokenKind} {open_ escaped : Bool}
    (scanned : Lexeme.scan c (tail ++ rest) = ⟨k, tail, open_, escaped⟩) (seen : k.isHidden = false)
    (spelled : Spells rest ws) :
    Spells (c :: (tail ++ rest)) (⟨k, String.ofList (c :: tail), open_, escaped⟩ :: ws)
  /-- Blanks. -/
  | blank {c : Char} {tail rest : List Char} {ws : List Spelling}
    (scanned : Lexeme.scan c (tail ++ rest) = ⟨.whitespace, tail, false, false⟩)
    (spelled : Spells rest ws) : Spells (c :: (tail ++ rest)) ws

namespace Token

/-- A lexeme makes one token, and the walk goes on behind it. -/
theorem walk_cons (offset : Nat) (around : Surroundings) {c : Char} {tail rest : List Char}
    {l : Lexeme} (h : Lexeme.scan c (tail ++ rest) = l) (htail : l.tail = tail) :
    ∃ span, walk offset around 0 (c :: (tail ++ rest)) =
      { kind := l.kind, text := String.ofList (c :: tail), span,
        flags := { around.flags with unterminated := l.unterminated, hasEscape := l.hasEscape } } ::
      walk (offset + 1 + tail.length) (around.past l.kind) 0 rest := by
  subst htail
  rw [walk]
  dsimp only
  rw [h, walk_append]
  exact ⟨_, rfl⟩

/-- Where no line break was met, none is met by tokens that are no line breaks. -/
theorem past_lineBreak {around : Surroundings} {k : TokenKind} (h : around.lineBreak = false)
    (hk : k ≠ .newline) : (around.past k).lineBreak = false := by
  unfold Surroundings.past
  rw [if_neg hk]
  split
  · exact h
  · rfl

end Token

namespace Spells

variable {c : Char} {cs tail rest : List Char} {ws : List Spelling} {k : TokenKind}

/-- A sign before a text. -/
theorem sign (hc : (isLineBreak c || isBlank c || isQuote c || isDecimalDigit c ||
      startsIdentifier c) = false)
    (hsign : TokenKind.ofSign c = some k) (seen : k.isHidden = false)
    (hminus : c ≠ '-' ∨ rest.head? ≠ some '-') (hpair : Lexeme.pairAt c rest = none)
    (h : Spells rest ws) : Spells (c :: rest) (Spelling.sign k c :: ws) := by
  have hscan : Lexeme.scan c ([] ++ rest) = ⟨k, [], false, false⟩ :=
    Lexeme.scan_sign hc hminus hpair hsign
  exact .token hscan seen h

/-- A word before a text that does not continue it. -/
theorem word (hc : startsIdentifier c = true) (htail : ∀ d ∈ tail, continuesIdentifier d = true)
    (hrest : ∀ d ∈ rest.head?, continuesIdentifier d = false) (h : Spells rest ws) :
    Spells (c :: (tail ++ rest)) (Spelling.word (c :: tail) :: ws) :=
  .token (Lexeme.scan_word hc htail hrest) (Lexeme.isHidden_ofWord _) h

/-- A word of one letter. -/
theorem letter (hc : startsIdentifier c = true)
    (hrest : ∀ d ∈ rest.head?, continuesIdentifier d = false) (h : Spells rest ws) :
    Spells (c :: rest) (Spelling.word [c] :: ws) :=
  word hc (fun _ hd => absurd hd List.not_mem_nil) hrest h

/-- **A text that is spelled has the tokens that spell it**, all on one line. -/
theorem walk (h : Spells cs ws) (offset : Nat) {around : Surroundings}
    (haround : around.lineBreak = false) :
    ∃ ts ending, Token.walk offset around 0 cs = ts ++ [ending] ∧
      (ts.filter (!·.kind.isHidden)).map Token.spelling = ws ∧
      (∀ t ∈ ts, t.flags.lineBreakBefore = false ∧ (t.kind = .whitespace ∨ t.spelling ∈ ws)) ∧
      ending.kind = .endOfInput ∧ ending.flags.lineBreakBefore = false := by
  induction h generalizing offset around with
  | nil => exact ⟨[], _, rfl, rfl, fun t ht => absurd ht List.not_mem_nil, rfl, haround⟩
  | @token c tail rest ws k open_ escaped scanned seen spelled ih =>
    obtain ⟨span, hwalk⟩ := Token.walk_cons offset around scanned rfl
    have hk : k ≠ .newline := fun hk => absurd seen (by rw [hk]; decide)
    obtain ⟨ts, ending, hrest, hspelled, hline, hkind, hlast⟩ :=
      ih (offset + 1 + tail.length) (Token.past_lineBreak haround hk)
    refine ⟨_ :: ts, ending, by rw [hwalk, hrest, List.cons_append], ?_, ?_, hkind, hlast⟩
    · rw [List.filter_cons_of_pos (by simpa using seen), List.map_cons, hspelled]
      rfl
    · refine List.forall_mem_cons.2 ⟨⟨haround, .inr List.mem_cons_self⟩, fun t ht => ?_⟩
      obtain ⟨hbefore, hmem⟩ := hline t ht
      exact ⟨hbefore, hmem.imp id (List.mem_cons_of_mem _)⟩
  | @blank c tail rest ws scanned spelled ih =>
    obtain ⟨span, hwalk⟩ := Token.walk_cons offset around scanned rfl
    obtain ⟨ts, ending, hrest, hspelled, hline, hkind, hlast⟩ :=
      ih (offset + 1 + tail.length) (Token.past_lineBreak haround (k := .whitespace) (by decide))
    refine ⟨_ :: ts, ending, by rw [hwalk, hrest, List.cons_append], ?_, ?_, hkind, hlast⟩
    · rw [List.filter_cons_of_neg (Bool.not_eq_true _ ▸ rfl), hspelled]
    · exact List.forall_mem_cons.2 ⟨⟨haround, .inl rfl⟩, hline⟩

end Spells

namespace Cursor

variable {c d e : Cursor} {t : Token} {w v : Spelling} {ws us : List Spelling}

/-- What is left to read are tokens on one line that say this. -/
structure Shows (c : Cursor) (ws : List Spelling) : Prop where
  spelled : c.upcoming.map Token.spelling = ws
  oneLine : ∀ t ∈ c.upcoming, t.flags.lineBreakBefore = false
  ended : c.ending.flags.lineBreakBefore = false

/-- Some tokens were passed without a complaint, and these are left. -/
structure Passes (c : Cursor) (ws : List Spelling) (d : Cursor) : Prop where
  moved : ∃ ts, c.Moved ts d
  found : d.found = c.found
  shows : d.Shows ws

namespace Shows

theorem length_eq (h : c.Shows ws) : c.upcoming.length = ws.length := by
  rw [← h.spelled, List.length_map]

theorem kind_eq (hc : c.Sound) (h : c.Shows ws) : c.kind = Spelling.firstKind ws := by
  cases ws with
  | nil =>
    have hnil := List.map_eq_nil_iff.1 h.spelled
    rw [kind, token, hnil]
    exact hc.ending
  | cons w ws =>
    obtain ⟨t, rest, hup, rfl, -⟩ := List.map_eq_cons_iff.1 h.spelled
    rw [kind, token, hup]
    rfl

theorem ahead_kind_eq (hc : c.Sound) (h : c.Shows (w :: ws)) :
    (c.ahead 1).kind = Spelling.firstKind ws := by
  obtain ⟨t, rest, hup, -, hrest⟩ := List.map_eq_cons_iff.1 h.spelled
  rw [ahead, hup]
  subst hrest
  cases rest with
  | nil => exact hc.ending
  | cons u rest => rfl

theorem sees_eq (hc : c.Sound) (h : c.Shows ws) (k : TokenKind) :
    c.sees k = (Spelling.firstKind ws == k) := by
  rw [sees, h.kind_eq hc]

theorem seesAny_eq (hc : c.Sound) (h : c.Shows ws) (ks : List TokenKind) :
    c.seesAny ks = ks.contains (Spelling.firstKind ws) := by
  rw [seesAny, h.kind_eq hc]

/-- No token begins a line. -/
theorem onNewLine_eq (h : c.Shows ws) : c.onNewLine = false := by
  unfold onNewLine token
  cases hup : c.upcoming with
  | nil => exact h.ended
  | cons t rest => exact h.oneLine t (hup ▸ List.mem_cons_self)

end Shows

namespace Passes

theorem refl (h : c.Shows ws) : c.Passes ws c := ⟨⟨[], .refl c⟩, rfl, h⟩

theorem trans (h : c.Passes ws d) (h' : d.Passes us e) : c.Passes us e := by
  obtain ⟨ts, hts⟩ := h.moved
  obtain ⟨vs, hvs⟩ := h'.moved
  exact ⟨⟨ts ++ vs, hts.trans hvs⟩, h'.found.trans h.found, h'.shows⟩

/-- Where fewer tokens are left, the cursor stands further on. -/
theorem offset_lt (hc : c.Sound) (h : c.Passes ws d) (hlt : ws.length < c.upcoming.length) :
    c.offset < d.offset := by
  obtain ⟨ts, hts⟩ := h.moved
  refine hc.offset_lt_offset hts fun hnil => ?_
  have hlength := hts.length_add
  rw [h.shows.length_eq, hnil, List.length_nil] at hlength
  omega

end Passes

end Cursor

/-- **The parser starts at the first of the tokens that spell a text.** -/
theorem Spells.shows {text : String} {ws : List Spelling} (h : Spells text.toList ws) :
    (Cursor.ofTokens (Token.tokenize text)).Shows ws := by
  obtain ⟨ts, ending, htokens, hspelled, hline, hkind, hlast⟩ := h.walk 0 (rfl : ({} : Surroundings).lineBreak = false)
  obtain ⟨us, last, hus, -, hup, hend, -⟩ := Cursor.ofTokens_tokenize text
  obtain ⟨rfl, rfl⟩ : us = ts ∧ last = ending := by
    have hsame : us ++ [last] = ts ++ [ending] := hus.symm.trans htokens
    simpa using hsame
  refine ⟨by rw [hup, hspelled], fun t ht => ?_, by rw [hend]; exact hlast⟩
  rw [hup] at ht
  exact (hline t (List.mem_filter.1 ht).1).1

/-- A text that is spelled by whole lexemes has no issues of its own. -/
theorem Spells.issues_eq {text : String} {ws : List Spelling} (h : Spells text.toList ws)
    (hws : ∀ w ∈ ws, w.kind ≠ .unknown ∧ w.unterminated = false) :
    Token.issues (Token.tokenize text) = [] := by
  obtain ⟨ts, ending, htokens, -, hline, hkind, -⟩ := h.walk 0 (rfl : ({} : Surroundings).lineBreak = false)
  refine List.filterMap_eq_nil_iff.2 fun t ht => ?_
  rw [Token.tokenize, htokens, List.mem_append, List.mem_singleton] at ht
  unfold Token.issue?
  obtain ht | rfl := ht
  · obtain hblank | hmem := (hline t ht).2
    · simp [hblank]
    · have hknown : t.kind ≠ .unknown := (hws _ hmem).1
      have hterminated : t.flags.unterminated = false := (hws _ hmem).2
      rw [if_neg hknown, if_neg (by simp [hterminated])]
  · simp [hkind]

namespace Parse

open Cursor

variable {c : Cursor} {w : Spelling} {ws : List Spelling} {k : TokenKind}

/-! ## What passes a token -/

theorem passes_bump (h : c.Shows (w :: ws)) :
    bump.Ends c fun t d => t.spelling = w ∧ c.Passes ws d := by
  obtain ⟨t, rest, hup, hspelling, hrest⟩ := List.map_eq_cons_iff.1 h.spelled
  have hbump : bump c = (t, { c with upcoming := rest, last := some t }) := by
    simp only [bump, modifyGet, MonadStateOf.modifyGet, StateT.modifyGet, hup]
    rfl
  have hmoved : c.Moved [t] (bump c).2 := by
    rw [hbump]
    exact ⟨hup, rfl, rfl, List.suffix_rfl, rfl, id, .inl⟩
  refine Ends.of_moved hmoved ?_
  rw [hbump] at hmoved ⊢
  exact ⟨hspelling, ⟨_, hmoved⟩, rfl, hrest,
    fun u hu => h.oneLine u (hup ▸ List.mem_cons_of_mem t hu), h.ended⟩

theorem passes_eat (h : c.Shows (w :: ws)) (hk : w.kind = k) :
    (eat k).Ends c fun r d => ∃ t, r = some t ∧ t.spelling = w ∧ c.Passes ws d := by
  refine Ends.sound fun hc => Ends.get_bind ?_
  rw [if_pos (by rw [h.sees_eq hc]; simp [hk])]
  exact Ends.map ((passes_bump h).imp fun t d _ ht => ⟨t, rfl, ht⟩)

theorem passes_expect {opener : Option Token} (h : c.Shows (w :: ws)) (hk : w.kind = k) :
    (expect k opener).Ends c fun r d => ∃ t, r = some t ∧ t.spelling = w ∧ c.Passes ws d := by
  refine (passes_eat h hk).bind fun r d hr => ?_
  obtain ⟨t, rfl, ht⟩ := hr
  exact Ends.pure ⟨t, rfl, ht⟩

end Parse

namespace Grammar

open Parse Cursor

variable {limit depth : Nat} {self : (n : Nonterminal) → Parse n.Result} {c : Cursor}
variable {w : Spelling} {ws : List Spelling} {P : Statement → Prop} {R : Cursor → Prop}

/-! ## Texts of one statement -/

/-- Where no period stands, a variable chain has no more steps. -/
theorem passes_varSuffixes_nil (h : c.Shows ws) (hws : Spelling.firstKind ws ≠ .dot) {n : Nat}
    (hn : 0 < n) : (varSuffixes self depth n).Ends c fun ss d => ss = [] ∧ d = c := by
  obtain ⟨n, rfl⟩ := Nat.exists_eq_add_of_lt hn
  refine Ends.sound fun hc => Ends.get_bind ?_
  rw [if_neg (by rw [h.sees_eq hc]; simpa using hws)]
  exact Ends.pure ⟨rfl, rfl⟩

/-- Where nothing is left, there are no more statements. -/
theorem passes_statements_nil {before : Option Nat} {n : Nat} (h : c.Shows []) :
    (statements limit self depth [.endOfInput] before (n + 1)).Ends c fun r d =>
      r = ([], none) ∧ d = c := by
  refine Ends.sound fun hc => Ends.get_bind ?_
  have hend : c.atEnd = true := by rw [atEnd, h.sees_eq hc]; rfl
  rw [if_pos (by rw [hend, Bool.true_or])]
  exact Ends.pure ⟨rfl, rfl⟩

/-- Where a statement is all there is, a block is made of it alone. -/
theorem passes_block {start : Nat} (hR : ∀ d, R d → d.Shows []) (h : c.Shows (w :: ws))
    (hw : w.kind ∉ [.endOfInput, .semicolon, .unknown, .kwBreak, .kwContinue, .kwReturn])
    (hstatement : (statement limit self depth).Ends c fun r d => (∃ s, r = some s ∧ P s) ∧ R d) :
    (block limit self depth [.endOfInput] start).Ends c fun b d =>
      (∃ s span, b = .mk [s] none span ∧ P s) ∧ R d := by
  simp only [List.mem_cons, List.not_mem_nil, or_false, not_or] at hw
  obtain ⟨hend, hsemicolon, hunknown, hlast⟩ := hw
  have hone : (someStatements limit self depth [.endOfInput]).Ends c fun ss d =>
      (∃ s, ss = [s] ∧ P s) ∧ R d := by
    refine Ends.sound fun hc => Ends.get_bind ?_
    rw [h.sees_eq hc, if_neg (by simpa using hunknown)]
    refine hstatement.bind fun r d hr => Ends.sound fun hd => ?_
    obtain ⟨⟨s, rfl, hs⟩, hover⟩ := hr
    refine Ends.get_bind ?_
    have hends : endsStatement d = true := by
      rw [endsStatement, (hR d hover).seesAny_eq hd, Bool.or_eq_true]
      exact .inr rfl
    rw [if_pos (by rw [hends, Bool.true_or])]
    exact Ends.pure ⟨⟨s, rfl, hs⟩, hover⟩
  have hall : (statements limit self depth [.endOfInput] none (c.upcoming.length + 1)).Ends c
      fun r d => (∃ s, r = ([s], none) ∧ P s) ∧ R d := by
    refine Ends.sound fun hc => Ends.get_bind ?_
    rw [atEnd, h.sees_eq hc, h.seesAny_eq hc,
      if_neg (by simp [hend])]
    refine (ends_progressed (by simp)).bind fun goes d hgoes => ?_
    obtain ⟨rfl, rfl⟩ := hgoes
    rw [if_neg (by simp), h.sees_eq hc, h.seesAny_eq hc,
      if_neg (by simpa using hsemicolon),
      if_neg (by simpa [lastStart] using hlast)]
    refine hone.bind fun ss d hss => ?_
    obtain ⟨⟨s, rfl, hs⟩, hover⟩ := hss
    rw [h.length_eq, List.length_cons]
    refine (passes_statements_nil (hR d hover)).bind fun r e hr => Ends.pure ?_
    obtain ⟨rfl, rfl⟩ := hr
    exact ⟨⟨s, rfl, hs⟩, hover⟩
  refine Ends.get_bind (hall.bind fun r d hr => ?_)
  obtain ⟨⟨s, rfl, hs⟩, hover⟩ := hr
  exact Ends.spanFrom_bind (Ends.pure ⟨⟨s, _, rfl, hs⟩, hover⟩)

/-- The whole text is that statement. -/
theorem passes_source (hR : ∀ d, R d → d.Shows []) (h : c.Shows (w :: ws))
    (hw : w.kind ∉ [.endOfInput, .semicolon, .unknown, .kwBreak, .kwContinue, .kwReturn])
    (hstatement : ∀ budget, 4 * (w :: ws).length + 3 ≤ budget →
      (statement limit (read limit budget) 0).Ends c fun r d => (∃ s, r = some s ∧ P s) ∧ R d) :
    (source limit).Ends c fun b d => (∃ s span, b = .mk [s] none span ∧ P s) ∧ R d := by
  have hhere : (readHere limit (.block 0 [.endOfInput] 0)).Ends c fun b d =>
      (∃ s span, b = .mk [s] none span ∧ P s) ∧ R d := by
    have hbudget : budgetFor c.upcoming.length = 4 * (w :: ws).length + 7 + 1 := by
      rw [budgetFor, h.length_eq]
      omega
    refine Ends.get_bind ?_
    rw [hbudget]
    exact passes_block hR h hw (hstatement _ (by omega))
  refine Ends.get_bind (hhere.bind fun b d hb => Ends.pure ?_)
  obtain ⟨⟨s, span, rfl, hs⟩, hover⟩ := hb
  exact ⟨⟨s, _, rfl, hs⟩, hover⟩

end Grammar

/-- A text of one statement is read as it, whatever there is to say about it. -/
theorem block_of_statement (limit : Nat) {text : String} {w : Spelling} {ws : List Spelling}
    {P : Statement → Prop} {R : Cursor → Prop} (hR : ∀ d, R d → d.Shows [])
    (h : Spells text.toList (w :: ws))
    (hw : w.kind ∉ [.endOfInput, .semicolon, .unknown, .kwBreak, .kwContinue, .kwReturn])
    (hstatement : ∀ budget, 4 * (w :: ws).length + 3 ≤ budget →
      (Grammar.statement limit (Grammar.read limit budget) 0).Ends
        (Cursor.ofTokens (Token.tokenize text)) fun r d => (∃ s, r = some s ∧ P s) ∧ R d) :
    ∃ s span d, (parse text limit).block = some (.mk [s] none span) ∧ P s ∧ R d ∧
      (parse text limit).issues = Issue.sort (Token.issues (Token.tokenize text) ++ d.issues) := by
  have hshows : (Cursor.ofTokens (Token.tokenize text)).Shows (w :: ws) := h.shows
  obtain ⟨-, -, -, -, -, -, hsound⟩ := Cursor.ofTokens_tokenize text
  obtain ⟨-, ⟨s, span, hblock, hs⟩, hover⟩ := Grammar.passes_source hR hshows hw hstatement hsound
  have hup : (Cursor.ofTokens (Token.tokenize text)).upcoming.isEmpty = false := by
    have hlength := hshows.length_eq
    cases hnil : (Cursor.ofTokens (Token.tokenize text)).upcoming with
    | nil => simp [hnil] at hlength
    | cons t rest => rfl
  unfold parse
  dsimp only
  rw [if_neg (by simp [hup])]
  exact ⟨s, span, _, congrArg some hblock, hs, hover, rfl⟩

/-- **A text of one statement is read as it, without an issue.** -/
theorem parse_of_statement (limit : Nat) {text : String} {w : Spelling} {ws : List Spelling}
    {P : Statement → Prop} (h : Spells text.toList (w :: ws))
    (hclean : ∀ v ∈ w :: ws, v.kind ≠ .unknown ∧ v.unterminated = false)
    (hw : w.kind ∉ [.endOfInput, .semicolon, .unknown, .kwBreak, .kwContinue, .kwReturn])
    (hstatement : ∀ budget, 4 * (w :: ws).length + 3 ≤ budget →
      (Grammar.statement limit (Grammar.read limit budget) 0).Ends
        (Cursor.ofTokens (Token.tokenize text)) fun r d =>
          (∃ s, r = some s ∧ P s) ∧ (Cursor.ofTokens (Token.tokenize text)).Passes [] d) :
    ∃ s span, (parse text limit).block = some (.mk [s] none span) ∧ P s ∧
      (parse text limit).issues = [] := by
  obtain ⟨s, span, d, hblock, hs, hpasses, hissues⟩ :=
    block_of_statement limit (fun _ hd => hd.shows) h hw hstatement
  have hfound : d.issues = [] := by
    rw [Cursor.issues, hpasses.found]
    rfl
  refine ⟨s, span, hblock, hs, ?_⟩
  rw [hissues, hfound, h.issues_eq hclean]
  simp [Issue.sort]

end CommandScript
