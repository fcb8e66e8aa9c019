import CommandScript.Proofs.AtCaret
import CommandScript.Proofs.Lexemes
/-!
# CommandScript — the names of fields

Behind a period the grammar takes a token for the name of a field only if it is an identifier, and
a token is one only if its text is. What is proved is about results alone (`Parse.Yields`): where
a rule leaves the cursor, and what it reports, does not matter.
-/

namespace CommandScript

open Parse Outline

/-! ## Identifiers of a text -/

namespace Lexeme

/-- What is scanned as an identifier can be written as one. -/
theorem isIdentifier_of_scan {c : Char} {rest : List Char} (h : (scan c rest).kind = .identifier) :
    isIdentifier (c :: (scan c rest).tail) = true := by
  have hscans := scans c rest
  generalize scan c rest = l at h hscans ⊢
  cases hscans with
  | newline | whitespace | comment | number | unknown => cases h
  | string => cases (stringTail_spec c rest).1.symm.trans h
  | word hc =>
    rw [isIdentifier, hc, Bool.true_and, Bool.and_eq_true]
    exact ⟨List.all_takeWhile .., beq_iff_eq.2 h⟩
  | pair _ hk => exact absurd h (ofPair_ne hk (by decide))
  | sign hk => exact absurd h (ofSign_ne hk (by decide))

end Lexeme

namespace Token

variable {cs : List Char} {t : Token} {offset covered : Nat} {around : Surroundings}

theorem isIdentifier_of_mem_walk (ht : t ∈ walk offset around covered cs)
    (hk : t.kind = .identifier) : isIdentifier t.text.toList = true := by
  induction cs generalizing offset covered around with
  | nil =>
    rw [walk, List.mem_singleton] at ht
    rw [ht] at hk
    cases hk
  | cons c rest ih =>
    cases covered with
    | succ covered => exact ih ht
    | zero =>
      rw [walk] at ht
      obtain rfl | ht := List.mem_cons.1 ht
      · rw [String.toList_ofList]
        exact Lexeme.isIdentifier_of_scan hk
      · exact ih ht

/-- **An identifier of a text can be written as one.** -/
theorem isIdentifier_of_mem {text : String} (ht : t ∈ tokenize text) (hk : t.kind = .identifier) :
    isIdentifier t.text.toList = true :=
  isIdentifier_of_mem_walk ht hk

end Token

namespace Outline

theorem ofStatements_eq (ss : List Statement) : ofStatements ss = ss.map ofStatement := by
  induction ss with
  | nil => rfl
  | cons s rest ih => rw [ofStatements, ih, List.map_cons]

theorem ofSuffixes_eq (ss : List VarSuffix) : ofSuffixes ss = ss.map ofSuffix := by
  induction ss with
  | nil => rfl
  | cons s rest ih => rw [ofSuffixes, ih, List.map_cons]

/-- The name of a field in what a statement calls is a token of the tree. -/
theorem mem_tokens_of_fieldToken? {b : Block} {v : Var} {es : List Expression} {span : Span}
    {s : VarSuffix} {t : Token} (hmem : .command (.mk v es span) ∈ b.body) (hs : s ∈ v.suffixes)
    (ht : t ∈ Walk.fieldToken? s) : t ∈ (ofBlock b).tokens := by
  obtain ⟨body, last, blockSpan⟩ := b
  obtain ⟨root, suffixes, varSpan⟩ := v
  have hsuffix : t ∈ (ofSuffix s).tokens := by
    cases s with
    | field period name span =>
      cases ht
      simp [ofSuffix, ofTokens, tokens, tokensOfAll]
    | index => cases ht
  have hvar : t ∈ (ofVar (.mk root suffixes varSpan)).tokens := by
    rw [ofVar, tokens, tokensOfAll, ofSuffixes_eq]
    exact List.mem_append_right _ (tokens_subset_tokensOfAll (List.mem_map_of_mem hs) hsuffix)
  have hcommand :
      t ∈ (ofStatement (.command (.mk (.mk root suffixes varSpan) es span))).tokens := by
    rw [ofStatement, ofCommand, tokens, tokensOfAll]
    exact List.mem_append_left _ hvar
  rw [ofBlock, tokens, tokensOfAll_append, ofStatements_eq]
  exact List.mem_append_left _ (tokens_subset_tokensOfAll (List.mem_map_of_mem hmem) hcommand)

end Outline

/-! ## Results of rules -/

namespace Parse

variable {α β : Type} {p : Parse α} {f : α → Parse β} {c : Cursor} {Q : α → Prop} {P : β → Prop}

/-- What the step gives has the property, wherever it leaves the cursor. -/
def Yields (p : Parse α) (c : Cursor) (Q : α → Prop) : Prop := Q (p c).1

theorem Yields.bind (hp : p.Yields c Q) (h : ∀ a d, Q a → (f a).Yields d P) :
    (p >>= f).Yields c P := h _ _ hp

/-- Whatever comes of the first step, the second one gives what has the property. -/
theorem Yields.any_bind (h : ∀ a d, (f a).Yields d P) : (p >>= f).Yields c P := h _ _

theorem Yields.get_bind {f : Cursor → Parse β} (h : (f c).Yields c P) : (get >>= f).Yields c P := h

theorem Yields.pure {b : β} (h : P b) : (Pure.pure b : Parse β).Yields c P := h

theorem Yields.imp (hp : p.Yields c Q) {R : α → Prop} (h : ∀ a, Q a → R a) : p.Yields c R := h _ hp

theorem Yields.map {f : α → β} (h : p.Yields c fun a => P (f a)) : (f <$> p).Yields c P := h

/-- The token that the cursor is at is read. -/
theorem yields_bump : bump.Yields c fun t => t = c.token := by
  unfold Yields Cursor.token
  cases hup : c.upcoming <;>
    simp only [bump, modifyGet, MonadStateOf.modifyGet, StateT.modifyGet, hup] <;> rfl

end Parse

/-- The names of the fields in a chain are identifiers. -/
def Var.NamesFields (v : Var) : Prop :=
  ∀ s ∈ v.suffixes, ∀ t ∈ Walk.fieldToken? s, t.kind = .identifier

/-- If the statement is a command, the fields in what it calls are named by identifiers. -/
def Statement.NamesFields (s : Statement) : Prop :=
  ∀ v es span, s = .command (.mk v es span) → v.NamesFields

namespace Grammar

variable {limit depth : Nat} {self : (n : Nonterminal) → Parse n.Result} {c : Cursor}
variable {stop : List TokenKind}

theorem yields_varSuffix : (varSuffix self depth).Yields c fun s =>
    ∀ t ∈ Walk.fieldToken? s, t.kind = .identifier := by
  refine .any_bind fun period d => .get_bind ?_
  split
  next hname =>
    refine yields_bump.bind fun t e ht => .any_bind fun span _ => .pure fun u hu => ?_
    cases hu
    exact ht ▸ beq_iff_eq.1 hname
  next =>
    split
    · exact .any_bind fun _ _ => .any_bind fun _ _ => .any_bind fun _ _ => .any_bind fun _ _ =>
        .pure fun _ h => by cases h
    · exact .any_bind fun _ _ => .any_bind fun _ _ => .pure fun _ h => by cases h

theorem yields_varSuffixes (n : Nat) : (varSuffixes self depth n).Yields c fun ss =>
    ∀ s ∈ ss, ∀ t ∈ Walk.fieldToken? s, t.kind = .identifier := by
  induction n generalizing c with
  | zero => exact .any_bind fun _ _ => .pure (List.forall_mem_nil _)
  | succ n ih =>
    refine .get_bind ?_
    split
    · exact yields_varSuffix.bind fun s d hs => ih.bind fun ss e hss =>
        .pure (List.forall_mem_cons.2 ⟨hs, hss⟩)
    · exact .pure (List.forall_mem_nil _)

theorem yields_var : (var self depth).Yields c Var.NamesFields :=
  .get_bind <| .any_bind fun _ _ => .get_bind <| (yields_varSuffixes _).bind fun _ _ hss =>
    .any_bind fun _ _ => .pure hss

/-- A statement that begins with a chain. -/
theorem yields_varStatement : (varStatement self depth).Yields c Statement.NamesFields := by
  refine .get_bind (yields_var.bind fun v d hv => .get_bind ?_)
  split
  · refine .any_bind fun equals e => ?_
    split
    · exact .any_bind fun _ _ => .any_bind fun _ _ => .any_bind fun _ _ =>
        .pure fun _ _ _ h => by cases h
    · exact .any_bind fun _ _ => .any_bind fun _ _ => .pure fun _ _ _ h => by cases h
  split
  · exact .any_bind fun _ _ => .pure fun _ _ _ h => by cases h
  have hcommand : (command self depth v).Yields d fun k => ∃ es span, k = .mk v es span :=
    .get_bind <| .any_bind fun es _ => .any_bind fun span _ => .pure ⟨es, span, rfl⟩
  refine hcommand.bind fun k e hk => .pure fun u es span hu => ?_
  obtain ⟨es', span', rfl⟩ := hk
  cases hu
  exact hv

theorem yields_statement : (statement limit self depth).Yields c fun r =>
    ∀ s ∈ r, s.NamesFields := by
  have hconditional (d : Cursor) : (conditional limit self depth).Yields d Statement.NamesFields :=
    .any_bind fun _ _ => .any_bind fun _ _ => .get_bind <| .any_bind fun _ _ => .any_bind fun _ _ =>
      .any_bind fun _ _ => .pure fun _ _ _ h => by cases h
  have hwhileLoop (d : Cursor) : (whileLoop limit self depth).Yields d Statement.NamesFields :=
    .any_bind fun _ _ => .any_bind fun _ _ => .any_bind fun _ _ => .any_bind fun _ _ =>
      .pure fun _ _ _ h => by cases h
  have hforLoop (d : Cursor) : (forLoop self depth).Yields d Statement.NamesFields := by
    refine .any_bind fun _ _ => .any_bind fun _ _ => .get_bind ?_
    split
    · exact .any_bind fun _ _ => .any_bind fun _ _ => .pure fun _ _ _ h => by cases h
    · exact .any_bind fun _ _ => .any_bind fun _ _ => .pure fun _ _ _ h => by cases h
  have hsome {p : Parse Statement} (hp : p.Yields c Statement.NamesFields) :
      (some <$> p).Yields c fun r => ∀ s ∈ r, s.NamesFields := by
    refine .map (hp.imp fun s hs u hu => ?_)
    cases hu
    exact hs
  -- only a dollar or an identifier can begin a command; the other statements are none
  refine .get_bind ?_
  split
  · exact hsome (hconditional c)
  · exact hsome (hwhileLoop c)
  · exact hsome (hforLoop c)
  · refine .any_bind fun _ _ => .pure fun s hs => ?_
    cases hs
    exact fun _ _ _ h => by cases h
  · exact hsome yields_varStatement
  · exact hsome yields_varStatement
  · split
    · refine .any_bind fun e _ => .pure fun s hs => ?_
      obtain ⟨e, -, rfl⟩ := Option.map_eq_some_iff.1 hs
      exact fun _ _ _ h => by cases h
    · exact .pure fun _ h => by cases h

/-- What is skipped is no command. -/
theorem yields_recover {context : String} : (recover stop context).Yields c fun ss =>
    ∀ s ∈ ss, s.NamesFields := by
  refine .get_bind (.any_bind fun node _ => ?_)
  split
  · exact .pure (List.forall_mem_nil _)
  · exact .any_bind fun _ _ => .pure (List.forall_mem_singleton.2 fun _ _ _ h => by cases h)

theorem yields_someStatements : (someStatements limit self depth stop).Yields c fun ss =>
    ∀ s ∈ ss, s.NamesFields := by
  refine .get_bind ?_
  split
  · refine .any_bind fun node _ => .pure fun s hs => ?_
    obtain ⟨n, -, rfl⟩ := List.mem_map.1 hs
    exact fun _ _ _ h => by cases h
  refine yields_statement.bind fun r d hr => ?_
  split
  · exact yields_recover
  next s =>
    have hs : s.NamesFields := hr s rfl
    refine .get_bind ?_
    split
    · exact .pure (List.forall_mem_singleton.2 hs)
    · exact yields_recover.bind fun ss _ hss => .pure (List.forall_mem_cons.2 ⟨hs, hss⟩)

theorem yields_statements {before : Option Nat} (n : Nat) :
    (statements limit self depth stop before n).Yields c fun r => ∀ s ∈ r.1, s.NamesFields := by
  induction n generalizing c before with
  | zero => exact .any_bind fun _ _ => .pure (List.forall_mem_nil _)
  | succ n ih =>
    refine .get_bind ?_
    split
    · exact .pure (List.forall_mem_nil _)
    refine .any_bind fun _ _ => ?_
    split
    · exact .pure (List.forall_mem_nil _)
    split
    · exact .any_bind fun _ _ => ih
    split
    · exact .any_bind fun _ _ => .pure (List.forall_mem_nil _)
    · exact yields_someStatements.bind fun ss _ hss => ih.bind fun r _ hr =>
        .pure (List.forall_mem_append.2 ⟨hss, hr⟩)

theorem yields_source : (source limit).Yields c fun b => ∀ s ∈ b.body, s.NamesFields := by
  have hblock (budget : Nat) : (read limit (budget + 1) (.block 0 [.endOfInput] 0)).Yields c
      fun b => ∀ s ∈ b.body, s.NamesFields := by
    refine .get_bind ((yields_statements _).bind fun r d hr => ?_)
    obtain ⟨ss, last⟩ := r
    dsimp only
    split
    · exact .any_bind fun _ _ => .any_bind fun _ _ => .pure hr
    · exact .any_bind fun _ _ => .pure hr
  refine .get_bind (Yields.bind (.get_bind (hblock _)) fun b d hb => .pure hb)

end Grammar

/-- **A field that a command calls is named by an identifier.** -/
theorem isIdentifier_of_parse {text : String} {limit : Nat} {b : Block} {v : Var}
    {es : List Expression} {span : Span} {s : VarSuffix} {t : Token}
    (hb : (parse text limit).block = some b) (hmem : .command (.mk v es span) ∈ b.body)
    (hs : s ∈ v.suffixes) (ht : t ∈ Walk.fieldToken? s) : isIdentifier t.text.toList = true := by
  have hnames : ∀ s ∈ b.body, s.NamesFields := by
    unfold parse at hb
    dsimp only at hb
    split at hb
    · cases hb
    · cases hb
      exact Grammar.yields_source
  exact Token.isIdentifier_of_mem
    ((tokens_sublist_tokenize hb).subset (Outline.mem_tokens_of_fieldToken? hmem hs ht))
    (hnames _ hmem v es span rfl s hs t ht)

end CommandScript
