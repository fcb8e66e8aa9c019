import CommandScript.Proofs.Forward
/-!
# CommandScript — the parser makes progress

Wherever in a text the parser starts, and whatever it is asked to read there, it comes to
an end by itself: no rule uses up the budget it was given, and no loop begins a round where
the one before began. It reads the tokens one behind the other and makes no span that ends
before it begins. A block is read up to a token it is to stop at or to the end of the text;
what is left behind the statement that leaves it is passed over to there.
-/

namespace CommandScript

open Outline

/-! ## Where a block stops -/

namespace Parse

variable {c : Cursor}

/-- A run goes on to the end, or to a token of the given kinds. -/
theorem stops_balancedRun (stop : List TokenKind) (depth : Nat) (ts : List Token) :
    ∀ t ∈ (ts.drop (balancedRun stop depth ts).length).head?, stop.contains t.kind = true := by
  induction ts generalizing depth with
  | nil => exact fun t ht => nomatch ht
  | cons t rest ih =>
    unfold balancedRun
    split
    next h =>
      rintro _ ⟨⟩
      exact h.2
    next => exact ih _

/-- Nothing is left, or the first token of what is left is of one of the kinds. -/
theorem atEnd_or_seesAny {stop : List TokenKind} (hc : c.Sound)
    (h : ∀ t ∈ c.upcoming.head?, stop.contains t.kind = true) :
    c.atEnd = true ∨ c.seesAny stop = true := by
  cases hup : c.upcoming with
  | nil => exact .inl (hc.atEnd_iff.2 hup)
  | cons t rest =>
    refine .inr ?_
    rw [Cursor.seesAny, Cursor.kind, Cursor.token, hup, List.headD_cons]
    exact h t (hup ▸ rfl)

theorem ends_skipUnreachable_stop (stop : List TokenKind) :
    (skipUnreachable stop).Ends c fun _ d => d.atEnd = true ∨ d.seesAny stop = true := by
  unfold skipUnreachable
  refine (ends_bumpWhile _).bind fun _ d _ => Ends.get_bind ?_
  have hstops := stops_balancedRun stop 0 d.upcoming
  dsimp only
  split
  next h =>
    rw [List.isEmpty_iff.1 h] at hstops
    exact Ends.sound fun hd => Ends.pure (atEnd_or_seesAny hd hstops)
  next h =>
    have hmoved := moved_balancedRun h
    refine Ends.sound fun hd => Ends.bind (Q := fun _ e => d.offset ≤ e.offset ∧ e.upcoming =
      d.upcoming.drop (balancedRun stop 0 d.upcoming).length)
      (Ends.of_moved hmoved ⟨hd.offset_le_offset hmoved, rfl⟩) fun _ e he => Ends.spanFrom_bind ?_
    refine (ends_report he.1).imp fun _ f hf h => atEnd_or_seesAny hf ?_
    rw [← List.nil_append f.upcoming, ← h.1.upcoming, he.2]
    exact hstops

end Parse

namespace Grammar

open Parse

variable {limit depth budget : Nat} {self : (n : Nonterminal) → Parse n.Result} {c : Cursor}

/-- **A block is read up to a token it is to stop at, or to the end of the text.** -/
theorem ends_block_stop (hself : Serves budget self) {stop : List TokenKind} {start : Nat}
    (hb : 4 * c.upcoming.length + 2 ≤ budget) :
    (block limit self depth stop start).Ends c fun _ d =>
      d.atEnd = true ∨ d.seesAny stop = true := by
  unfold block
  refine Ends.get_bind ((ends_statements hself (fun _ h => absurd h (by simp))
    (Nat.lt_succ_self _) hb).bind fun r d hr => ?_)
  dsimp only
  split
  next =>
    exact (ends_skipUnreachable_stop stop).bind fun _ e he => Ends.spanFrom_bind (Ends.pure he)
  next h => exact Ends.spanFrom_bind (Ends.pure (hr.2 (by simpa using h)))

/-! ## What is asked for at a cursor -/

theorem budgetFor_eq (n : Nat) : budgetFor n = 4 * n + 7 + 1 := by
  rw [budgetFor]
  omega

/-- Whatever is asked for at a cursor is read token by token. -/
theorem ends_readHere (n : Nonterminal) :
    (readHere limit n).Ends c fun _ d => ∃ ts, c.Moved ts d := by
  refine Ends.get_bind ?_
  rw [budgetFor_eq]
  have hserves := serves_read limit (4 * c.upcoming.length + 7)
  cases n with
  | block depth stop start =>
    refine (ends_block hserves (by omega)).imp fun b d _ hb => ?_
    exact (hb.2.1 _ (.inl rfl)).moved
  | operand depth argument =>
    exact (hserves.rule (.operand depth argument) c (by dsimp only [Nonterminal.slack]; omega)).imp
      fun _ _ _ h => h.1.flush.built.moved
  | expression depth precedence =>
    exact (hserves.rule (.expression depth precedence) c
      (by dsimp only [Nonterminal.slack]; omega)).imp fun _ _ _ h => h.1.flush.built.moved
  | value depth =>
    exact (hserves.rule (.value depth) c (by dsimp only [Nonterminal.slack]; omega)).imp
      fun _ _ _ h => h.1.flush.built.moved

theorem ends_readHere_block {stop : List TokenKind} {start : Nat} :
    (readHere limit (.block depth stop start)).Ends c fun _ d =>
      d.atEnd = true ∨ d.seesAny stop = true := by
  refine Ends.get_bind ?_
  rw [budgetFor_eq]
  exact ends_block_stop (serves_read limit _) (by omega)

theorem ends_statementHere :
    (statementHere limit).Ends c fun _ d => ∃ ts, c.Moved ts d := by
  refine Ends.get_bind ?_
  rw [budgetFor_eq]
  exact (ends_statement (serves_read limit _) (by omega)).imp fun _ _ _ h => h.flush.built.moved

end Grammar

/-! ## The parser at any place of a text -/

/-- A cursor that got to some place of a text, with proper issues on the way. -/
structure Cursor.Within (text : String) (c : Cursor) : Prop where
  moved : ∃ ts, (Cursor.ofTokens (Token.tokenize text)).Moved ts c
  issues : ∀ i ∈ c.found, i.span.Ordered

/-- A step of the parser comes to an end by itself, further on in the text, and makes no
span that ends before it begins: not for a part or an item it gives, not for the brackets
in them, and not for an issue. -/
structure Parse.Proceeds {α : Type} (p : Parse α) (outlines : α → List Outline) (c : Cursor) :
    Prop where
  unstalled : (p c).2.stalled = false
  moved : ∃ ts, c.Moved ts (p c).2
  proper : EachOf Node.Proper (outlines (p c).1)
  issues : ∀ i ∈ (p c).2.found, i.span.Ordered

namespace Cursor.Within

variable {text : String} {c : Cursor}

theorem start (text : String) : (Cursor.ofTokens (Token.tokenize text)).Within text :=
  ⟨⟨[], .refl _⟩, fun _ hi => nomatch hi⟩

theorem sound (h : c.Within text) : c.Sound := by
  obtain ⟨-, -, -, -, -, -, hsound⟩ := Cursor.ofTokens_tokenize text
  obtain ⟨ts, hmoved⟩ := h.moved
  exact hmoved.sound hsound

theorem past (h : c.Within text) : c.Past 0 := ⟨h.sound, Nat.zero_le _, h.issues⟩

theorem proceeds {α : Type} {p : Parse α} {Q : α → Prop} {outlines : α → List Outline}
    (h : c.Within text) (hmoved : p.Ends c fun _ d => ∃ ts, c.Moved ts d)
    (hkeeps : Parse.Keeps 0 p Q) (hproper : ∀ a, Q a → EachOf Node.Proper (outlines a)) :
    p.Proceeds outlines c := by
  obtain ⟨ts, hd⟩ := (hmoved h.sound).2
  obtain ⟨us, hc⟩ := h.moved
  obtain ⟨hpast, hq⟩ := hkeeps c h.past
  exact ⟨(hc.trans hd).stalled, ⟨ts, hd⟩, hproper _ hq, hpast.issues⟩

end Cursor.Within

namespace Nonterminal

/-- The outlines of what was read for a nonterminal. -/
def outlines : (n : Nonterminal) → n.Result → List Outline
  | operand .., r | expression .., r | value .., r => ofOptional r
  | block .., b => [ofBlock b]

theorem Lies.proper {o : Nat} {n : Nonterminal} {r : n.Result} (h : n.Lies o r) :
    EachOf Node.Proper (n.outlines r) := by
  cases n with
  | operand | expression | value => exact proper_optional h
  | block => exact Placed.proper h

end Nonterminal

namespace Grammar

open Parse

variable {limit o : Nat} {c : Cursor}

theorem keeps_readHere (n : Nonterminal) : Keeps o (readHere limit n) (n.Lies o) :=
  .get_bind fun _ _ => lays_read limit _ n o

theorem keeps_statementHere : Keeps o (statementHere limit) fun r =>
    ∀ s ∈ r, Placed o s.span [ofStatement s] :=
  .get_bind fun _ _ => keeps_statement (lays_read limit _)

theorem keeps_source : Keeps o (source limit) fun b => EachOf Node.Proper [ofBlock b] := by
  refine .get_bind fun c _ => (keeps_readHere _).bind fun b hb => .pure ?_
  obtain ⟨body, last, span⟩ := b
  have hparts := (each_node _).1 (eachOf_cons.1 hb.proper).1
  exact (Placed.node (p := .block (.mk body last ⟨0, c.ending.span.stop⟩)) ⟨Nat.le_refl 0,
    Nat.zero_le _⟩ (fun _ h => nomatch h) hparts.2).proper

theorem ends_source_moved : (source limit).Ends c fun _ d => ∃ ts, c.Moved ts d :=
  Ends.get_bind ((ends_readHere _).bind fun _ _ hd => Ends.pure hd)

end Grammar

/-- No span of what reading a text gives ends before it begins. -/
structure Parsed.Proper (p : Parsed) : Prop where
  tokens : ∀ t ∈ p.tokens, t.span.Ordered
  issues : ∀ i ∈ p.issues, i.span.Ordered
  block : ∀ b ∈ p.block, (ofBlock b).Each Node.Proper

theorem Token.tokenize_ordered {text : String} {t : Token} (ht : t ∈ Token.tokenize text) :
    t.span.Ordered := by
  obtain ⟨ts, ending, htokens, htiles, -, hspan⟩ := Token.tokenize_tiles text
  rw [htokens] at ht
  obtain ht | ht := List.mem_append.1 ht
  · exact Nat.le_of_lt (htiles.filled ht)
  · rw [List.mem_singleton.1 ht, hspan]
    exact Span.point_ordered _

theorem Token.tokenize_stop_le {text : String} {t : Token} (ht : t ∈ Token.tokenize text) :
    t.span.stop ≤ text.length := by
  obtain ⟨ts, ending, htokens, htiles, -, hspan⟩ := Token.tokenize_tiles text
  rw [← String.length_toList]
  rw [htokens] at ht
  obtain ht | ht := List.mem_append.1 ht
  · exact htiles.stop_le ht
  · rw [List.mem_singleton.1 ht, hspan]
    exact Nat.le_refl _

theorem Token.issues_ordered {tokens : List Token} (h : ∀ t ∈ tokens, t.span.Ordered) :
    ∀ i ∈ Token.issues tokens, i.span.Ordered := by
  intro i hi
  obtain ⟨t, ht, hissue⟩ := List.mem_filterMap.1 hi
  have hspan : i.span = t.span := by
    unfold Token.issue? at hissue
    split at hissue
    · cases hissue
      rfl
    · split at hissue
      · cases hissue
        rfl
      · cases hissue
  exact hspan ▸ h t ht

section Texts

variable {text : String} (limit : Nat)

theorem parse_of_nil (h : (Cursor.ofTokens (Token.tokenize text)).upcoming = []) : parse text limit =
    ⟨Issue.sort (Token.issues (Token.tokenize text)), none, Token.tokenize text⟩ := by
  rw [parse, if_pos (List.isEmpty_iff.2 h)]

theorem parse_of_ne_nil (h : (Cursor.ofTokens (Token.tokenize text)).upcoming ≠ []) :
    parse text limit = ⟨Issue.sort (Token.issues (Token.tokenize text) ++
        (Grammar.source limit (Cursor.ofTokens (Token.tokenize text))).2.issues),
      some (Grammar.source limit (Cursor.ofTokens (Token.tokenize text))).1, Token.tokenize text⟩ := by
  rw [parse, if_neg (mt List.isEmpty_iff.1 h)]
  rfl

end Texts

theorem parse_proper (text : String) (limit : Nat) : (parse text limit).Proper := by
  have htokens : ∀ t ∈ Token.tokenize text, t.span.Ordered := fun t ht => Token.tokenize_ordered ht
  have hissues := Token.issues_ordered htokens
  unfold parse
  dsimp only
  split
  next =>
    refine ⟨htokens, fun i hi => hissues i (List.mem_mergeSort.1 hi), fun b hb => nomatch hb⟩
  next =>
    have hstart := (Cursor.Within.start text).past
    obtain ⟨hpast, hproper⟩ := Grammar.keeps_source _ hstart
    refine ⟨htokens, fun i hi => ?_, ?_⟩
    · obtain hi | hi := List.mem_append.1 (List.mem_mergeSort.1 hi)
      · exact hissues i hi
      · exact hpast.issues i (List.mem_reverse.1 hi)
    · rintro _ ⟨⟩
      exact (eachOf_cons.1 hproper).1

open Grammar in
/-- **The parser makes progress.** A text is read to its end, and so is whatever is asked
for at any place of it: the whole rest of the text, a block that is to stop at whatever
tokens, a statement, an expression of at least any precedence. No budget is used up and no
loop stands still, no span ends before it begins, and a block is left only at a token it is
to stop at or at the end of the text. -/
theorem parser_proceeds (text : String) (limit : Nat) :
    (parse text limit).Proper ∧ ∀ c : Cursor, c.Within text →
      (source limit).Proceeds (fun b => [ofBlock b]) c ∧
      (∀ n, (readHere limit n).Proceeds n.outlines c) ∧
      (statementHere limit).Proceeds (fun r => ofStatements r.toList) c ∧
      ∀ depth stop start d, (readHere limit (.block depth stop start) c).2 = d →
        d.atEnd = true ∨ d.seesAny stop = true := by
  refine ⟨parse_proper text limit, fun c hc => ⟨?_, fun n => ?_, ?_, ?_⟩⟩
  · exact hc.proceeds ends_source_moved keeps_source fun _ hb => hb
  · exact hc.proceeds (ends_readHere n) (keeps_readHere n) fun _ hr => hr.proper
  · refine hc.proceeds ends_statementHere keeps_statementHere fun r hr => ?_
    cases r with
    | none => exact eachOf_nil
    | some s => exact (hr s rfl).proper
  · rintro depth stop start _ rfl
    exact (ends_readHere_block hc.sound).2

/-- In `break x } y` a block that is to stop at a brace is left there, with two tokens to
come: what stands behind `break` is passed over. -/
theorem parser_proceeds_break :
    (Cursor.ofTokens (Token.tokenize "break x \x7d y")).Within "break x \x7d y" ∧
      (Grammar.readHere 1 (.block 0 [.rightBrace] 0)).Proceeds (fun b => [ofBlock b])
        (Cursor.ofTokens (Token.tokenize "break x \x7d y")) ∧
      (Grammar.readHere 1 (.block 0 [.rightBrace] 0)
        (Cursor.ofTokens (Token.tokenize "break x \x7d y"))).2.upcoming.map (·.kind) =
          [.rightBrace, .identifier] := by
  have hstart := Cursor.Within.start "break x \x7d y"
  refine ⟨hstart, ?_, by decide +kernel⟩
  exact ((parser_proceeds "break x \x7d y" 1).2 _ hstart).2.1 (.block 0 [.rightBrace] 0)

end CommandScript
