import CommandScript.Parser.Cursor
/-!
# CommandScript — the tokens of a text, one behind the other

The tokens of a text tile it: each begins where the one before it ends, takes at
least one character, and the last one ends where the text ends. Behind them stands
the token for the end of the text, which is the only one of its kind.

So tokens are told apart by where they stand, and none stands in a text twice.
-/

namespace CommandScript

namespace Lexeme

/-- What a string takes stands behind its quote, closed or not. -/
theorem stringTail_spec (quote : Char) (cs : List Char) :
    (stringTail quote cs).kind = .string ∧ (stringTail quote cs).tail <+: cs := by
  fun_induction stringTail quote cs with
  | case1 => exact ⟨rfl, List.nil_prefix⟩
  | case2 rest => exact ⟨rfl, rest, rfl⟩
  | case3 => exact ⟨rfl, List.nil_prefix⟩
  | case4 => exact ⟨rfl, List.prefix_rfl⟩
  | case5 d rest => exact ⟨rfl, d :: rest, rfl⟩
  | case6 d rest _ _ _ _ ih =>
    obtain ⟨hkind, htail⟩ := ih
    exact ⟨hkind, (List.prefix_append_right_inj ['\\', d]).2 htail⟩
  | case7 d rest _ _ _ ih =>
    obtain ⟨hkind, htail⟩ := ih
    exact ⟨hkind, (List.prefix_append_right_inj [d]).2 htail⟩

/-- A number takes characters that stand behind its first digit. -/
theorem numberTail_isPrefix (pointSeen : Bool) (cs : List Char) : numberTail pointSeen cs <+: cs := by
  induction pointSeen, cs using numberTail.induct with
  | case1 => simp [numberTail]
  | case2 pointSeen c rest hdigit ih => simpa [numberTail, hdigit] using ih
  | case3 pointSeen c rest hdigit hpoint ih =>
    rw [numberTail, if_neg hdigit, if_pos hpoint]
    exact List.cons_prefix_cons.2 ⟨rfl, ih⟩
  | case4 pointSeen c rest hdigit hpoint =>
    rw [numberTail, if_neg hdigit, if_neg hpoint]
    exact List.nil_prefix

/-- Unknown characters stand one behind the other. -/
theorem unknownTail_isPrefix (cs : List Char) : unknownTail cs <+: cs := by
  induction cs with
  | nil => simp [unknownTail]
  | cons c rest ih =>
    unfold unknownTail
    split
    · exact List.nil_prefix
    · exact List.cons_prefix_cons.2 ⟨rfl, ih⟩

/-- What is scanned at a character, by what the character is. -/
inductive Scans (c : Char) (rest : List Char) : Lexeme → Prop
  | newline (hc : isLineBreak c = true) : Scans c rest
      ⟨.newline, if c = '\r' ∧ rest.head? = some '\n' then ['\n'] else [], false, false⟩
  | whitespace (hc : isBlank c = true) :
    Scans c rest ⟨.whitespace, rest.takeWhile isBlank, false, false⟩
  | comment (hc : c = '-') (hrest : rest.head? = some '-') :
    Scans c rest ⟨.comment, rest.takeWhile (!isLineBreak ·), false, false⟩
  | string (hc : isQuote c = true) : Scans c rest (stringTail c rest)
  | number (hc : isDecimalDigit c = true) : Scans c rest ⟨.number, numberTail false rest, false, false⟩
  | word (hc : startsIdentifier c = true) : Scans c rest
      ⟨.ofWord (String.ofList (c :: rest.takeWhile continuesIdentifier)),
        rest.takeWhile continuesIdentifier, false, false⟩
  | pair {d : Char} {tail : List Char} {k : TokenKind} (hrest : rest = d :: tail)
    (hk : TokenKind.ofPair c d = some k) : Scans c rest ⟨k, [d], false, false⟩
  | sign {k : TokenKind} (hk : TokenKind.ofSign c = some k) : Scans c rest ⟨k, [], false, false⟩
  | unknown (hc : startsAt c rest = false) : Scans c rest ⟨.unknown, unknownTail rest, false, false⟩

theorem scans (c : Char) (rest : List Char) : Scans c rest (scan c rest) := by
  unfold scan
  split
  next hbreak => exact .newline hbreak
  split
  next hblank => exact .whitespace hblank
  split
  next hcomment => exact .comment hcomment.1 hcomment.2
  split
  next hquote => exact .string hquote
  split
  next hdigit => exact .number hdigit
  split
  next hword => exact .word hword
  next hbreak hblank hcomment hquote hdigit hword =>
    split
    next k hpair =>
      obtain ⟨d, hhead, hk⟩ := Option.bind_eq_some_iff.1 hpair
      obtain ⟨tail, rfl⟩ := List.head?_eq_some_iff.1 hhead
      exact .pair rfl hk
    next hpair =>
      split
      next k hsign => exact .sign hsign
      next hsign => exact .unknown (by simp_all [startsAt])

/-- **A lexeme takes text that stands there.** -/
theorem scan_tail_isPrefix (c : Char) (rest : List Char) : (scan c rest).tail <+: rest := by
  have h := scans c rest
  generalize scan c rest = l at h ⊢
  cases h with
  | newline =>
    dsimp only
    split
    next h =>
      obtain ⟨tail, rfl⟩ := List.head?_eq_some_iff.1 h.2
      exact ⟨tail, rfl⟩
    next => exact List.nil_prefix
  | whitespace | comment | word => exact List.takeWhile_prefix _
  | string => exact (stringTail_spec c rest).2
  | number => exact numberTail_isPrefix false rest
  | @pair d tail _ hrest => exact ⟨tail, hrest.symm⟩
  | sign => exact List.nil_prefix
  | unknown => exact unknownTail_isPrefix rest

/-- A word is an identifier or one of the keywords. -/
theorem ofWord_mem (word : String) :
    TokenKind.ofWord word ∈ .identifier :: TokenKind.keywords.map (·.2) := by
  unfold TokenKind.ofWord
  cases hk : TokenKind.keywords.lookup word with
  | none => exact List.mem_cons_self
  | some k =>
    obtain ⟨l₁, l₂, hl, -⟩ := List.lookup_eq_some_iff.1 hk
    exact List.mem_cons_of_mem _ (List.mem_map.2 ⟨(word, k), by rw [hl]; simp, rfl⟩)

/-- The kinds that no word has and no sign. -/
def shapes : List TokenKind :=
  [.endOfInput, .whitespace, .comment, .newline, .string, .number, .unknown]

theorem ofWord_ne (word : String) {k : TokenKind} (hk : k ∈ shapes) : TokenKind.ofWord word ≠ k := by
  have hall : ∀ k ∈ TokenKind.identifier :: TokenKind.keywords.map (·.2), k ∉ shapes := by
    decide
  rintro rfl
  exact hall _ (ofWord_mem word) hk

theorem ofPair_ne {c d : Char} {k k' : TokenKind} (h : TokenKind.ofPair c d = some k)
    (hk' : k' ∈ .identifier :: shapes) : k ≠ k' := by
  have hall : k ∉ .identifier :: shapes := by
    unfold TokenKind.ofPair at h
    split at h <;> cases h <;> decide
  rintro rfl
  exact hall hk'

theorem ofSign_ne {c : Char} {k k' : TokenKind} (h : TokenKind.ofSign c = some k)
    (hk' : k' ∈ .identifier :: shapes) : k ≠ k' := by
  have hall : k ∉ .identifier :: shapes := by
    unfold TokenKind.ofSign at h
    split at h <;> cases h <;> decide
  rintro rfl
  exact hall hk'

/-- No text is the end of the text. -/
theorem scan_kind_ne_endOfInput (c : Char) (rest : List Char) :
    (scan c rest).kind ≠ .endOfInput := by
  have h := scans c rest
  generalize scan c rest = l at h ⊢
  cases h with
  | newline | whitespace | comment | number | unknown => exact nofun
  | string =>
    rw [(stringTail_spec c rest).1]
    exact nofun
  | word => exact ofWord_ne _ (by decide)
  | pair _ hk => exact ofPair_ne hk (by decide)
  | sign hk => exact ofSign_ne hk (by decide)

end Lexeme

namespace Token

/-- The tokens stand one behind the other from one offset to another, and none of them
is empty or stands for the end of the text. -/
def Tiles : Nat → List Token → Nat → Prop
  | start, [], stop => start = stop
  | start, t :: rest, stop =>
    t.span.start = start ∧ start < t.span.stop ∧ t.kind ≠ .endOfInput ∧ Tiles t.span.stop rest stop

namespace Tiles

variable {start stop : Nat} {ts : List Token} {t : Token}

theorem le (h : Tiles start ts stop) : start ≤ stop := by
  induction ts generalizing start with
  | nil => exact Nat.le_of_eq h
  | cons t rest ih =>
    obtain ⟨-, hlt, -, hrest⟩ := h
    have := ih hrest
    omega

theorem start_le (h : Tiles start ts stop) (ht : t ∈ ts) : start ≤ t.span.start := by
  induction ts generalizing start with
  | nil => exact absurd ht List.not_mem_nil
  | cons u rest ih =>
    obtain ⟨hstart, hlt, -, hrest⟩ := h
    obtain rfl | ht := List.mem_cons.1 ht
    · omega
    · have := ih hrest ht
      omega

theorem stop_le (h : Tiles start ts stop) (ht : t ∈ ts) : t.span.stop ≤ stop := by
  induction ts generalizing start with
  | nil => exact absurd ht List.not_mem_nil
  | cons u rest ih =>
    obtain ⟨-, -, -, hrest⟩ := h
    obtain rfl | ht := List.mem_cons.1 ht
    · exact hrest.le
    · exact ih hrest ht

theorem filled (h : Tiles start ts stop) (ht : t ∈ ts) : t.span.start < t.span.stop := by
  induction ts generalizing start with
  | nil => exact absurd ht List.not_mem_nil
  | cons u rest ih =>
    obtain ⟨hstart, hlt, -, hrest⟩ := h
    obtain rfl | ht := List.mem_cons.1 ht
    · omega
    · exact ih hrest ht

theorem kind_ne_endOfInput (h : Tiles start ts stop) (ht : t ∈ ts) : t.kind ≠ .endOfInput := by
  induction ts generalizing start with
  | nil => exact absurd ht List.not_mem_nil
  | cons u rest ih =>
    obtain ⟨-, -, hkind, hrest⟩ := h
    obtain rfl | ht := List.mem_cons.1 ht
    · exact hkind
    · exact ih hrest ht

/-- A token ends before the ones behind it begin. -/
theorem pairwise (h : Tiles start ts stop) :
    ts.Pairwise fun t u => t.span.stop ≤ u.span.start := by
  induction ts generalizing start with
  | nil => exact .nil
  | cons t rest ih =>
    obtain ⟨-, -, -, hrest⟩ := h
    exact .cons (fun u hu => hrest.start_le hu) (ih hrest)

end Tiles

/-- The walk passes over the characters that a token still covers. -/
theorem walk_append (offset : Nat) (around : Surroundings) (tail rest : List Char) :
    walk offset around tail.length (tail ++ rest) = walk (offset + tail.length) around 0 rest := by
  induction tail generalizing offset with
  | nil => rfl
  | cons c tail ih =>
    rw [List.length_cons, List.cons_append, walk, ih, Nat.add_assoc, Nat.add_comm 1]

/-- **The tokens tile the text.** -/
theorem walk_tiles (cs : List Char) (offset covered : Nat) (around : Surroundings)
    (h : covered ≤ cs.length) :
    ∃ ts ending, walk offset around covered cs = ts ++ [ending] ∧
      Tiles (offset + covered) ts (offset + cs.length) ∧
      ending.kind = .endOfInput ∧ ending.span = .point (offset + cs.length) := by
  induction cs generalizing offset covered around with
  | nil =>
    obtain rfl : covered = 0 := Nat.le_zero.1 h
    exact ⟨[], _, by rw [walk, List.nil_append], rfl, rfl, rfl⟩
  | cons c rest ih =>
    cases covered with
    | succ covered =>
      obtain ⟨ts, ending, hwalk, htiles, hkind, hspan⟩ :=
        ih (offset + 1) covered around (Nat.le_of_succ_le_succ h)
      refine ⟨ts, ending, by rw [walk, hwalk], ?_, hkind, ?_⟩
      · rwa [List.length_cons, Nat.add_comm covered, Nat.add_comm rest.length, ← Nat.add_assoc,
          ← Nat.add_assoc]
      · rw [hspan, List.length_cons, Nat.add_comm rest.length, Nat.add_assoc]
    | zero =>
      have htail : (Lexeme.scan c rest).tail.length ≤ rest.length :=
        (Lexeme.scan_tail_isPrefix c rest).length_le
      obtain ⟨ts, ending, hwalk, htiles, hkind, hspan⟩ :=
        ih (offset + 1) _ (around.past (Lexeme.scan c rest).kind) htail
      refine ⟨_ :: ts, ending, by rw [walk, hwalk, List.cons_append], ?_, hkind, ?_⟩
      · refine ⟨rfl, by dsimp only; omega, Lexeme.scan_kind_ne_endOfInput c rest, ?_⟩
        rwa [List.length_cons, Nat.add_comm rest.length, ← Nat.add_assoc]
      · rw [hspan, List.length_cons, Nat.add_comm rest.length, Nat.add_assoc]

/-- The tokens of a text tile it, and behind them stands the one for its end. -/
theorem tokenize_tiles (text : String) :
    ∃ ts ending, tokenize text = ts ++ [ending] ∧ Tiles 0 ts text.toList.length ∧
      ending.kind = .endOfInput ∧ ending.span = .point text.toList.length := by
  simpa [tokenize] using walk_tiles text.toList 0 0 {} (Nat.zero_le _)

end Token

end CommandScript
