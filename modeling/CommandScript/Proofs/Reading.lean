import CommandScript.Parser.Recovery
import CommandScript.Proofs.Lexed
/-!
# CommandScript — steps of the parser

What every step of the parser does to the cursor is one thing: it reads tokens from
the front, one behind the other, and may find issues. `Cursor.Moved` says so, and
names the tokens. A cursor keeps what a text gives it (`Cursor.Sound`): visible tokens
in the order of the text, and behind them the end.

`Parse.Ends` asks something of what a step gives and of where it leaves the cursor.
Soundness goes along without being mentioned: a step is only looked at from a sound
cursor, and leaves one.
-/

namespace CommandScript

variable {α β : Type} {c d e : Cursor} {t : Token} {ts us : List Token}

/-- The tokens behind the semicolons that they begin with. -/
def Token.pastSemicolons (ts : List Token) : List Token := ts.dropWhile (·.kind == .semicolon)

theorem Token.pastSemicolons_eq_nil (h : ∀ t ∈ ts, (t.kind == .semicolon) = true) :
    Token.pastSemicolons ts = [] := by
  rw [pastSemicolons, ← List.append_nil ts, List.dropWhile_append_of_pos h]
  rfl

/-- Tokens are nothing but semicolons if there is nothing behind the semicolons. -/
theorem Token.kind_of_pastSemicolons (h : Token.pastSemicolons ts = []) :
    ∀ t ∈ ts, t.kind = .semicolon := by
  intro t ht
  rw [← List.takeWhile_append_dropWhile (p := (·.kind == .semicolon)) (l := ts)] at ht
  rw [show ts.dropWhile (·.kind == .semicolon) = [] from h, List.append_nil] at ht
  exact eq_of_beq (List.all_eq_true.1 (List.all_takeWhile ..) t ht)

namespace Cursor

/-- A cursor on its way through the tokens of a text. -/
structure Sound (c : Cursor) : Prop where
  ending : c.ending.kind = .endOfInput
  inner : ∀ t ∈ c.upcoming, t.kind ≠ .endOfInput
  filled : ∀ t ∈ c.upcoming, t.span.start < t.span.stop
  ordered : c.upcoming.Pairwise fun t u => t.span.stop ≤ u.span.start
  behind : ∀ t ∈ c.upcoming, c.lastStop ≤ t.span.start
  before : ∀ t ∈ c.upcoming, t.span.stop ≤ c.ending.span.start
  ended : c.lastStop ≤ c.ending.span.start
  closing : c.ending.span.start = c.ending.span.stop

/-- Something was reported. -/
def Told (c : Cursor) : Prop := c.found ≠ [] ∨ c.deepReported = true

/-- An issue says that the nesting is too deep. -/
def TooDeep (c : Cursor) : Prop := ∃ i ∈ c.found, i.code = Issue.Kind.tooDeep.code

theorem TooDeep.later (h : c.TooDeep) (hfound : c.found <:+ d.found) : d.TooDeep := by
  obtain ⟨i, hi, hcode⟩ := h
  exact ⟨i, hfound.subset hi, hcode⟩

/-- What was reported stays reported. -/
theorem Told.later (h : c.Told) (hfound : c.found <:+ d.found)
    (hdeep : c.deepReported = true → d.deepReported = true) : d.Told := by
  obtain hc | hc := h
  · exact .inl fun hd => hc (List.eq_nil_of_suffix_nil (hd ▸ hfound))
  · exact .inr (hdeep hc)

/-- Of the tokens that are passed over between two cursors, what stands behind the semicolons
they begin with is reported in one issue, unless an issue has been found before that begins
there. -/
def Reports (c : Cursor) (ts : List Token) (d : Cursor) : Prop :=
  ∀ t ∈ (Token.pastSemicolons ts).head?, ∀ u ∈ (Token.pastSemicolons ts).getLast?,
    Issue.of .unreachableStatement ⟨t.span.start, u.span.stop⟩ ∈ d.found ∨
      ∃ i ∈ c.found, i.span.start = t.span.start

/-- From `c` to `d` the tokens `ts` were read. -/
structure Moved (c : Cursor) (ts : List Token) (d : Cursor) : Prop where
  upcoming : c.upcoming = ts ++ d.upcoming
  last : d.last = ts.getLast?.or c.last
  ending : d.ending = c.ending
  found : c.found <:+ d.found
  stalled : d.stalled = c.stalled
  deep : c.deepReported = true → d.deepReported = true
  /-- Nesting is not said to be too deep without an issue that says so. -/
  deepFound : d.deepReported = true → c.deepReported = true ∨ d.TooDeep

namespace Moved

theorem refl (c : Cursor) : Moved c [] c :=
  ⟨rfl, rfl, rfl, List.suffix_rfl, rfl, id, .inl⟩

theorem trans (h : Moved c ts d) (h' : Moved d us e) : Moved c (ts ++ us) e where
  upcoming := by rw [h.upcoming, h'.upcoming, List.append_assoc]
  last := by rw [h'.last, h.last, List.getLast?_append, Option.or_assoc]
  ending := h'.ending.trans h.ending
  found := h.found.trans h'.found
  stalled := h'.stalled.trans h.stalled
  deep := h'.deep ∘ h.deep
  deepFound hdeep := by
    obtain hd | he := h'.deepFound hdeep
    · exact (h.deepFound hd).imp_right (·.later h'.found)
    · exact .inr he

theorem length_add (h : Moved c ts d) : ts.length + d.upcoming.length = c.upcoming.length := by
  rw [h.upcoming, List.length_append]

theorem length_le (h : Moved c ts d) : d.upcoming.length ≤ c.upcoming.length := by
  have := h.length_add
  omega

theorem length_succ (h : Moved c [t] d) : d.upcoming.length + 1 = c.upcoming.length := by
  rw [← h.length_add, List.length_singleton, Nat.add_comm]

theorem told (h : Moved c ts d) (hc : c.Told) : d.Told := hc.later h.found h.deep

/-- What was reported, was reported as an issue. -/
theorem found_ne_nil (h : Moved c ts d) (hc : c.deepReported = false) (hd : d.Told) :
    d.found ≠ [] := by
  obtain hfound | hdeep := hd
  · exact hfound
  · obtain hdeep | ⟨i, hi, -⟩ := h.deepFound hdeep
    · rw [hc] at hdeep
      cases hdeep
    · exact List.ne_nil_of_mem hi

/-- Where nothing was read, the token read last is the same. -/
theorem last_nil (h : Moved c [] d) : d.last = c.last := h.last

theorem lastStop_eq (h : Moved c (us ++ [t]) d) : d.lastStop = t.span.stop := by
  rw [lastStop, h.last]
  simp

theorem lastStop_one (h : Moved c [t] d) : d.lastStop = t.span.stop := by
  rw [lastStop, h.last]
  rfl

/-- Where nothing was read, the cursor is at the same token. -/
theorem token_nil (h : Moved c [] d) : d.token = c.token := by
  rw [token, token, h.ending, h.upcoming, List.nil_append]

/-- Behind one token stands the next one. -/
theorem token_eq (h : Moved c [t] d) : d.token = c.ahead 1 := by
  rw [token, ahead, h.ending, h.upcoming]
  cases d.upcoming <;> rfl

/-- A cursor stays sound on its way. -/
theorem sound (h : Moved c ts d) (hc : c.Sound) : d.Sound := by
  have hmem : ∀ t ∈ d.upcoming, t ∈ c.upcoming := fun t ht => by
    rw [h.upcoming]
    exact List.mem_append_right ts ht
  have hordered := hc.ordered
  rw [h.upcoming, List.pairwise_append] at hordered
  obtain ⟨-, hordered, hcross⟩ := hordered
  have hlast : d.lastStop = c.lastStop ∨ ∃ t ∈ ts, d.lastStop = t.span.stop := by
    unfold lastStop
    rw [h.last]
    cases hts : ts.getLast? with
    | none => exact .inl rfl
    | some t => exact .inr ⟨t, List.mem_of_getLast? hts, rfl⟩
  have hread : ∀ t ∈ ts, t ∈ c.upcoming := fun t ht => by
    rw [h.upcoming]
    exact List.mem_append_left _ ht
  refine ⟨?_, fun t ht => hc.inner t (hmem t ht), fun t ht => hc.filled t (hmem t ht), hordered,
    ?_, ?_, ?_, by rw [h.ending, hc.closing]⟩
  · rw [h.ending]
    exact hc.ending
  · intro t ht
    obtain hlast | ⟨u, hu, hlast⟩ := hlast
    · rw [hlast]
      exact hc.behind t (hmem t ht)
    · rw [hlast]
      exact hcross u hu t ht
  · intro t ht
    rw [h.ending]
    exact hc.before t (hmem t ht)
  · rw [h.ending]
    obtain hlast | ⟨u, hu, hlast⟩ := hlast
    · rw [hlast]
      exact hc.ended
    · rw [hlast]
      exact hc.before u (hread u hu)

end Moved

/-- From `c` to `d` the tokens `ts` were read, and what was found on the way begins no later
than where `d` is. -/
structure Advanced (c : Cursor) (ts : List Token) (d : Cursor) : Prop extends Moved c ts d where
  early : c.Sound → ∀ i ∈ d.found, i ∈ c.found ∨ i.span.start ≤ d.offset

namespace Sound

/-- At the end nothing is left. -/
theorem atEnd_iff (hc : c.Sound) : c.atEnd = true ↔ c.upcoming = [] := by
  unfold atEnd sees kind token
  cases h : c.upcoming with
  | nil => simp [hc.ending]
  | cons t rest => simp [hc.inner t (h ▸ List.mem_cons_self)]

/-- A cursor that sees a kind other than the end is at a token of that kind. -/
theorem exists_of_kind (hc : c.Sound) {k : TokenKind} (h : c.kind = k) (hk : k ≠ .endOfInput) :
    ∃ t rest, c.upcoming = t :: rest ∧ t.kind = k := by
  unfold kind token at h
  cases hup : c.upcoming with
  | nil =>
    rw [hup] at h
    exact absurd (h.symm.trans hc.ending) hk
  | cons t rest =>
    rw [hup] at h
    exact ⟨t, rest, rfl, h⟩

/-- The token the cursor is at ends before the cursor's place further on. -/
theorem offset_lt (hc : c.Sound) (h : Moved c (t :: ts) d) :
    c.offset = t.span.start ∧ t.span.stop ≤ d.offset := by
  have hoffset : c.offset = t.span.start := by
    unfold offset token
    rw [h.upcoming]
    rfl
  refine ⟨hoffset, ?_⟩
  have hord := hc.ordered
  rw [h.upcoming, List.cons_append, List.pairwise_cons] at hord
  unfold offset token
  cases hd : d.upcoming with
  | nil =>
    rw [List.headD_nil, h.ending]
    exact hc.before t (by rw [h.upcoming]; exact List.mem_cons_self)
  | cons u rest => exact hord.1 u (by rw [hd]; simp)

/-- **Reading moves the cursor's place forward.** -/
theorem offset_lt_offset (hc : c.Sound) (h : Moved c ts d) (hts : ts ≠ []) :
    c.offset < d.offset := by
  obtain ⟨t, ts, rfl⟩ := List.exists_cons_of_ne_nil hts
  obtain ⟨hoffset, hstop⟩ := hc.offset_lt h
  have hfilled := hc.filled t (by rw [h.upcoming]; exact List.mem_cons_self)
  omega

/-- **A token begins before the ones behind it begin.** -/
theorem increasing (hc : c.Sound) :
    c.upcoming.Pairwise fun t u => t.span.start < u.span.start := by
  refine (List.Pairwise.and_mem.1 hc.ordered).imp fun h => ?_
  exact Nat.lt_of_lt_of_le (hc.filled _ h.1) h.2.2

theorem offset_le_offset (hc : c.Sound) (h : Moved c ts d) : c.offset ≤ d.offset := by
  cases ts with
  | nil => exact Nat.le_of_eq (by rw [offset, offset, h.token_nil])
  | cons t rest => exact Nat.le_of_lt (hc.offset_lt_offset h (List.cons_ne_nil t rest))

end Sound

namespace Advanced

theorem refl (c : Cursor) : Advanced c [] c := ⟨.refl c, fun _ _ => .inl⟩

theorem trans (h : Advanced c ts d) (h' : Advanced d us e) : Advanced c (ts ++ us) e where
  toMoved := h.toMoved.trans h'.toMoved
  early hc i hi := by
    have hd := h.sound hc
    obtain hi | hi := h'.early hd i hi
    · refine (h.early hc i hi).imp_right fun hi => ?_
      exact Nat.le_trans hi (hd.offset_le_offset h'.toMoved)
    · exact .inr hi

/-- A cursor that finds nothing on its way. -/
theorem of_found_eq (h : Moved c ts d) (hfound : d.found = c.found) : Advanced c ts d :=
  ⟨h, fun _ _ hi => .inl (hfound ▸ hi)⟩

end Advanced

namespace Sound

/-- The cursor's place is that of the first token still to be read. -/
theorem offset_le (hc : c.Sound) (ht : t ∈ c.upcoming) : c.offset ≤ t.span.start := by
  unfold offset token
  have hord := hc.ordered
  cases hup : c.upcoming with
  | nil =>
    rw [hup] at ht
    exact absurd ht List.not_mem_nil
  | cons u rest =>
    rw [hup] at ht hord
    obtain rfl | ht := List.mem_cons.1 ht
    · exact Nat.le_refl _
    · have hfilled := hc.filled u (hup ▸ List.mem_cons_self)
      have hbefore := (List.pairwise_cons.1 hord).1 t ht
      rw [List.headD_cons]
      omega

/-- What was read ended before the end of what was read last. -/
theorem stop_le (hc : c.Sound) (h : Moved c ts d) (ht : t ∈ ts) : t.span.stop ≤ d.lastStop := by
  obtain ⟨init, u, hts⟩ := (List.eq_nil_or_concat ts).resolve_left (List.ne_nil_of_mem ht)
  rw [List.concat_eq_append] at hts
  subst hts
  have hord := hc.ordered
  rw [h.lastStop_eq]
  rw [h.upcoming, List.pairwise_append, List.pairwise_append] at hord
  obtain ht | ht := List.mem_append.1 ht
  · have hcross := hord.1.2.2 t ht u List.mem_cons_self
    have hfilled := hc.filled u (by rw [h.upcoming]; simp)
    omega
  · exact Nat.le_of_eq (by rw [List.mem_singleton.1 ht])

/-- The token read last ended before the cursor's place. -/
theorem lastStop_le (hc : c.Sound) : c.lastStop ≤ c.offset := by
  unfold offset token
  cases hup : c.upcoming with
  | nil => exact hc.ended
  | cons t rest => exact hc.behind t (hup ▸ List.mem_cons_self)

/-- What was read ended behind where it began. -/
theorem offset_le_lastStop (hc : c.Sound) (h : Moved c ts d)
    (hlt : d.upcoming.length < c.upcoming.length) : c.offset ≤ d.lastStop := by
  cases ts with
  | nil =>
    have hlength := h.length_add
    rw [List.length_nil] at hlength
    omega
  | cons t rest =>
    have hfilled := hc.filled t (by rw [h.upcoming]; exact List.mem_cons_self)
    have hstop := hc.stop_le h List.mem_cons_self
    have hoffset := (hc.offset_lt h).1
    omega

/-- The end of what was read last moves forward. -/
theorem lastStop_le_lastStop (hc : c.Sound) (h : Moved c ts d) : c.lastStop ≤ d.lastStop := by
  cases ts with
  | nil =>
    exact Nat.le_of_eq (by rw [lastStop, lastStop, h.last_nil])
  | cons t rest =>
    have hlength := h.length_add
    rw [List.length_cons] at hlength
    exact Nat.le_trans hc.lastStop_le (hc.offset_le_lastStop h (by omega))

/-- The span of one token is the span from where it was read. -/
theorem span_eq (hc : c.Sound) (h : Moved c [t] d) : t.span = d.spanFrom c.offset := by
  obtain ⟨hoffset, -⟩ := hc.offset_lt h
  have hfilled := hc.filled t (by rw [h.upcoming]; exact List.mem_cons_self)
  have hlast : d.lastStop = t.span.stop := h.lastStop_one
  rw [spanFrom, hoffset, hlast, Nat.max_eq_right (Nat.le_of_lt hfilled)]

end Sound

/-- The cursor before the first token of a text is sound, and what it holds are the
tokens of the text that are not hidden. -/
theorem ofTokens_tokenize (text : String) :
    ∃ ts ending, Token.tokenize text = ts ++ [ending] ∧ ending.kind = .endOfInput ∧
      (ofTokens (Token.tokenize text)).upcoming = ts.filter (!·.kind.isHidden) ∧
      (ofTokens (Token.tokenize text)).ending = ending ∧
      (ofTokens (Token.tokenize text)).Sound := by
  obtain ⟨ts, ending, htokens, htiles, hkind, hspan⟩ := Token.tokenize_tiles text
  have hshown : (!ending.kind.isHidden) = true := by rw [hkind]; rfl
  have hseen : Token.visible (Token.tokenize text) =
      ts.filter (!·.kind.isHidden) ++ [ending] := by
    rw [htokens, Token.visible, List.filter_append]
    simp [hshown]
  have hup : (ofTokens (Token.tokenize text)).upcoming = ts.filter (!·.kind.isHidden) := by
    unfold ofTokens
    dsimp only
    rw [hseen, List.filter_append, List.filter_eq_self.2, List.filter_cons_of_neg,
      List.filter_nil, List.append_nil]
    · simp [hkind]
    · intro t ht
      simpa using htiles.kind_ne_endOfInput (List.mem_filter.1 ht).1
  have hend : (ofTokens (Token.tokenize text)).ending = ending := by
    unfold ofTokens
    dsimp only
    rw [hseen, List.getLast?_concat, Option.getD_some]
  have hmem : ∀ t ∈ (ofTokens (Token.tokenize text)).upcoming, t ∈ ts := fun t ht =>
    (List.mem_filter.1 (hup ▸ ht)).1
  refine ⟨ts, ending, htokens, hkind, hup, hend, ⟨?_, ?_, ?_, ?_, ?_, ?_, ?_, ?_⟩⟩
  · rw [hend, hkind]
  · exact fun t ht => htiles.kind_ne_endOfInput (hmem t ht)
  · exact fun t ht => htiles.filled (hmem t ht)
  · rw [hup]
    exact htiles.pairwise.filter _
  · exact fun t _ => Nat.zero_le _
  · intro t ht
    rw [hend, hspan]
    exact htiles.stop_le (hmem t ht)
  · exact Nat.zero_le _
  · rw [hend, hspan]
    rfl

end Cursor

namespace Parse

/-- From a sound cursor, a step leaves a sound one, with `Q` of what it gives and of
where it leaves the cursor. -/
def Ends (p : Parse α) (c : Cursor) (Q : α → Cursor → Prop) : Prop :=
  c.Sound → (p c).2.Sound ∧ Q (p c).1 (p c).2

variable {p : Parse α} {f : α → Parse β} {Q Q' : α → Cursor → Prop} {R : β → Cursor → Prop}

namespace Ends

theorem imp (h : p.Ends c Q) (hQ : ∀ a d, d.Sound → Q a d → Q' a d) : p.Ends c Q' := fun hc =>
  have ⟨hd, hq⟩ := h hc
  ⟨hd, hQ _ _ hd hq⟩

/-- Two steps in a row: the second one starts where the first one ends. -/
theorem bind (h : p.Ends c Q) (hf : ∀ a d, Q a d → (f a).Ends d R) : (p >>= f).Ends c R := fun hc =>
  have ⟨hd, hq⟩ := h hc
  hf _ _ hq hd

theorem map {f : α → β} (h : p.Ends c fun a => R (f a)) : (f <$> p).Ends c R := h

theorem pure {a : α} (h : Q a c) : (Pure.pure a : Parse α).Ends c Q := fun hc => ⟨hc, h⟩

/-- The cursor can be taken to be sound. -/
theorem sound (h : c.Sound → p.Ends c Q) : p.Ends c Q := fun hc => h hc hc

/-- A step that reads tokens and tells nothing else. -/
theorem of_moved (h : Cursor.Moved c ts (p c).2) (hq : Q (p c).1 (p c).2) : p.Ends c Q := fun hc =>
  ⟨h.sound hc, hq⟩

/-- Looking at the cursor. -/
theorem get_bind {f : Cursor → Parse β} (h : (f c).Ends c R) : (get >>= f).Ends c R := h

/-- Asking for the span from an offset. -/
theorem spanFrom_bind {start : Nat} {f : Span → Parse β} (h : (f (c.spanFrom start)).Ends c R) :
    (Parse.spanFrom start >>= f).Ends c R := h

theorem pure_bind {a : α} (h : (f a).Ends c R) : ((Pure.pure a : Parse α) >>= f).Ends c R := h

end Ends

/-! ## What reads a token -/

theorem ends_bump {rest : List Token} (h : c.upcoming = t :: rest) :
    bump.Ends c fun a d => a = t ∧ c.Advanced [t] d := by
  have hbump : bump c = (t, { c with upcoming := rest, last := some t }) := by
    simp only [bump, modifyGet, MonadStateOf.modifyGet, StateT.modifyGet, h]
    rfl
  have hmoved : c.Moved [t] (bump c).2 := by
    rw [hbump]
    exact ⟨h, rfl, rfl, List.suffix_rfl, rfl, id, .inl⟩
  exact Ends.of_moved hmoved ⟨by rw [hbump], .of_found_eq hmoved (by rw [hbump])⟩

theorem bump_found (c : Cursor) : (bump c).2.found = c.found := by
  cases h : c.upcoming <;>
    simp only [bump, modifyGet, MonadStateOf.modifyGet, StateT.modifyGet, h] <;> rfl

/-- To read a token finds nothing. -/
theorem Ends.quiet {Q : Token → Cursor → Prop} (h : bump.Ends c Q) :
    bump.Ends c fun t d => Q t d ∧ d.found = c.found := fun hc =>
  ⟨(h hc).1, (h hc).2, bump_found c⟩

/-- Where a token of some kind is seen, it is read. -/
theorem ends_bump_of_kind {k : TokenKind} (h : c.kind = k) (hk : k ≠ .endOfInput) :
    bump.Ends c fun t d => t.kind = k ∧ c.Advanced [t] d := by
  refine Ends.sound fun hc => ?_
  obtain ⟨t, rest, hup, hkind⟩ := hc.exists_of_kind h hk
  refine (ends_bump hup).imp fun a d _ h => ?_
  obtain ⟨rfl, hmoved⟩ := h
  exact ⟨hkind, hmoved⟩

theorem ends_bump_of_sees {k : TokenKind} (h : c.sees k = true) (hk : k ≠ .endOfInput) :
    bump.Ends c fun t d => t.kind = k ∧ c.Advanced [t] d :=
  ends_bump_of_kind (by simpa [Cursor.sees] using h) hk

/-- Where a token of some kinds is seen, it is read. -/
theorem ends_bump_of_seesAny {ks : List TokenKind} (h : c.seesAny ks = true)
    (hks : .endOfInput ∉ ks) : bump.Ends c fun t d => t.kind = c.kind ∧ c.Advanced [t] d := by
  refine ends_bump_of_kind rfl fun hend => hks ?_
  rw [← hend]
  simpa [Cursor.seesAny] using h

theorem moved_bumpWhile (p : Token → Bool) (c : Cursor) :
    c.Moved (c.upcoming.takeWhile p) (bumpWhile p c).2 :=
  ⟨List.takeWhile_append_dropWhile.symm, rfl, rfl, List.suffix_rfl, rfl, id, .inl⟩

theorem ends_bumpWhile (p : Token → Bool) :
    (bumpWhile p).Ends c fun ts d => ts = c.upcoming.takeWhile p ∧ c.Advanced ts d :=
  Ends.of_moved (moved_bumpWhile p c) ⟨rfl, .of_found_eq (moved_bumpWhile p c) rfl⟩

theorem ends_eat {k : TokenKind} (hk : k ≠ .endOfInput) :
    (eat k).Ends c fun r d =>
      (∃ t, r = some t ∧ t.kind = k ∧ c.Advanced [t] d) ∨ (r = none ∧ d = c ∧ c.sees k = false) := by
  unfold eat
  refine Ends.get_bind ?_
  split
  next h => exact ((ends_bump_of_sees h hk).imp fun t d _ h => .inl ⟨t, rfl, h⟩).map
  next h => exact Ends.pure (.inr ⟨rfl, rfl, by simpa using h⟩)

/-! ## What reports an issue -/

theorem modify_snd (f : Cursor → Cursor) (c : Cursor) : ((modify f : Parse Unit) c).2 = f c := rfl

/-- To find an issue moves nothing. -/
theorem moved_found (i : Issue) (c : Cursor) : c.Moved [] { c with found := i :: c.found } :=
  ⟨rfl, rfl, rfl, List.suffix_cons _ _, rfl, id, .inl⟩

theorem moved_foundTooDeep (c : Cursor) : c.Moved []
    { c with deepReported := true, found := .of .tooDeep c.token.span :: c.found } :=
  ⟨rfl, rfl, rfl, List.suffix_cons _ _, rfl, fun _ => rfl,
    fun _ => .inr ⟨_, List.mem_cons_self, rfl⟩⟩

/-- An issue may be found at a cursor about what begins at it or before. -/
theorem advanced_found {i : Issue} (h : c.Moved [] d) (hd : d.found = i :: c.found)
    (hi : i.span.start ≤ c.offset) : c.Advanced [] d where
  toMoved := h
  early hc j hj := by
    rw [hd] at hj
    obtain rfl | hj := List.mem_cons.1 hj
    · exact .inr (Nat.le_trans hi (hc.offset_le_offset h))
    · exact .inl hj

/-- An issue is found, unless it starts where the one before it does. -/
theorem report_eq (i : Issue) (c : Cursor) : (report i c).2 =
    if c.found.head?.map (·.span.start) = some i.span.start then c
    else { c with found := i :: c.found } := by
  rw [report, modify_snd]
  cases h : c.found with
  | nil => rfl
  | cons before rest =>
    by_cases hstart : before.span.start = i.span.start <;> simp [hstart]

/-- The issue is among those found, or it begins where one of them does. -/
theorem ends_report_found {i : Issue} (hi : i.span.start ≤ c.offset) :
    (report i).Ends c fun _ d => c.Advanced [] d ∧
      (i ∈ d.found ∨ ∃ j ∈ c.found, j.span.start = i.span.start) := by
  have hmoved := moved_found i c
  refine Ends.of_moved (?_ : c.Moved [] _) ?_ <;> rw [report_eq] <;> split
  · exact .refl c
  · exact hmoved
  next h =>
    obtain ⟨j, hj, hstart⟩ := Option.map_eq_some_iff.1 h
    exact ⟨.refl c, .inr ⟨j, List.mem_of_head? hj, hstart⟩⟩
  · exact ⟨advanced_found hmoved rfl hi, .inl List.mem_cons_self⟩

theorem ends_report {i : Issue} (hi : i.span.start ≤ c.offset) :
    (report i).Ends c fun _ d => c.Advanced [] d ∧ d.Told := by
  refine (ends_report_found hi).imp fun _ d _ h => ⟨h.1, .inl ?_⟩
  obtain hfound | ⟨j, hj, -⟩ := h.2
  · exact List.ne_nil_of_mem hfound
  · exact List.ne_nil_of_mem (h.1.found.mem hj)

theorem ends_reportHere (k : Issue.Kind) (message : String) :
    (reportHere k message).Ends c fun _ d => c.Advanced [] d ∧ d.Told :=
  Ends.get_bind (ends_report (Nat.le_refl _))

theorem ends_reportTooDeep : reportTooDeep.Ends c fun _ d => c.Advanced [] d ∧ d.Told := by
  unfold reportTooDeep
  refine Ends.of_moved (?_ : c.Moved [] _) ?_ <;> rw [modify_snd] <;> split
  next h => exact .refl c
  next h => exact moved_foundTooDeep c
  next h => exact ⟨.refl c, .inr h⟩
  next h => exact ⟨advanced_found (moved_foundTooDeep c) rfl (Nat.le_refl _), .inr rfl⟩

/-- A round that begins behind the one before goes on. -/
theorem ends_progressed {before : Option Nat} (h : ∀ offset ∈ before, offset < c.offset) :
    (progressed before).Ends c fun goes d => goes = true ∧ d = c := by
  unfold progressed
  refine Ends.get_bind ?_
  cases before with
  | none => exact Ends.pure ⟨rfl, rfl⟩
  | some offset =>
    dsimp only
    rw [if_pos (h offset rfl)]
    exact Ends.pure ⟨rfl, rfl⟩

theorem ends_expect {k : TokenKind} {opener : Option Token} (hk : k ≠ .endOfInput) :
    (expect k opener).Ends c fun r d =>
      (∃ t, r = some t ∧ t.kind = k ∧ c.Advanced [t] d) ∨ (r = none ∧ c.Advanced [] d ∧ d.Told) := by
  unfold expect
  refine (ends_eat hk).bind fun r d h => ?_
  obtain ⟨t, rfl, hkind, hmoved⟩ | ⟨rfl, rfl, -⟩ := h
  · exact Ends.pure (.inl ⟨t, rfl, hkind, hmoved⟩)
  · exact Ends.get_bind ((ends_reportHere _ _).bind fun _ e he => Ends.pure (.inr ⟨rfl, he⟩))

/-! ## What skips tokens -/

/-- Skipping takes at least the token the cursor is at. -/
theorem ends_skip (r : Recovery) : r.skip.Ends c fun node d =>
    (node = none ∧ d = c ∧ c.upcoming = []) ∨
      ∃ t ts, node = some ⟨t :: ts, d.spanFrom c.offset⟩ ∧ c.token = t ∧ c.Advanced (t :: ts) d := by
  unfold Recovery.skip
  refine Ends.get_bind (Ends.sound fun hc => ?_)
  split
  next h => exact Ends.pure (.inl ⟨rfl, rfl, hc.atEnd_iff.1 h⟩)
  next h =>
    obtain ⟨t, rest, hup⟩ := List.exists_cons_of_ne_nil (mt hc.atEnd_iff.2 h)
    refine (ends_bump hup).bind fun a d ha => ?_
    obtain ⟨rfl, hmoved⟩ := ha
    refine (ends_bumpWhile _).bind fun ts e he => Ends.spanFrom_bind (Ends.pure (.inr ?_))
    exact ⟨a, ts, rfl, by rw [Cursor.token, hup]; rfl, hmoved.trans he.2⟩

theorem ends_tooDeep : tooDeep.Ends c fun node d => d.Told ∧
    ((node = none ∧ c.Advanced [] d) ∨
      ∃ t ts, node = some ⟨t :: ts, d.spanFrom c.offset⟩ ∧ c.Advanced (t :: ts) d) := by
  unfold tooDeep
  refine ends_reportTooDeep.bind fun _ c' hc' => Ends.get_bind (Ends.sound fun hsound => ?_)
  obtain ⟨hmoved, htold⟩ := hc'
  have hoffset : c'.offset = c.offset := by rw [Cursor.offset, Cursor.offset, hmoved.token_nil]
  split
  next h => exact Ends.pure ⟨htold, .inl ⟨rfl, hmoved⟩⟩
  next h =>
    obtain ⟨t, rest, hup⟩ := List.exists_cons_of_ne_nil (mt hsound.atEnd_iff.2 h)
    refine (ends_bumpWhile _).bind fun ts d hd => Ends.spanFrom_bind (Ends.pure ?_)
    obtain ⟨hts, hd⟩ := hd
    rw [hup, List.takeWhile_cons_of_pos rfl] at hts
    subst hts
    exact ⟨hd.told htold, .inr ⟨t, _, by rw [hoffset], hmoved.trans hd⟩⟩

theorem balancedRun_isPrefix (stop : List TokenKind) (depth : Nat) (ts : List Token) :
    balancedRun stop depth ts <+: ts := by
  induction ts generalizing depth with
  | nil => exact List.nil_prefix
  | cons t rest ih =>
    unfold balancedRun
    split
    · exact List.nil_prefix
    · exact List.cons_prefix_cons.2 ⟨rfl, ih _⟩

/-- To pass over a run is to read its tokens. -/
theorem moved_balancedRun {stop : List TokenKind} {depth : Nat}
    (h : ¬ (balancedRun stop depth c.upcoming).isEmpty = true) :
    c.Moved (balancedRun stop depth c.upcoming)
      { c with upcoming := c.upcoming.drop (balancedRun stop depth c.upcoming).length
               last := (balancedRun stop depth c.upcoming).getLast? } := by
  have hrun : balancedRun stop depth c.upcoming ++
      c.upcoming.drop (balancedRun stop depth c.upcoming).length = c.upcoming :=
    List.prefix_iff_eq_append.1 (balancedRun_isPrefix stop depth c.upcoming)
  obtain ⟨t, ts, ht⟩ := List.exists_cons_of_ne_nil (mt List.isEmpty_iff.2 h)
  exact ⟨hrun.symm, by rw [ht, List.getLast?_cons, Option.some_or], rfl, List.suffix_rfl, rfl, id,
    .inl⟩

/-- A run that only the end of the text stops takes everything. -/
theorem balancedRun_eq_self (depth : Nat) (h : ∀ t ∈ ts, t.kind ≠ .endOfInput) :
    balancedRun [.endOfInput] depth ts = ts := by
  induction ts generalizing depth with
  | nil => rfl
  | cons t rest ih =>
    have ht : ¬ (depth = 0 ∧ [TokenKind.endOfInput].contains t.kind = true) := by
      simpa using fun _ => h t List.mem_cons_self
    rw [balancedRun, if_neg ht]
    exact congrArg (t :: ·) (ih _ fun u hu => h u (List.mem_cons_of_mem t hu))

/-- A run from outside all brackets begins with a token that does not stop it. -/
theorem head_balancedRun {stop : List TokenKind} (h : balancedRun stop 0 us = t :: ts) :
    stop.contains t.kind = false ∧ us.head? = some t := by
  cases us with
  | nil => cases h
  | cons u rest =>
    rw [balancedRun] at h
    split at h
    · cases h
    next hstop =>
      injection h with hhead _
      subst hhead
      exact ⟨by simpa using hstop, rfl⟩

/-- Behind all the semicolons that do not stop it, a run begins with no semicolon. -/
theorem not_semicolon_of_balancedRun {stop : List TokenKind} (hd : c.Moved
      (c.upcoming.takeWhile fun t => t.kind == .semicolon && !stop.contains t.kind) d)
    (h : balancedRun stop 0 d.upcoming = t :: ts) : ¬ (t.kind == .semicolon) = true := by
  obtain ⟨hstop, hhead⟩ := head_balancedRun h
  have hrest : d.upcoming =
      c.upcoming.dropWhile fun t => t.kind == .semicolon && !stop.contains t.kind :=
    List.append_cancel_left (hd.upcoming.symm.trans List.takeWhile_append_dropWhile.symm)
  have hends := List.head?_dropWhile_not
    (fun t : Token => t.kind == .semicolon && !stop.contains t.kind) c.upcoming
  rw [← hrest, hhead] at hends
  intro hsemicolon
  simp only [hsemicolon, hstop] at hends
  cases hends

/-- A run is reported from where its first token begins to where its last one ends. -/
theorem spanFrom_run (hc : c.Sound) (h : c.Moved (t :: ts) d) {u : Token}
    (hu : (t :: ts).getLast? = some u) : d.spanFrom c.offset = ⟨t.span.start, u.span.stop⟩ := by
  obtain ⟨us, hus⟩ := List.getLast?_eq_some_iff.1 hu
  have hup : u ∈ c.upcoming := by
    rw [h.upcoming]
    exact List.mem_append_left _ (List.mem_of_getLast? hu)
  have hstart := hc.offset_le hup
  have hfilled := hc.filled u hup
  rw [Cursor.spanFrom, (hus ▸ h : c.Moved (us ++ [u]) d).lastStop_eq, (hc.offset_lt h).1,
    Nat.max_eq_right]
  rw [← (hc.offset_lt h).1]
  omega

/-- **What stands behind the statement that leaves a block is passed over, and that is
reported.** -/
theorem ends_skipUnreachable (stop : List TokenKind) : (skipUnreachable stop).Ends c fun _ d =>
    (∃ ts, c.Advanced ts d ∧ c.Reports ts d) ∧ (stop = [.endOfInput] → d.upcoming = []) := by
  let isSemicolon (t : Token) : Bool := t.kind == .semicolon && !stop.contains t.kind
  have hsemicolons := moved_bumpWhile isSemicolon c
  refine Ends.bind (Q := fun _ d => c.Advanced (c.upcoming.takeWhile isSemicolon) d ∧ d.found = c.found)
    (Ends.of_moved hsemicolons ⟨.of_found_eq hsemicolons rfl, rfl⟩) fun _ d hd =>
    Ends.get_bind (Ends.sound fun hsound => ?_)
  obtain ⟨hd, hsame⟩ := hd
  have hkind : ∀ t ∈ c.upcoming.takeWhile isSemicolon, (t.kind == .semicolon) = true := fun t ht =>
    (Bool.and_eq_true_iff.1 (List.all_eq_true.1 (List.all_takeWhile ..) t ht)).1
  dsimp only
  split
  next h =>
    refine Ends.pure ⟨⟨_, hd, fun t ht => ?_⟩, ?_⟩
    · rw [Token.pastSemicolons_eq_nil hkind] at ht
      cases ht
    rintro rfl
    rwa [balancedRun_eq_self 0 hsound.inner, List.isEmpty_iff] at h
  next h =>
    have hset := moved_balancedRun h
    refine Ends.bind (Q := fun _ e => d.Advanced (balancedRun stop 0 d.upcoming) e ∧ e.found = d.found)
      (Ends.of_moved hset ⟨.of_found_eq hset rfl, rfl⟩) fun _ e he => Ends.spanFrom_bind ?_
    obtain ⟨he, hfound⟩ := he
    have hstart : (Issue.of .unreachableStatement (e.spanFrom d.offset)).span.start ≤ e.offset :=
      hsound.offset_le_offset he.toMoved
    refine (ends_report_found hstart).imp fun _ f _ hf => ⟨⟨_, hd.trans (he.trans hf.1), ?_⟩, ?_⟩
    · obtain ⟨t, ts, hrun⟩ := List.exists_cons_of_ne_nil (mt List.isEmpty_iff.2 h)
      have hpast : Token.pastSemicolons (c.upcoming.takeWhile isSemicolon ++ (t :: ts)) = t :: ts := by
        rw [Token.pastSemicolons, List.dropWhile_append_of_pos hkind]
        exact List.dropWhile_cons_of_neg (not_semicolon_of_balancedRun hd.toMoved hrun)
      rw [hrun] at he ⊢
      rw [List.append_nil, Cursor.Reports, hpast]
      rintro _ ⟨⟩ u hu
      have hspan := spanFrom_run hsound he.toMoved hu
      rw [← hspan, ← hsame, ← hfound]
      exact hf.2.imp_right fun ⟨j, hj, hstart⟩ => ⟨j, hj, hstart.trans (congrArg (·.start) hspan)⟩
    rintro rfl
    rw [balancedRun_eq_self 0 hsound.inner] at he
    have hlength := (he.trans hf.1).length_add
    rw [List.append_nil] at hlength
    exact List.eq_nil_of_length_eq_zero (by omega)

end Parse

end CommandScript
