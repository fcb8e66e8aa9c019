import Mathlib.Algebra.Group.Nat.Even
import Mathlib.Data.List.DropRight
import CommandScript.Proofs.Lexing
import CommandScript.Proofs.Seam
/-!
# CommandScript — what the flags say

Two flags of a token are about the tokens before it. They come from two marks that are
kept from token to token, so what they say is proved along the tokens, from the last one
backwards. The other two are about a string: whether it is closed on its line, and whether
a backslash is in it. That a backslash takes along the character behind it comes to the same
as that a quote does not count behind an odd number of them.
-/

namespace CommandScript

namespace Surroundings

theorem behind_concat (around : Surroundings) (ts : List Token) (t : Token) :
    around.behind (ts ++ [t]) = (around.behind ts).past t.kind := by
  rw [behind, behind, List.foldl_append]
  rfl

theorem trivia_past (s : Surroundings) (k : TokenKind) : (s.past k).trivia = k.isHidden := by
  cases k <;> rfl

theorem lineBreak_past (s : Surroundings) (k : TokenKind) :
    (s.past k).lineBreak = (k == .newline || k.isHidden && s.lineBreak) := by
  cases k <;> rfl

/-- Trivia was before if the last token was hidden. -/
theorem trivia_behind (ts : List Token) :
    (behind {} ts).trivia = true ↔ ∃ t ∈ ts.getLast?, t.kind.isHidden = true := by
  cases ts using List.reverseRecOn with
  | nil => exact ⟨nofun, nofun⟩
  | append_singleton ts t => simp [behind_concat, trivia_past]

/-- A line break was before if there is one among the hidden tokens at the end. -/
theorem lineBreak_behind (ts : List Token) :
    (behind {} ts).lineBreak = true ↔ ∃ t ∈ ts.rtakeWhile (·.kind.isHidden), t.kind = .newline := by
  induction ts using List.reverseRecOn with
  | nil => exact ⟨nofun, nofun⟩
  | append_singleton ts t ih =>
    rw [behind_concat, lineBreak_past, List.rtakeWhile_concat]
    cases hhidden : t.kind.isHidden with
    | true =>
      -- a hidden token keeps the mark, and a line break sets it
      rw [if_pos rfl, Bool.true_and, Bool.or_eq_true, ih]
      simp [or_and_right, exists_or, or_comm]
    | false =>
      have hk : t.kind ≠ .newline := by
        intro hk
        rw [hk] at hhidden
        cases hhidden
      simp [hk]

end Surroundings

theorem length_rtakeWhile_cons {α : Type} (p : α → Bool) (a : α) (l : List α) :
    ((a :: l).rtakeWhile p).length =
      if (a :: l).all p then l.length + 1 else (l.rtakeWhile p).length := by
  by_cases hall : (a :: l).all p
  · rw [if_pos hall, List.rtakeWhile_eq_self_iff.2 (List.all_eq_true.1 hall), List.length_cons]
  · rw [if_neg hall, List.rtakeWhile, List.reverse_cons, List.takeWhile_append]
    split
    next h =>
      -- all of the list passes, so it is the element put before it that does not
      have hl := List.takeWhile_eq_self_iff.1 ((List.takeWhile_prefix p).eq_of_length h)
      have ha : ¬ p a := fun ha => hall (List.all_eq_true.2 (List.forall_mem_cons.2
        ⟨ha, fun b hb => hl b (List.mem_reverse.2 hb)⟩))
      rw [List.takeWhile_cons_of_neg ha, List.append_nil, List.rtakeWhile, List.reverse_reverse,
        List.length_reverse, h, List.length_reverse]
    next => rw [List.rtakeWhile]

namespace Lexeme

/-- A string is closed on its line: its quote stands there again, with an even number of
backslashes right before it. -/
def IsClosed (quote : Char) (cs : List Char) : Prop :=
  ∃ body rest, cs = body ++ quote :: rest ∧ (∀ c ∈ body, isLineBreak c = false) ∧
    Even (body.rtakeWhile (· == '\\')).length

namespace IsClosed

variable {quote c d : Char} {cs : List Char}

/-- A character that is neither the quote nor a backslash matters only if it ends the line. -/
theorem cons_iff (hquote : c ≠ quote) (hslash : c ≠ '\\') :
    IsClosed quote (c :: cs) ↔ isLineBreak c = false ∧ IsClosed quote cs := by
  have hlength (body : List Char) : ((c :: body).rtakeWhile (· == '\\')).length =
      (body.rtakeWhile (· == '\\')).length := by
    rw [length_rtakeWhile_cons, if_neg (by simp [hslash])]
  constructor
  · rintro ⟨_ | ⟨e, body⟩, rest, hcs, hline, heven⟩
    · exact absurd (List.cons.inj hcs).1 hquote
    · obtain ⟨rfl, rfl⟩ := List.cons.inj hcs
      obtain ⟨hc, hbody⟩ := List.forall_mem_cons.1 hline
      exact ⟨hc, body, rest, rfl, hbody, hlength body ▸ heven⟩
  · rintro ⟨hc, body, rest, rfl, hbody, heven⟩
    exact ⟨c :: body, rest, rfl, List.forall_mem_cons.2 ⟨hc, hbody⟩, hlength body ▸ heven⟩

/-- A backslash and the character behind it matter only if that ends the line. -/
theorem escaped_iff (hquote : quote ≠ '\\') :
    IsClosed quote ('\\' :: d :: cs) ↔ isLineBreak d = false ∧ IsClosed quote cs := by
  have hlength (body : List Char) : Even (('\\' :: d :: body).rtakeWhile (· == '\\')).length ↔
      Even (body.rtakeWhile (· == '\\')).length := by
    rw [length_rtakeWhile_cons, length_rtakeWhile_cons, List.all_cons, beq_self_eq_true, Bool.true_and]
    cases hall : (d :: body).all (· == '\\') with
    | true =>
      -- backslashes from the opening quote on: two more of them
      have hbody : body.rtakeWhile (· == '\\') = body := List.rtakeWhile_eq_self_iff.2
        fun c hc => List.all_eq_true.1 hall c (List.mem_cons_of_mem _ hc)
      rw [if_pos rfl, hbody, List.length_cons, Nat.add_assoc, Nat.even_add]
      exact iff_true_right (by decide)
    | false => rw [if_neg Bool.false_ne_true, if_neg Bool.false_ne_true]
  constructor
  · rintro ⟨_ | ⟨c, _ | ⟨e, body⟩⟩, rest, hcs, hline, heven⟩
    · exact absurd (List.cons.inj hcs).1.symm hquote
    · -- the quote stands behind one backslash
      obtain ⟨rfl, -⟩ := List.cons.inj hcs
      exact absurd heven (by decide)
    · obtain ⟨hc, hcs⟩ := List.cons.inj hcs
      obtain ⟨rfl, rfl⟩ := List.cons.inj hcs
      subst hc
      obtain ⟨-, hd, hbody⟩ := (List.forall_mem_cons.1 hline).imp_right List.forall_mem_cons.1
      exact ⟨hd, body, rest, rfl, hbody, (hlength body).1 heven⟩
  · rintro ⟨hd, body, rest, rfl, hbody, heven⟩
    exact ⟨'\\' :: d :: body, rest, rfl,
      List.forall_mem_cons.2 ⟨rfl, List.forall_mem_cons.2 ⟨hd, hbody⟩⟩, (hlength body).2 heven⟩

end IsClosed

/-- **A string is left open if nothing closes it on its line.** -/
theorem unterminated_stringTail {quote : Char} (cs : List Char) (hslash : quote ≠ '\\') :
    (stringTail quote cs).unterminated = true ↔ ¬ IsClosed quote cs := by
  fun_induction stringTail quote cs with
  | case1 => simp [IsClosed]
  | case2 rest =>
    have hclosed : IsClosed quote (quote :: rest) := ⟨[], rest, rfl, List.forall_mem_nil _, by decide⟩
    exact iff_of_false Bool.false_ne_true (not_not.2 hclosed)
  | case3 c rest hne hc =>
    have hback : c ≠ '\\' := by
      rintro rfl
      cases hc
    rw [IsClosed.cons_iff hne hback, hc]
    exact iff_of_true rfl fun h => Bool.false_ne_true h.1.symm
  | case4 hne _ =>
    refine iff_of_true rfl ?_
    rintro ⟨_ | ⟨c, body⟩, rest, hcs, -⟩
    · exact hne (List.cons.inj hcs).1
    · exact absurd (List.cons.inj hcs).2.symm (List.append_ne_nil_of_right_ne_nil _ (List.cons_ne_nil _ _))
  | case5 d rest hd hne _ =>
    rw [IsClosed.escaped_iff hslash, hd]
    exact iff_of_true rfl fun h => Bool.false_ne_true h.1.symm
  | case6 d rest hd hne _ l ih =>
    rw [IsClosed.escaped_iff hslash, and_iff_right (Bool.eq_false_iff.2 hd)]
    exact ih
  | case7 c rest hne hc hback ih =>
    rw [IsClosed.cons_iff hne hback, and_iff_right (Bool.eq_false_iff.2 hc)]
    exact ih

/-- A string has an escape if there is a backslash in it. -/
theorem hasEscape_stringTail {quote : Char} (cs : List Char) (hslash : quote ≠ '\\') :
    (stringTail quote cs).hasEscape = true ↔ '\\' ∈ (stringTail quote cs).tail := by
  fun_induction stringTail quote cs with
  | case1 => simp
  | case2 rest => simpa using hslash.symm
  | case3 => simp
  | case4 => simp
  | case5 => simp
  | case6 => exact iff_of_true rfl List.mem_cons_self
  | case7 c rest hne hc hback ih =>
    change (stringTail quote rest).hasEscape = true ↔ '\\' ∈ c :: (stringTail quote rest).tail
    rw [ih, List.mem_cons, or_iff_right (Ne.symm hback)]

theorem ne_backslash_of_isQuote {c : Char} (hc : isQuote c = true) : c ≠ '\\' := by
  rintro rfl
  cases hc

theorem unterminated_scan (c : Char) (rest : List Char) :
    (scan c rest).unterminated = true ↔ (scan c rest).kind = .string ∧ ¬ IsClosed c rest := by
  obtain ⟨hc, hscan⟩ | ⟨hkind, hclosed, -⟩ := scan_string_or_plain c rest
  · rw [hscan, unterminated_stringTail rest (ne_backslash_of_isQuote hc)]
    exact (and_iff_right (stringTail_spec c rest).1).symm
  · rw [hclosed]
    exact iff_of_false nofun fun h => hkind h.1

theorem hasEscape_scan (c : Char) (rest : List Char) :
    (scan c rest).hasEscape = true ↔
      (scan c rest).kind = .string ∧ '\\' ∈ c :: (scan c rest).tail := by
  obtain ⟨hc, hscan⟩ | ⟨hkind, -, hplain⟩ := scan_string_or_plain c rest
  · have hslash := ne_backslash_of_isQuote hc
    rw [hscan, hasEscape_stringTail rest hslash, List.mem_cons, or_iff_right hslash.symm]
    exact (and_iff_right (stringTail_spec c rest).1).symm
  · rw [hplain]
    exact iff_of_false nofun fun h => hkind h.1

end Lexeme

namespace Token

variable {text : String} {before after : List Token} {t : Token}

/-- What a token comes after is in the kinds of the tokens before it. -/
theorem marks_iff (h : tokenize text = before ++ t :: after) :
    (t.flags.lineBreakBefore = true ↔ ∃ u ∈ before.rtakeWhile (·.kind.isHidden), u.kind = .newline) ∧
      (t.flags.triviaBefore = true ↔ ∃ u ∈ before.getLast?, u.kind.isHidden = true) := by
  rw [← Surroundings.lineBreak_behind, ← Surroundings.trivia_behind]
  obtain ⟨-, -, rfl⟩ | ⟨c, rest, -, rfl, -⟩ := token_cases h <;> exact ⟨Iff.rfl, Iff.rfl⟩

theorem unterminated_iff (h : tokenize text = before ++ t :: after) :
    t.flags.unterminated = true ↔ t.kind = .string ∧ ∃ quote behind,
      text.toList.drop t.span.start = quote :: behind ∧ ¬ Lexeme.IsClosed quote behind := by
  obtain ⟨-, -, rfl⟩ | ⟨c, rest, htext, ht, -⟩ := token_cases h
  · exact iff_of_false nofun nofun
  · have hdrop : text.toList.drop t.span.start = c :: rest := by
      rw [start_eq h, htext, List.drop_left]
    rw [hdrop, ht]
    refine (Lexeme.unterminated_scan c rest).trans (and_congr_right' ?_)
    exact ⟨fun hopen => ⟨c, rest, rfl, hopen⟩, fun ⟨_, _, hcs, hopen⟩ => by
      obtain ⟨rfl, rfl⟩ := List.cons.inj hcs; exact hopen⟩

theorem hasEscape_iff (h : tokenize text = before ++ t :: after) :
    t.flags.hasEscape = true ↔ t.kind = .string ∧ '\\' ∈ t.text.toList := by
  obtain ⟨-, -, rfl⟩ | ⟨c, rest, -, rfl, -⟩ := token_cases h
  · exact iff_of_false nofun nofun
  · rw [Lexeme.token, String.toList_ofList]
    exact Lexeme.hasEscape_scan c rest

/-- A visible token stands somewhere among all tokens. -/
theorem exists_of_visible_eq {ts us vs : List Token} (h : visible ts = us ++ t :: vs) :
    ∃ before after, ts = before ++ t :: after ∧ visible before = us ∧ visible after = vs := by
  obtain ⟨first, second, rfl, hfirst, hsecond⟩ := List.filter_eq_append_iff.1 h
  obtain ⟨passed, after, rfl, hpassed, -, hafter⟩ := List.filter_eq_cons_iff.1 hsecond
  refine ⟨first ++ passed, after, (List.append_assoc ..).symm, ?_, hafter⟩
  have hnone : visible passed = [] := List.filter_eq_nil_iff.2 hpassed
  rw [visible_append, hnone, List.append_nil]
  exact hfirst

theorem exists_hidden_iff (ts : List Token) :
    (∃ t ∈ ts.getLast?, t.kind.isHidden = true) ↔ ts.rtakeWhile (·.kind.isHidden) ≠ [] := by
  cases ts using List.reverseRecOn with
  | nil => simp
  | append_singleton ts t =>
    rw [List.getLast?_concat, List.rtakeWhile_concat]
    cases hhidden : t.kind.isHidden <;> simp [hhidden]

/-- **What the flags of a token say.** It comes after trivia if the token before it is a blank, a
comment or a line break, and after a line break if one is among the blanks, comments and line breaks
right before it. It is unterminated if it is a string that nothing closes on its line, and it has an
escape if it is a string with a backslash in it. So it is also where the grammar sees tokens: one of
them comes after trivia if something was passed over right before it, and after a line break if a
line break was. -/
theorem flags_iff (text : String) :
    (∀ before t after, tokenize text = before ++ t :: after →
      (t.flags.triviaBefore = true ↔ ∃ u ∈ before.getLast?, u.kind.isHidden = true) ∧
      (t.flags.lineBreakBefore = true ↔
        ∃ u ∈ before.rtakeWhile (·.kind.isHidden), u.kind = .newline) ∧
      (t.flags.unterminated = true ↔ t.kind = .string ∧ ∃ quote behind,
        text.toList.drop t.span.start = quote :: behind ∧ ¬ Lexeme.IsClosed quote behind) ∧
      (t.flags.hasEscape = true ↔ t.kind = .string ∧ '\\' ∈ t.text.toList)) ∧
    ∀ us t vs, (Cursor.ofTokens (tokenize text)).upcoming ++
        [(Cursor.ofTokens (tokenize text)).ending] = us ++ t :: vs →
      ∃ before passed after, tokenize text = before ++ passed ++ t :: after ∧
        visible before = us ∧ visible after = vs ∧ (∀ u ∈ passed, u.kind.isHidden = true) ∧
        (∀ u ∈ before.getLast?, u.kind.isHidden = false) ∧
        (t.flags.triviaBefore = true ↔ passed ≠ []) ∧
        (t.flags.lineBreakBefore = true ↔ ∃ u ∈ passed, u.kind = .newline) := by
  refine ⟨fun before t after h => ?_, fun us t vs h => ?_⟩
  · obtain ⟨hline, htrivia⟩ := marks_iff h
    exact ⟨htrivia, hline, unterminated_iff h, hasEscape_iff h⟩
  · rw [← Cursor.visible_tokenize] at h
    obtain ⟨ts, after, hsplit, hus, hvs⟩ := exists_of_visible_eq h
    -- what is passed over right before the token are the hidden tokens at the end of those before it
    obtain ⟨hline, htrivia⟩ := marks_iff hsplit
    have hpassed : ∀ u ∈ ts.rtakeWhile (·.kind.isHidden), u.kind.isHidden = true :=
      fun u hu => List.mem_rtakeWhile_imp (p := fun u : Token => u.kind.isHidden) hu
    have hnone : visible (ts.rtakeWhile (·.kind.isHidden)) = [] :=
      List.filter_eq_nil_iff.2 fun u hu => by simp [hpassed u hu]
    refine ⟨ts.rdropWhile (·.kind.isHidden), ts.rtakeWhile (·.kind.isHidden), after, ?_, ?_, hvs, hpassed,
      fun u hu => ?_, htrivia.trans (exists_hidden_iff ts), hline⟩
    · rw [List.rdropWhile_append_rtakeWhile, hsplit]
    · calc visible (ts.rdropWhile (·.kind.isHidden))
          = visible (ts.rdropWhile (·.kind.isHidden) ++ ts.rtakeWhile (·.kind.isHidden)) := by
            rw [visible_append, hnone, List.append_nil]
        _ = us := by rw [List.rdropWhile_append_rtakeWhile, hus]
    · have hne : ts.rdropWhile (·.kind.isHidden) ≠ [] := by
        rintro hnil
        rw [hnil] at hu
        cases hu
      have hlast := List.rdropWhile_last_not _ _ hne
      rw [Option.mem_def, List.getLast?_eq_some_getLast hne] at hu
      cases hu
      exact Bool.eq_false_iff.2 hlast

/-- Behind a comment and a line break, and a blank, a string is left open whose only other quote is
behind a backslash. -/
theorem flags_iff_open :
    let text := "x -- c\n\t'a\\' b"
    let t : Token := ⟨.string, "'a\\' b", ⟨8, 14⟩, ⟨true, true, true, true⟩⟩
    (∃ before after, tokenize text = before ++ t :: after ∧
      (∃ u ∈ before.getLast?, u.kind.isHidden = true) ∧
      (∃ u ∈ before.rtakeWhile (·.kind.isHidden), u.kind = .newline) ∧
      (∃ quote behind, text.toList.drop t.span.start = quote :: behind ∧ ¬ Lexeme.IsClosed quote behind) ∧
      '\\' ∈ t.text.toList) ∧
    ∃ us vs, (Cursor.ofTokens (tokenize text)).upcoming ++
        [(Cursor.ofTokens (tokenize text)).ending] = us ++ t :: vs ∧
      ∃ before passed after, tokenize text = before ++ passed ++ t :: after ∧
        visible before = us ∧ visible after = vs ∧ (∀ u ∈ passed, u.kind.isHidden = true) ∧
        passed ≠ [] ∧ ∃ u ∈ passed, u.kind = .newline := by
  intro text t
  obtain ⟨hflags, hseen⟩ := flags_iff text
  constructor
  · have hsplit : tokenize text = (tokenize text).take 5 ++ t :: (tokenize text).drop 6 := by
      decide +kernel
    obtain ⟨htrivia, hline, hopen, hescape⟩ := hflags _ _ _ hsplit
    exact ⟨_, _, hsplit, htrivia.1 rfl, hline.1 rfl, (hopen.1 rfl).2, (hescape.1 rfl).2⟩
  · have hsplit : (Cursor.ofTokens (tokenize text)).upcoming ++
        [(Cursor.ofTokens (tokenize text)).ending] = (visible (tokenize text)).take 1 ++ t ::
          (visible (tokenize text)).drop 2 := by
      decide +kernel
    obtain ⟨before, passed, after, htext, hbefore, hafter, hpassed, -, htrivia, hline⟩ :=
      hseen _ _ _ hsplit
    exact ⟨_, _, hsplit, before, passed, after, htext, hbefore, hafter, hpassed, htrivia.1 rfl,
      hline.1 rfl⟩

end Token

end CommandScript
