import CommandScript.Proofs.Lexing
import CommandScript.Proofs.Spelled
import CommandScript.Token.Literal
import Mathlib.Data.List.TakeWhile
/-!
# CommandScript — a token by itself

Some lexemes end where they do because of what follows: a point is taken before a digit alone,
one minus is a sign and two are a comment, unknown characters go on up to a lexeme. Nothing
that follows is needed to read the lexeme again. Cut off at its end, it is scanned as it was
(`Lexeme.scan_tail`), because each test that looks ahead either looks at a character of the lexeme
itself or fails once there is nothing to look at.

So a token says what it says by its text alone.
-/

namespace CommandScript

namespace Lexeme

variable {c : Char} {tail rest : List Char}

/-- Where the text is cut off, the next character is the same one or there is none. -/
theorem head?_of_isPrefix {d : Char} (h : tail <+: rest) (hd : tail.head? = some d) :
    rest.head? = some d := by
  obtain ⟨behind, rfl⟩ := h
  rw [List.head?_append, hd]
  rfl

/-- No sign of two characters comes about by cutting off what follows. -/
theorem pairAt_of_isPrefix (h : tail <+: rest) (hpair : pairAt c rest = none) :
    pairAt c tail = none := by
  cases tail with
  | nil => rfl
  | cons d tail =>
    obtain ⟨behind, rfl⟩ := h
    exact hpair

theorem startsAt_of_isPrefix (h : tail <+: rest) (hstarts : startsAt c rest = false) :
    startsAt c tail = false := by
  simp only [startsAt, Bool.or_eq_false_iff, Option.isSome_eq_false_iff, Option.isNone_iff_eq_none]
    at hstarts ⊢
  exact ⟨hstarts.1, pairAt_of_isPrefix h hstarts.2⟩

/-- The rest of a string is all of it when it is read again. -/
theorem stringTail_tail (quote : Char) (cs : List Char) :
    stringTail quote (stringTail quote cs).tail = stringTail quote cs := by
  fun_induction stringTail quote cs with
  | case1 => rfl
  | case2 rest => rw [stringTail, if_pos rfl]
  | case3 => rfl
  | case4 hquote hbreak => rw [stringTail, if_neg hquote, if_neg hbreak]; rfl
  | case5 d rest hd hquote hbreak => rw [stringTail, if_neg hquote, if_neg hbreak]; rfl
  | case6 d rest hd hquote hbreak l ih =>
    change stringTail quote ('\\' :: d :: (stringTail quote rest).tail) = _
    rw [stringTail, if_neg hquote, if_neg hbreak, if_pos rfl]
    dsimp only
    rw [if_neg hd, ih]
  | case7 c rest hquote hbreak hslash ih =>
    change stringTail quote (c :: (stringTail quote rest).tail) = _
    rw [stringTail.eq_def]
    dsimp only
    rw [if_neg hquote, if_neg hbreak, if_neg hslash, ih]

/-- The rest of a number is all of it when it is read again. -/
theorem numberTail_tail (pointSeen : Bool) (cs : List Char) :
    numberTail pointSeen (numberTail pointSeen cs) = numberTail pointSeen cs := by
  induction pointSeen, cs using numberTail.induct with
  | case1 => rfl
  | case2 pointSeen c rest hdigit ih =>
    rw [numberTail, if_pos hdigit, numberTail, if_pos hdigit, ih]
  | case3 pointSeen c rest hdigit hpoint ih =>
    -- the digit behind the point is the first one that is taken there
    obtain ⟨d, hhead, hd⟩ : ∃ d, rest.head? = some d ∧ isDecimalDigit d = true := by
      simpa [Option.getD_eq_iff] using hpoint.2.2
    obtain ⟨behind, rfl⟩ := List.head?_eq_some_iff.1 hhead
    have htaken : ((numberTail true (d :: behind)).head?.map isDecimalDigit).getD false = true := by
      rw [numberTail, if_pos hd]
      exact hd
    have hagain : numberTail pointSeen (c :: numberTail true (d :: behind)) =
        c :: numberTail true (numberTail true (d :: behind)) := by
      rw [numberTail, if_neg hdigit, if_pos ⟨hpoint.1, hpoint.2.1, htaken⟩]
    rw [numberTail, if_neg hdigit, if_pos hpoint, hagain, ih]
  | case4 pointSeen c rest hdigit hpoint =>
    rw [numberTail, if_neg hdigit, if_neg hpoint, numberTail]

/-- Unknown characters are no less unknown without what stopped them. -/
theorem unknownTail_tail (cs : List Char) : unknownTail (unknownTail cs) = unknownTail cs := by
  induction cs with
  | nil => rfl
  | cons c rest ih =>
    rw [unknownTail]
    split
    next => rfl
    next hstarts =>
      have hcut := startsAt_of_isPrefix (unknownTail_isPrefix rest) (Bool.eq_false_iff.2 hstarts)
      rw [unknownTail, hcut, if_neg Bool.false_ne_true, ih]

/-- **A lexeme is scanned again from its own text.** -/
theorem scan_tail (c : Char) (rest : List Char) : scan c (scan c rest).tail = scan c rest := by
  -- one minus is none of a comment because of what follows, so it is none without that
  have hminus {tail : List Char} (hcut : tail <+: rest) (h : ¬ (c = '-' ∧ rest.head? = some '-')) :
      ¬ (c = '-' ∧ tail.head? = some '-') := fun hagain => h ⟨hagain.1, head?_of_isPrefix hcut hagain.2⟩
  fun_cases scan c rest with
  | case1 hbreak =>
    rw [scan, if_pos hbreak]
    split <;> simp_all
  | case2 hbreak hblank =>
    rw [scan, if_neg hbreak, if_pos hblank, List.takeWhile_idem]
  | case3 hbreak hblank hcomment =>
    obtain ⟨rfl, hhead⟩ := hcomment
    obtain ⟨behind, rfl⟩ := List.head?_eq_some_iff.1 hhead
    have hagain : (('-' :: behind).takeWhile (!isLineBreak ·)).head? = some '-' := rfl
    rw [scan, if_neg hbreak, if_neg hblank, if_pos ⟨rfl, hagain⟩, List.takeWhile_idem]
  | case4 hbreak hblank hcomment hquote =>
    rw [scan, if_neg hbreak, if_neg hblank, if_neg (hminus (stringTail_spec c rest).2 hcomment),
      if_pos hquote, stringTail_tail]
  | case5 hbreak hblank hcomment hquote hdigit =>
    rw [scan, if_neg hbreak, if_neg hblank, if_neg (hminus (numberTail_isPrefix _ rest) hcomment),
      if_neg hquote, if_pos hdigit, numberTail_tail]
  | case6 hbreak hblank hcomment hquote hdigit hword tail =>
    rw [scan, if_neg hbreak, if_neg hblank, if_neg (hminus (List.takeWhile_prefix _) hcomment),
      if_neg hquote, if_neg hdigit, if_pos hword, List.takeWhile_idem]
  | case7 hbreak hblank hcomment hquote hdigit hword kind hpair =>
    have hagain : pairAt c (rest.take 1) = some kind := by
      rw [pairAt, List.head?_take, if_neg Nat.one_ne_zero]
      exact hpair
    rw [scan, if_neg hbreak, if_neg hblank, if_neg (hminus (List.take_prefix 1 rest) hcomment),
      if_neg hquote, if_neg hdigit, if_neg hword]
    dsimp only
    rw [hagain, List.take_take]
    rfl
  | case8 hbreak hblank hcomment hquote hdigit hword hpair kind hsign =>
    exact scan_sign (by simp_all) (.inr nofun) rfl hsign
  | case9 hbreak hblank hcomment hquote hdigit hword hpair hsign =>
    have hcut := unknownTail_isPrefix rest
    rw [scan, if_neg hbreak, if_neg hblank, if_neg (hminus hcut hcomment), if_neg hquote,
      if_neg hdigit, if_neg hword]
    dsimp only
    rw [pairAt_of_isPrefix hcut hpair, hsign, unknownTail_tail]

end Lexeme

namespace Token

variable {text other : String} {t u : Token}

/-- A token of a text is made of a lexeme, unless it stands for the end. -/
theorem exists_scan_of_mem (ht : t ∈ tokenize text) :
    (∃ c rest offset around, t = (Lexeme.scan c rest).token c offset around) ∨
      ∃ offset around, t = atEnd offset around := by
  obtain ⟨before, after, h⟩ := List.append_of_mem ht
  obtain ⟨-, -, rfl⟩ | ⟨c, rest, -, rfl, -⟩ := token_cases h
  · exact .inr ⟨_, _, rfl⟩
  · exact .inl ⟨c, rest, _, _, rfl⟩

/-- The text of a lexeme has one token, made of that lexeme. -/
theorem tokenize_ofList_scan (c : Char) (rest : List Char) :
    tokenize (String.ofList (c :: (Lexeme.scan c rest).tail)) =
      [(Lexeme.scan c rest).token c 0 {},
        atEnd (1 + (Lexeme.scan c rest).tail.length) (Surroundings.past {} (Lexeme.scan c rest).kind)] := by
  rw [tokenize, String.toList_ofList, walk_scan, Lexeme.scan_tail, List.drop_length, walk_nil,
    Nat.zero_add]

/-- **What a token says is in its text.** -/
theorem spelling_eq_of_text_eq (ht : t ∈ tokenize text) (hu : u ∈ tokenize other)
    (htext : t.text = u.text) : t.spelling = u.spelling := by
  -- a lexeme has the character it begins with, and what stands for the end has no text
  obtain ⟨c, rest, _, _, rfl⟩ | ⟨_, _, rfl⟩ := exists_scan_of_mem ht
  · obtain ⟨c', rest', _, _, rfl⟩ | ⟨_, _, rfl⟩ := exists_scan_of_mem hu
    · obtain ⟨rfl, htail⟩ := List.cons.inj (String.ofList_injective htext)
      rw [← Lexeme.scan_tail c rest, htail, Lexeme.scan_tail]
      rfl
    · exact absurd (congrArg String.toList htext) (by simp [Lexeme.token, atEnd])
  · obtain ⟨c', rest', _, _, rfl⟩ | ⟨_, _, rfl⟩ := exists_scan_of_mem hu
    · exact absurd (congrArg String.toList htext) (by simp [Lexeme.token, atEnd])
    · rfl

/-- The value of a literal is in what its token says. -/
theorem value_eq_of_spelling_eq (h : t.spelling = u.spelling) :
    t.stringValue = u.stringValue ∧ t.numberValue? = u.numberValue? := by
  obtain ⟨hkind, htext, hopen, hescape⟩ := Spelling.mk.inj h
  constructor
  · rw [stringValue, stringValue, stringBody, stringBody, hkind, htext, hopen, hescape]
  · rw [numberValue?, numberValue?, htext]

/-- **Every token is lexed from its own text.** The text of a token has one token and its end, and
that token is of the same kind and text, is unterminated if the other one is, and has an escape if
the other one has. So tokens of the same text denote the same, in whatever texts they stand. -/
theorem tokenize_own_text {text : String} {t : Token} (ht : t ∈ tokenize text) :
    (t.kind ≠ .endOfInput → ∃ u ending, tokenize t.text = [u, ending] ∧ u.kind = t.kind ∧
      u.text = t.text ∧ u.flags.unterminated = t.flags.unterminated ∧
      u.flags.hasEscape = t.flags.hasEscape ∧ ending.kind = .endOfInput) ∧
    ∀ {other : String} {u : Token}, u ∈ tokenize other → u.text = t.text →
      u.stringValue = t.stringValue ∧ u.numberValue? = t.numberValue? := by
  refine ⟨fun hkind => ?_, fun hu htext => value_eq_of_spelling_eq (spelling_eq_of_text_eq hu ht htext)⟩
  obtain ⟨c, rest, offset, around, rfl⟩ | ⟨_, _, rfl⟩ := exists_scan_of_mem ht
  · exact ⟨_, _, tokenize_ofList_scan c rest, rfl, rfl, rfl, rfl, rfl⟩
  · exact absurd rfl hkind

/-- A string that a line break leaves open, with a backslash before it. -/
theorem tokenize_own_text_open :
    let text := "x = 'a\\\ny"
    let t : Token := ⟨.string, "'a\\", ⟨4, 7⟩, ⟨false, true, true, true⟩⟩
    let u : Token := ⟨.string, "'a\\", ⟨2, 5⟩, ⟨true, true, true, true⟩⟩
    t ∈ tokenize text ∧ t.kind ≠ .endOfInput ∧ u ∈ tokenize "\n 'a\\" ∧ u.text = t.text ∧
      (∃ v ending, tokenize t.text = [v, ending] ∧ v.kind = t.kind ∧ v.text = t.text ∧
        v.flags.unterminated = true ∧ v.flags.hasEscape = true ∧ ending.kind = .endOfInput) ∧
      u.stringValue = t.stringValue ∧ u.numberValue? = t.numberValue? := by
  intro text t u
  have ht : t ∈ tokenize text := by decide +kernel
  have hu : u ∈ tokenize "\n 'a\\" := by decide +kernel
  obtain ⟨hown, hvalue⟩ := tokenize_own_text ht
  exact ⟨ht, nofun, hu, rfl, hown nofun, hvalue hu rfl⟩

end Token

end CommandScript
