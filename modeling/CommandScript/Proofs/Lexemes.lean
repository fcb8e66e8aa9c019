import CommandScript.Proofs.Lexed
/-!
# CommandScript — what is scanned where

Each lemma here gives a text that begins with a lexeme of some sort, and says that this
lexeme is scanned there: signs, blanks, words, numbers and closed strings. A lexeme
depends on what follows it, so each lemma also says what must not follow.
-/

namespace CommandScript

/-- The character needs a backslash between double quotes. -/
def needsEscape (c : Char) : Bool := c = '\\' || c = '"'

/-- The character as it is written between double quotes. -/
def escaped (c : Char) : List Char := if needsEscape c then ['\\', c] else [c]

namespace Lexeme

variable {c : Char} {tail rest : List Char} {k : TokenKind}

/-- Signs that begin no sign of two characters. -/
theorem pairAt_eq_none (rest : List Char)
    (hc : c ∈ ['&', '-', ',', '[', ']', '\x7b', '\x7d']) : pairAt c rest = none := by
  have hpair : ∀ d, TokenKind.ofPair c d = none := by
    intro d
    simp only [List.mem_cons, List.not_mem_nil, or_false] at hc
    obtain rfl | rfl | rfl | rfl | rfl | rfl | rfl := hc <;> rfl
  cases rest with
  | nil => rfl
  | cons d rest => exact hpair d

/-- A sign of one character. -/
theorem scan_sign (hc : (isLineBreak c || isBlank c || isQuote c || isDecimalDigit c ||
      startsIdentifier c) = false)
    (hminus : c ≠ '-' ∨ rest.head? ≠ some '-') (hpair : pairAt c rest = none)
    (hsign : TokenKind.ofSign c = some k) : scan c rest = ⟨k, [], false, false⟩ := by
  simp only [Bool.or_eq_false_iff] at hc
  obtain ⟨⟨⟨⟨hbreak, hblank⟩, hquote⟩, hdigit⟩, hword⟩ := hc
  unfold scan
  rw [hbreak, hblank, hquote, hdigit, hword]
  simp only [Bool.false_eq_true, if_false]
  rw [if_neg fun h => hminus.elim (absurd h.1) (absurd h.2), hpair, hsign]

/-- A digit of a number begins no identifier. -/
theorem startsIdentifier_of_isDecimalDigit (h : isDecimalDigit c = true) :
    startsIdentifier c = false := by
  simp only [isDecimalDigit, Bool.and_eq_true, decide_eq_true_eq, Char.le_def,
    UInt32.le_iff_toNat_le] at h
  have hhigh : c.val.toNat ≤ 57 := h.2
  have hletter : Text.isLetter c = false := by
    have hascii : c.val < 128 := UInt32.lt_iff_toNat_lt.2 (Nat.lt_of_le_of_lt hhigh (by decide))
    have hupper : ¬ (65 : UInt32) ≤ c.val := fun hle => by
      have hle := UInt32.le_iff_toNat_le.1 hle
      exact absurd (Nat.le_trans hle hhigh) (by decide)
    have hlower : ¬ (97 : UInt32) ≤ c.val := fun hle => by
      have hle := UInt32.le_iff_toNat_le.1 hle
      exact absurd (Nat.le_trans hle hhigh) (by decide)
    have halpha : c.isAlpha = false := by
      change (decide (65 ≤ c.val ∧ c.val ≤ 90) || (decide (97 ≤ c.val) && decide (c.val ≤ 122))) = false
      simp [hupper, hlower]
    simp [Text.isLetter, hascii, halpha]
  have hunderscore : c ≠ '_' := by
    rintro rfl
    exact absurd hhigh (by decide)
  simp [startsIdentifier, hletter, hunderscore]

/-- A character that begins an identifier begins nothing else. -/
theorem only_startsIdentifier (h : startsIdentifier c = true) :
    isLineBreak c = false ∧ isBlank c = false ∧ c ≠ '-' ∧ isQuote c = false ∧
      isDecimalDigit c = false := by
  have hne : ∀ d : Char, startsIdentifier d = false → c ≠ d := by
    rintro d hd rfl
    rw [h] at hd
    cases hd
  refine ⟨?_, ?_, hne '-' (by decide), ?_, ?_⟩
  · simp [isLineBreak, hne '\n' (by decide), hne '\r' (by decide)]
  · simp [isBlank, hne ' ' (by decide), hne '\t' (by decide)]
  · simp [isQuote, hne '"' (by decide), hne '\'' (by decide)]
  · refine Bool.eq_false_iff.2 fun hdigit => ?_
    rw [startsIdentifier_of_isDecimalDigit hdigit] at h
    cases h

/-- A digit begins nothing but a number. -/
theorem only_isDecimalDigit (h : isDecimalDigit c = true) :
    isLineBreak c = false ∧ isBlank c = false ∧ c ≠ '-' ∧ isQuote c = false := by
  have hne : ∀ d : Char, isDecimalDigit d = false → c ≠ d := by
    rintro d hd rfl
    rw [h] at hd
    cases hd
  refine ⟨?_, ?_, hne '-' (by decide), ?_⟩
  · simp [isLineBreak, hne '\n' (by decide), hne '\r' (by decide)]
  · simp [isBlank, hne ' ' (by decide), hne '\t' (by decide)]
  · simp [isQuote, hne '"' (by decide), hne '\'' (by decide)]

/-- What is taken as long as a test holds, up to a character that fails it. -/
theorem takeWhile_append_of_head {p : Char → Bool} (htail : ∀ c ∈ tail, p c = true)
    (hrest : ∀ c ∈ rest.head?, p c = false) : (tail ++ rest).takeWhile p = tail := by
  rw [List.takeWhile_append_of_pos htail]
  cases rest with
  | nil => rw [List.takeWhile_nil, List.append_nil]
  | cons d rest => rw [List.takeWhile_cons_of_neg (by simp [hrest d rfl]), List.append_nil]

/-- The grammar sees every word. -/
theorem isHidden_ofWord (word : String) : (TokenKind.ofWord word).isHidden = false := by
  have hall : ∀ k ∈ TokenKind.identifier :: TokenKind.keywords.map (·.2), k.isHidden = false := by
    decide
  exact hall _ (ofWord_mem word)

/-- A word, up to a character that does not continue it. -/
theorem scan_word (hc : startsIdentifier c = true) (htail : ∀ d ∈ tail, continuesIdentifier d = true)
    (hrest : ∀ d ∈ rest.head?, continuesIdentifier d = false) :
    scan c (tail ++ rest) = ⟨.ofWord (String.ofList (c :: tail)), tail, false, false⟩ := by
  obtain ⟨hbreak, hblank, hminus, hquote, hdigit⟩ := only_startsIdentifier hc
  unfold scan
  rw [hbreak, hblank, hquote, hdigit, hc]
  simp only [Bool.false_eq_true, if_false, if_true, hminus, false_and]
  rw [takeWhile_append_of_head htail hrest]

/-- A blank, up to a character that is none. -/
theorem scan_space (hrest : ∀ d ∈ rest.head?, isBlank d = false) :
    scan ' ' rest = ⟨.whitespace, [], false, false⟩ := by
  have hnone : rest.takeWhile isBlank = [] :=
    takeWhile_append_of_head (fun d hd => absurd hd List.not_mem_nil) hrest
  change Lexeme.mk .whitespace (rest.takeWhile isBlank) false false = _
  rw [hnone]

/-- Digits are all of a number, up to a character that is neither a digit nor a point. -/
theorem numberTail_append {pointSeen : Bool} (htail : ∀ d ∈ tail, isDecimalDigit d = true)
    (hrest : ∀ d ∈ rest.head?, isDecimalDigit d = false ∧ d ≠ '.') :
    numberTail pointSeen (tail ++ rest) = tail := by
  induction tail with
  | nil =>
    cases rest with
    | nil => rfl
    | cons d rest =>
      obtain ⟨hdigit, hpoint⟩ := hrest d rfl
      rw [List.nil_append, numberTail, if_neg (by simp [hdigit]), if_neg fun h => hpoint h.1]
  | cons c tail ih =>
    obtain ⟨hc, htail⟩ := List.forall_mem_cons.1 htail
    rw [List.cons_append, numberTail, if_pos hc, ih htail]

/-- One point among the digits belongs to the number, where a digit follows it. -/
theorem numberTail_decimal {fraction : List Char} (htail : ∀ d ∈ tail, isDecimalDigit d = true)
    (hne : fraction ≠ []) (hfraction : ∀ d ∈ fraction, isDecimalDigit d = true)
    (hrest : ∀ d ∈ rest.head?, isDecimalDigit d = false ∧ d ≠ '.') :
    numberTail false (tail ++ '.' :: (fraction ++ rest)) = tail ++ '.' :: fraction := by
  induction tail with
  | nil =>
    obtain ⟨d, ds, rfl⟩ := List.exists_cons_of_ne_nil hne
    have hdigit : isDecimalDigit d = true := hfraction d List.mem_cons_self
    rw [List.nil_append, numberTail, if_neg (by decide), if_pos ⟨rfl, by decide, by simp [hdigit]⟩,
      numberTail_append hfraction hrest, List.nil_append]
  | cons c tail ih =>
    obtain ⟨hc, htail⟩ := List.forall_mem_cons.1 htail
    rw [List.cons_append, numberTail, if_pos hc, ih htail, List.cons_append]

/-- What begins with a digit is a number. -/
theorem scan_of_isDecimalDigit (hc : isDecimalDigit c = true) (rest : List Char) :
    scan c rest = ⟨.number, numberTail false rest, false, false⟩ := by
  obtain ⟨hbreak, hblank, hminus, hquote⟩ := only_isDecimalDigit hc
  unfold scan
  rw [hbreak, hblank, hquote, hc]
  simp only [Bool.false_eq_true, if_false, if_true, hminus, false_and]

/-- A number of digits alone. -/
theorem scan_number (hc : isDecimalDigit c = true) (htail : ∀ d ∈ tail, isDecimalDigit d = true)
    (hrest : ∀ d ∈ rest.head?, isDecimalDigit d = false ∧ d ≠ '.') :
    scan c (tail ++ rest) = ⟨.number, tail, false, false⟩ := by
  rw [scan_of_isDecimalDigit hc, numberTail_append htail hrest]

/-- A string between double quotes, with a backslash before each quote and each backslash
in it. -/
theorem scan_string {cs : List Char} (hcs : ∀ d ∈ cs, isLineBreak d = false) (rest : List Char) :
    scan '"' (cs.flatMap escaped ++ '"' :: rest) =
      ⟨.string, cs.flatMap escaped ++ ['"'], false, cs.any needsEscape⟩ := by
  change stringTail '"' _ = _
  induction cs with
  | nil =>
    rw [List.flatMap_nil, List.nil_append, stringTail.eq_def]
    dsimp only
    rw [if_pos rfl]
    rfl
  | cons c cs ih =>
    obtain ⟨hc, hcs⟩ := List.forall_mem_cons.1 hcs
    rw [List.flatMap_cons, List.any_cons]
    by_cases hescape : needsEscape c = true
    · have hpair : escaped c = ['\\', c] := if_pos hescape
      rw [hpair, hescape]
      simp only [List.cons_append, List.nil_append]
      rw [stringTail, if_neg (by decide), if_neg (by decide), if_pos rfl]
      dsimp only
      rw [hc, ih hcs]
      rfl
    · have hself : escaped c = [c] := if_neg hescape
      obtain ⟨hbackslash, hquote⟩ : c ≠ '\\' ∧ c ≠ '"' := by
        simpa [needsEscape] using hescape
      rw [hself, Bool.eq_false_iff.2 hescape, Bool.false_or]
      rw [List.singleton_append, List.cons_append, stringTail.eq_def]
      dsimp only
      rw [if_neg hquote, if_neg (by simp [hc]), if_neg hbackslash, ih hcs]
      rfl

end Lexeme

end CommandScript
