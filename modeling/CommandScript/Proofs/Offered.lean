import CommandScript.Proofs.Commands
import CommandScript.Proofs.Crash
import CommandScript.Proofs.Matching
import CommandScript.Proofs.Shortest
import CommandScript.Shape.Suggest
/-!
# CommandScript — what is offered for a literal

For a literal one text is offered: a word where that is possible, and else what scripts write for
the value. Behind a name and a blank the text is the one argument of a command, and the argument
has a value that matches the literal.

The text does not always say what the value is. A string with a line break in it cannot be written
as it stands, a whole number can have too many digits, and a floating-point number has no text of
its own where it is infinite or is written with an exponent. `Typeable` leaves these out.
-/

namespace CommandScript

open Parse Cursor

/-! ## Numbers -/

namespace Binary

variable {x : Float} {b : Binary} {n : Int}

theorem twoTo_mono {m n : Nat} (h : m ≤ n) : twoTo m ≤ twoTo n := Nat.pow_le_pow_right (by decide) h

theorem twoTo_add (m n : Nat) : twoTo (m + n) = twoTo m * twoTo n := Nat.pow_add 2 m n

/-- A whole number in units of one. -/
theorem unitsOf_natAbs (n : Int) : unitsOf (n < 0) n.natAbs 0 0 = n := by
  have hone : twoTo (0 - 0 : Int).toNat = 1 := rfl
  unfold unitsOf
  dsimp only
  rw [hone, Nat.mul_one]
  by_cases hn : n < 0
  · rw [if_pos (decide_eq_true hn)]
    omega
  · rw [if_neg (by simpa using hn)]
    omega

/-- What is whole stands for the whole number that it is. -/
theorem compare?_ofInt (h : b.toInt? = some n) : compare? (ofInt n) b = some .eq := by
  cases b with
  | nan | infinite => cases h
  | finite s m e =>
    unfold toInt? at h
    dsimp only at h
    split at h
    next he =>
      refine (compare?_finite (Int.le_refl 0) he).2 ?_
      rw [unitsOf_natAbs, Option.some.inj h]
    next he =>
      have hle : e ≤ 0 := Int.le_of_not_le he
      split at h
      next hmod =>
        -- counted in units of the exponent, which is the smaller one
        refine (compare?_finite hle (Int.le_refl e)).2 ?_
        have hself : (e - e).toNat = 0 := by omega
        have hopposite : (0 - e).toNat = (-e).toNat := by omega
        have hmul : m / twoTo (-e).toNat * twoTo (-e).toNat = m :=
          Nat.div_mul_cancel (Nat.dvd_of_mod_eq_zero hmod)
        rw [unitsOf_eq_mul hle (Int.le_refl 0), unitsOf_natAbs, ← Option.some.inj h,
          ← unitsOf_eq_mul hle (Int.le_refl 0)]
        unfold unitsOf
        dsimp only
        rw [hopposite, hmul, hself]
        simp [twoTo]
      next => cases h

/-- A floating-point number that is whole is not too long to be written out. -/
theorem natAbs_lt_of_toInt? (h : (ofFloat x).toInt? = some n) :
    n.natAbs < Decimal.tenTo Decimal.digitLimit := by
  have hlimit : twoTo 1024 ≤ Decimal.tenTo Decimal.digitLimit :=
    (Decimal.twoTo_le_tenTo 1024).trans (Decimal.tenTo_mono (by decide))
  refine Nat.lt_of_lt_of_le ?_ hlimit
  cases hx : ofFloat x with
  | nan | infinite =>
    rw [hx] at h
    cases h
  | finite s m e =>
    rw [hx] at h
    have hunits : ∀ k : Nat, ∀ f : Int, (unitsOf s k f 0).natAbs = k * twoTo f.toNat := by
      intro k f
      unfold unitsOf
      dsimp only
      rw [Int.sub_zero]
      split <;> omega
    obtain rfl | hm := Nat.eq_zero_or_pos m
    · unfold toInt? at h
      dsimp only at h
      rw [Nat.zero_mod, if_pos rfl, Nat.zero_div, ← apply_ite some, Option.some.injEq] at h
      have hzero : n.natAbs = 0 := by
        rw [← h]
        split <;> rw [hunits, Nat.zero_mul]
      rw [hzero]
      exact twoTo_pos 1024
    obtain ⟨hcanonical, hfinite, -⟩ := bits_of_finite x.toBits.toNat_lt hx (Nat.ne_of_gt hm)
    have hdigits : m < twoTo 53 := hcanonical.digits
    unfold toInt? at h
    dsimp only at h
    split at h
    next he =>
      -- a number with a greater exponent would be beyond the largest one
      have hexponent : e.toNat ≤ 971 := by
        have hfull : twoTo 52 ≤ m := hcanonical.full.resolve_left fun hleast => by
          rw [hleast] at he
          exact absurd he (by decide)
        rw [magnitudeBits, if_neg (Nat.not_lt.2 hfull)] at hfinite
        unfold twoTo at hfull hfinite
        simp only [Nat.pow_eq] at hfull hfinite
        omega
      rw [← Option.some.inj h, hunits]
      calc m * twoTo e.toNat < twoTo 53 * twoTo e.toNat :=
            Nat.mul_lt_mul_of_pos_right hdigits (twoTo_pos _)
        _ ≤ twoTo 53 * twoTo 971 := Nat.mul_le_mul_left _ (twoTo_mono hexponent)
        _ = twoTo 1024 := (twoTo_add 53 971).symm
    next he =>
      split at h
      next =>
        rw [← Option.some.inj h, hunits]
        have hle : m / twoTo (-e).toNat ≤ m := Nat.div_le_self _ _
        have hroom : twoTo 53 ≤ twoTo 1024 := twoTo_mono (by decide)
        change m / twoTo (-e).toNat * 1 < twoTo 1024
        omega
      next => cases h

end Binary

/-! ## Literals -/

/-- A value with a text that says what it is, and on one line. A floating-point number that is not
whole may not be so small that it is written with an exponent. -/
inductive Typeable : Value → Prop
  | nil : Typeable .nil
  | bool (b : Bool) : Typeable (.bool b)
  | string {s : String} (oneLine : ∀ c ∈ s.toList, isLineBreak c = false) : Typeable (.string s)
  | int {n : Int} (digits : n.natAbs < Decimal.tenTo Decimal.digitLimit) : Typeable (.int n)
  | whole {x : Float} {n : Int} (stands : (Binary.ofFloat x).toInt? = some n) :
      Typeable (.number (.float x))
  | fraction {x : Float} {s : Bool} {m : Nat} {e : Int} (stands : Binary.ofFloat x = .finite s m e)
      (notWhole : (Binary.ofFloat x).toInt? = none)
      (notSmall : Binary.twoTo (-e).toNat ≤ m * Decimal.tenTo 4) : Typeable (.number (.float x))

section Literals

variable {σ : Type} {host : Host σ} {e : Expression} {v w : Value}

/-- The literal takes what is the same and of one kind. -/
theorem matchWith_literal (h : Heap) (hv : v.isContainer = false) (hkind : w.kind = v.kind)
    (hsame : w.same v = true) : Shape.matchWith h true (.literal v) w = .ok (some []) := by
  have hequal : Shape.literalMatches h true w v = .ok true := by
    change h.equal w v = .ok true
    rw [h.equal_of_not_isContainer hv, hkind, hsame, beq_self_eq_true, Bool.and_true]
  rw [Shape.matchWith, hequal]
  rfl

/-- The expression has a value in every state, and the literal takes it. -/
def Fulfils (host : Host σ) (v : Value) (e : Expression) : Prop :=
  ∀ (source : String) (s : State σ) (budget : Nat), 2 ≤ budget →
    ∃ w h, (Eval.run host budget source (.value e)).Gives s w h ∧
      Shape.matchWith h true (.literal v) w = .ok (some [])

theorem Fulfils.of_value (hv : v.isContainer = false) (hkind : w.kind = v.kind)
    (hsame : w.same v = true)
    (h : ∀ (source : String) (s : State σ) (budget : Nat),
      (Eval.value host (Eval.run host (budget + 1)) source e).Gives s w s.heap) :
    Fulfils host v e := by
  intro source s budget hbudget
  obtain ⟨n, rfl⟩ : ∃ n, budget = n + 2 := ⟨budget - 2, by omega⟩
  exact ⟨w, s.heap, h source s n, matchWith_literal _ hv hkind hsame⟩

theorem Denotes.fulfils {d : Datum} (h : Denotes host e d) (hd : d.Scalar)
    (hv : v.isContainer = false)
    (hsame : ∀ heap w, d.Is heap w → w.kind = v.kind ∧ w.same v = true) : Fulfils host v e := by
  intro source s budget hbudget
  have hlevels : d.levels = 0 := by cases hd <;> rfl
  obtain ⟨w, heap, hgives, hw⟩ := h source s budget (by omega)
  obtain ⟨hkind, hsame⟩ := hsame heap w hw
  exact ⟨w, heap, hgives, matchWith_literal heap hv hkind hsame⟩

end Literals

/-! ## Texts of one argument -/

/-- Kinds of token that an argument for a literal begins with, but for a minus. -/
def argumentStart : List TokenKind := [.kwNil, .kwTrue, .kwFalse, .number, .string, .identifier]

/-- The text is one argument, and what the argument is evaluated to is taken by the literal. -/
structure Argument {σ : Type} (host : Host σ) (v : Value) (text : String) (us : List Spelling) :
    Prop where
  spelled : SpelledBy text.toList us
  starts : Spelling.firstKind us ∈ argumentStart ∨
    ∃ cs, IsNumeral cs ∧ text.toList = '-' :: cs ∧ us = [.sign .minus '-', .numeral cs]
  read : ∀ limit budget, 1 ≤ limit →
    (Grammar.read limit (budget + 2) (.operand 0 true)).Reads us (Fulfils host v)

namespace Argument

variable {σ : Type} {host : Host σ} {v : Value}

/-- What is no container, as it is written. -/
theorem scalar {d : Datum} (hd : d.Scalar) (hv : v.isContainer = false)
    (hsame : ∀ heap w, d.Is heap w → w.kind = v.kind ∧ w.same v = true) :
    Argument host v d.scalarText d.scalarTokens where
  spelled := .scalar hd
  starts := by
    cases hd with
    | nil => exact .inl (by decide)
    | bool b => cases b <;> exact .inl (by decide)
    | string oneLine => exact .inl (by simp [Datum.scalarTokens, Spelling.string, argumentStart])
    | @int n digits =>
      unfold Datum.scalarTokens Datum.scalarText
      dsimp only
      rw [SpelledBy.toList_toString]
      split
      next hn => exact .inr ⟨_, SpelledBy.isNumeral_toDigits n.natAbs, rfl, rfl⟩
      next hn => exact .inl (by simp [Spelling.number, argumentStart])
  read limit budget hlimit := by
    have hreads : (Grammar.read limit (budget + 2) (.operand 0 true)).Reads d.scalarTokens
        (Denotes host · d) := Grammar.reads_scalar hd hlimit
    exact hreads.imp fun e he => he.fulfils hd hv hsame

/-- A number as it is written. -/
theorem numeral {cs : List Char} {k : Number} (hcs : IsNumeral cs)
    (hvalue : ∀ t : Token, t.spelling = .numeral cs → t.numberValue? = some k)
    (hv : v.isContainer = false) (hkind : v.kind = .number) (hsame : (Value.number k).same v = true) :
    Argument host v (String.ofList cs) [.numeral cs] where
  spelled := by
    rw [String.toList_ofList]
    exact .numeral hcs
  starts := .inl (by simp [Spelling.numeral, argumentStart])
  read limit budget hlimit := by
    refine (Grammar.reads_literal limit 0 (budget + 1) true (.numeral cs) .number .number rfl
      (by simp) (Nat.zero_le _)).imp fun e he => ?_
    obtain ⟨t, rfl, ht⟩ := he
    exact .of_value (w := .number k) hv hkind.symm hsame fun source s _ =>
      Denotes.gives_number (hvalue t ht) _ source s

/-- A number with a minus before it. -/
theorem negated {cs : List Char} {k : Number} (hcs : IsNumeral cs)
    (hvalue : ∀ t : Token, t.spelling = .numeral cs → t.numberValue? = some k)
    (hv : v.isContainer = false) (hkind : v.kind = .number)
    (hsame : (Value.number k.neg).same v = true) :
    Argument host v ("-" ++ String.ofList cs) [.sign .minus '-', .numeral cs] := by
  have htext : ("-" ++ String.ofList cs).toList = '-' :: cs := by simp
  refine ⟨htext ▸ .negated hcs, .inr ⟨cs, hcs, htext, rfl⟩, fun limit budget hlimit => ?_⟩
  refine (Grammar.reads_negated limit 0 budget true (.numeral cs) rfl hlimit).imp fun e he => ?_
  obtain ⟨o, t, span, rfl, ho, ht⟩ := he
  exact .of_value (w := .number k.neg) hv hkind.symm hsame (Denotes.gives_negated (hvalue t ht) ho span)

/-- A word is the string that it is. -/
theorem word {s : String} (hs : isIdentifier s.toList = true) :
    Argument host (.string s) s [.word s.toList] := by
  obtain ⟨c, tail, hcs, hc, htail, -⟩ := eq_cons_of_isIdentifier hs
  have hkind : (Spelling.word s.toList).kind = .identifier := Spelling.kind_word hs
  refine ⟨?_, .inl (by simp [hkind, argumentStart]), fun limit budget hlimit => ?_⟩
  · rw [hcs]
    exact .word hc htail
  intro c ws hws hshows
  refine Ends.sound fun hc => ?_
  have hidentifier : c.kind = .identifier := (hshows.kind_eq hc).trans hkind
  have hdot : (c.ahead 1).kind ≠ .dot := by
    rw [hshows.ahead_kind_eq hc]
    have hall : ∀ k ∈ [TokenKind.endOfInput, .comma, .rightBracket, .rightBrace], k ≠ .dot := by
      decide
    exact hall _ hws
  change (Grammar.operand limit (Grammar.read limit (budget + 1)) 0 true).Ends c _
  unfold Grammar.operand
  rw [if_neg (Nat.not_lt_zero limit)]
  refine Ends.get_bind ?_
  rw [hidentifier]
  dsimp only
  rw [if_pos (by simpa using hdot)]
  refine (passes_bump hshows).bind fun t d ht => Ends.pure ⟨⟨_, rfl, ?_⟩, ht.2⟩
  have hbare : t.kind ≠ .string := by
    have hsame : t.kind = .identifier := (congrArg Spelling.kind ht.1).trans hkind
    rw [hsame]
    decide
  have hvalue : t.stringValue = s := by
    rw [Token.stringValue, if_pos hbare]
    exact (congrArg Spelling.text ht.1).trans String.ofList_toList
  refine .of_value (w := .string s) rfl rfl (Value.same_refl (by simp [Value.IsNaN])) ?_
  intro source u budget
  rw [← hvalue]
  exact Exec.gives_pure u _

end Argument

/-! ## Numbers with a point -/

section Points

variable {whole fraction : List Char}

/-- Digits, a point and digits are one number. -/
theorem isNumeral_decimal (hwhole : whole ≠ []) (hfraction : fraction ≠ [])
    (hall : ∀ c ∈ whole ++ fraction, isDecimalDigit c = true) :
    IsNumeral (whole ++ '.' :: fraction) := by
  obtain ⟨c, tail, rfl⟩ := List.exists_cons_of_ne_nil hwhole
  obtain ⟨hwhole, hdigits⟩ := List.forall_mem_append.1 hall
  obtain ⟨hc, htail⟩ := List.forall_mem_cons.1 hwhole
  refine ⟨c, tail ++ '.' :: fraction, rfl, hc, fun rest hrest => ?_⟩
  rw [List.append_assoc, List.cons_append, Lexeme.scan_of_isDecimalDigit hc,
    Lexeme.numberTail_decimal htail hfraction hdigits fun d hd => (hrest.head hd).2]

/-- The number is read from what stands before the point and what stands behind it. -/
theorem numberValue?_decimal (hall : ∀ c ∈ whole ++ fraction, isDecimalDigit c = true) {t : Token}
    (ht : t.spelling = .numeral (whole ++ '.' :: fraction)) :
    t.numberValue? = some (.float (Decimal.readFloat whole fraction)) := by
  have htext : t.text = String.ofList (whole ++ '.' :: fraction) := congrArg Spelling.text ht
  have hnone : ∀ c ∈ whole, decide (c ≠ '.') = true := by
    intro c hc
    have hdigit := hall c (List.mem_append_left _ hc)
    refine decide_eq_true fun hpoint => ?_
    rw [hpoint] at hdigit
    exact absurd hdigit (by decide)
  have hbefore : (whole ++ '.' :: fraction).takeWhile (· ≠ '.') = whole := by
    rw [List.takeWhile_append_of_pos hnone, List.takeWhile_cons_of_neg (by simp), List.append_nil]
  have hbehind : (whole ++ '.' :: fraction).dropWhile (· ≠ '.') = '.' :: fraction := by
    rw [List.dropWhile_append_of_pos hnone, List.dropWhile_cons_of_neg (by simp)]
  unfold Token.numberValue?
  dsimp only
  rw [htext, String.toList_ofList, hbefore, hbehind, if_pos (by simp)]
  rfl

end Points

/-! ## What is offered -/

theorem Heap.format_number (heap : Heap) {k : Number} {text : String} (h : k.text? = some text) :
    heap.format (.number k) = .ok text := by
  rw [format, formatWithin, h]
  rfl

/-- **The text for a literal is one argument**, where the text says what the literal is. -/
theorem Typeable.exists_argument {σ : Type} (host : Host σ) (heap : Heap) {v : Value}
    (hv : Typeable v) :
    ∃ text us, Shape.literalText heap v = .ok text ∧ Argument host v text us := by
  have hscalar : ∀ {d : Datum}, d.Scalar → d.Is heap v → heap.format v = .ok d.scalarText :=
    fun hd hv => hd.formatWithin_eq hv _
  cases hv with
  | nil =>
    refine ⟨_, _, hscalar .nil .nil, .scalar .nil rfl fun _ w hw => ?_⟩
    cases hw
    exact ⟨rfl, rfl⟩
  | bool b =>
    refine ⟨_, _, hscalar (.bool b) (.bool b), .scalar (.bool b) rfl fun _ w hw => ?_⟩
    cases hw
    exact ⟨rfl, Value.same_refl (by simp [Value.IsNaN])⟩
  | @string s oneLine =>
    by_cases hs : isIdentifier s.toList = true
    · exact ⟨s, _, if_pos hs, .word hs⟩
    · refine ⟨_, _, (if_neg hs).trans (hscalar (.string oneLine) (.string s)),
        .scalar (.string oneLine) rfl fun _ w hw => ?_⟩
      cases hw
      exact ⟨rfl, Value.same_refl (by simp [Value.IsNaN])⟩
  | @int n digits =>
    refine ⟨_, _, hscalar (.int digits) (.int n), .scalar (.int digits) rfl fun _ w hw => ?_⟩
    cases hw
    exact ⟨rfl, Number.equal_refl Binary.noConfusion⟩
  | @whole x n stands =>
    -- written as the whole number, and read as that
    have hdigits := Binary.natAbs_lt_of_toInt? stands
    have htext : (Number.float x).text? = some (toString n) := by
      rw [Number.text?, stands]
      exact if_pos hdigits
    refine ⟨_, _, heap.format_number htext, .scalar (.int hdigits) rfl fun _ w hw => ?_⟩
    cases hw
    exact ⟨rfl, Number.equal_iff.2 (Binary.compare?_ofInt stands)⟩
  | @fraction x s m e stands notWhole notSmall =>
    obtain ⟨whole, fraction, htext, hwhole, hfraction, hall, hread⟩ :=
      Decimal.exists_readFloat stands notWhole notSmall
    have hformat : (Number.float x).text? = some (Decimal.ofFloat x) := by
      rw [Number.text?, notWhole]
    have hself : (Value.number (.float x)).same (.number (.float x)) = true :=
      Number.equal_refl (by rw [Number.exact, stands]; exact Binary.noConfusion)
    have hnumeral := isNumeral_decimal hwhole hfraction hall
    have hvalue : ∀ t : Token, t.spelling = .numeral (whole ++ '.' :: fraction) →
        t.numberValue? = some (.float (Decimal.readFloat whole fraction)) :=
      fun t => numberValue?_decimal hall
    rw [htext] at hformat
    cases s with
    | false =>
      have hread : Decimal.readFloat whole fraction = x := hread
      rw [if_neg Bool.false_ne_true, String.empty_append] at hformat
      refine ⟨_, _, heap.format_number hformat, .numeral hnumeral hvalue rfl rfl ?_⟩
      rw [hread]
      exact hself
    | true =>
      have hread : -Decimal.readFloat whole fraction = x := hread
      refine ⟨_, _, heap.format_number hformat, .negated hnumeral hvalue rfl rfl ?_⟩
      rw [Number.neg, hread]
      exact hself

/-- The statement is a command of this name with one argument, and the literal takes what that is
evaluated to. -/
def CallsWith {σ : Type} (host : Host σ) (name : String) (v : Value) (s : Statement) : Prop :=
  ∃ callee e span span', s = .command (.mk (.mk (.bare callee) [] span) [e] span') ∧
    callee.text = name ∧ Fulfils host v e

namespace Argument

variable {σ : Type} {host : Host σ} {v : Value} {name text : String} {us : List Spelling}

theorem spells (h : Argument host v text us) (hname : isIdentifier name.toList = true) :
    Spells (name ++ " " ++ text).toList (.word name.toList :: us) := by
  obtain ⟨c, tail, hcs, hc, htail, -⟩ := eq_cons_of_isIdentifier hname
  obtain ⟨d, ds, htext, hblank⟩ := h.spelled.starts
  have hargument := h.spelled.before (fun d hd => absurd hd (by simp)) Spells.nil
  rw [List.append_nil, List.append_nil] at hargument
  have hspace := Spells.space (by simp [htext, hblank]) hargument
  have hends : ∀ d ∈ (' ' :: text.toList).head?, continuesIdentifier d = false := by
    simp
    decide
  have hall := Spells.word hc htail hends hspace
  simpa [hcs] using hall

theorem operand (h : Argument host v text us) :
    Spelling.firstKind us ∈ Grammar.operandStart := by
  have hall : ∀ k ∈ argumentStart, k ∈ Grammar.operandStart := by decide
  obtain hkind | ⟨cs, -, -, rfl⟩ := h.starts
  · exact hall _ hkind
  · rw [Spelling.firstKind_cons, Spelling.sign_kind]
    decide

/-- The argument begins with no operator but a minus that is a sign. -/
theorem begins (h : Argument host v text us) (hname : isIdentifier name.toList = true) {d : Cursor}
    (hd : d.Sound) (hpasses : (ofTokens (Token.tokenize (name ++ " " ++ text))).Passes us d) :
    (Spelling.firstKind us).precedence? = none ∨ Grammar.seesNegative d = true := by
  obtain hkind | ⟨cs, hcs, htext, rfl⟩ := h.starts
  · have hall : ∀ k ∈ argumentStart, k.precedence? = none := by decide
    exact .inl (hall _ hkind)
  · right
    have hwhole : (name ++ " " ++ text).toList = name.toList ++ ' ' :: '-' :: cs := by simp [htext]
    obtain ⟨t, t₁, t₂, hup, hbefore, hbehind⟩ := Token.exists_upcoming_negated hname hcs hwhole
    have hleft : d.upcoming = [t₁, t₂] := hpasses.upcoming_eq hup rfl
    have hminus : d.sees .minus = true := by
      rw [hpasses.shows.sees_eq hd]
      rfl
    have htoken : d.token = t₁ := by rw [token, hleft, List.headD_cons]
    have hnext : d.ahead 1 = t₂ := by rw [ahead, hleft]; rfl
    rw [Grammar.seesNegative, hminus, htoken, hnext, hbefore, hbehind]
    rfl

/-- **Behind a name and a blank, the argument is all there is.** -/
theorem passes_statement (h : Argument host v text us) (hname : isIdentifier name.toList = true)
    {limit : Nat} (hlimit : 1 ≤ limit) (budget : Nat) :
    let c := ofTokens (Token.tokenize (name ++ " " ++ text))
    (Grammar.statement limit (Grammar.read limit (budget + 2)) 0).Ends c fun r d =>
      (∃ s, r = some s ∧ CallsWith host name v s) ∧ c.Passes [] d := by
  intro c
  have hshows : c.Shows (.word name.toList :: us) := (h.spells hname).shows
  have hoperand := h.operand
  have hkinds : ∀ k ∈ Grammar.operandStart, k ≠ .endOfInput ∧ k ≠ .dot ∧ k ≠ .equal := by decide
  obtain ⟨hsome, hdot, hequal⟩ := hkinds _ hoperand
  obtain ⟨w, vs, rfl⟩ : ∃ w vs, us = w :: vs := by
    cases us with
    | nil => exact absurd rfl hsome
    | cons w vs => exact ⟨w, vs, rfl⟩
  have hcommand : (Grammar.varStatement (Grammar.read limit (budget + 2)) 0).Ends c fun s d =>
      ∃ k, s = .command k ∧ (∃ callee e span span', k = .mk (.mk (.bare callee) [] span) [e] span' ∧
        callee.text = name ∧ Fulfils host v e) ∧ c.Passes [] d := by
    refine Grammar.ends_varStatement_command (Grammar.passes_var_bare hname hdot hshows)
      (fun v d hd hv => ⟨?_, ?_⟩) fun v d hd hv => ?_
    · rw [hv.2.shows.sees_eq hd]
      exact beq_eq_false_iff_ne.2 hequal
    · obtain hnone | hnegative := h.begins hname hd hv.2
      · rw [Grammar.seesOperator, hv.2.shows.kind_eq hd, hnone]
        rfl
      · rw [hnegative, Bool.not_true, Bool.and_false]
    · obtain ⟨⟨callee, span, rfl, hcallee⟩, hpasses⟩ := hv
      have hgoes := Grammar.endsArguments_eq_false hd hpasses.shows hoperand (h.begins hname hd hpasses)
      refine (Grammar.passes_command_singleton hpasses.shows hgoes (h.read limit budget hlimit) _).imp
        fun k e _ hk => ?_
      obtain ⟨⟨e, span', rfl, he⟩, hend⟩ := hk
      exact ⟨⟨callee, e, span, span', rfl, hcallee.trans String.ofList_toList, he⟩, hpasses.trans hend⟩
  refine Ends.sound fun hc => ?_
  have hkind : c.kind = .identifier := (hshows.kind_eq hc).trans (Spelling.kind_word hname)
  refine (Grammar.ends_statement_var (.inl hkind) hcommand).imp fun r d _ hr => ?_
  obtain ⟨s, rfl, k, rfl, ⟨callee, e, span, span', rfl, hcallee, he⟩, hend⟩ := hr
  exact ⟨⟨_, rfl, callee, e, span, span', rfl, hcallee, he⟩, hend⟩

end Argument

/-- **What is offered for a literal is an argument that the literal takes.** One text is offered
for a literal that can be typed. Behind the name of a command and a blank it is read without an
issue, as the one argument of the command; and in every state, what the argument is evaluated to
matches the literal. -/
theorem parse_suggest_literal {σ : Type} (host : Host σ) (heap : Heap) {v : Value}
    (hv : Typeable v) {name : String} (hname : isIdentifier name.toList = true) (typed : String)
    {limit : Nat} (hlimit : 1 ≤ limit) :
    ∃ text, Shape.suggest heap typed (.literal v) = .ok [.plain text] ∧
      (parse (name ++ " " ++ text) limit).issues = [] ∧
      ∃ callee e span₁ span₂ span₃, (parse (name ++ " " ++ text) limit).block =
          some (.mk [.command (.mk (.mk (.bare callee) [] span₁) [e] span₂)] none span₃) ∧
        callee.text = name ∧
        ∀ (source : String) (s : State σ) (budget : Nat), 2 ≤ budget →
          ∃ w h, (Eval.run host budget source (.value e)).Gives s w h ∧
            Shape.matchWith h true (.literal v) w = .ok (some []) := by
  obtain ⟨text, us, htext, hargument⟩ := hv.exists_argument host heap
  have hspells := hargument.spells hname
  obtain ⟨c, tail, hcs, hc, htail, -⟩ := eq_cons_of_isIdentifier hname
  have hwhole : ∀ w ∈ Spelling.word name.toList :: us, w.kind ≠ .unknown ∧ w.unterminated = false := by
    have hfirst := (SpelledBy.word hc htail).whole
    rw [← hcs] at hfirst
    exact List.forall_mem_cons.2 ⟨hfirst _ List.mem_cons_self, hargument.spelled.whole⟩
  have hfirst : (Spelling.word name.toList).kind ∉
      [.endOfInput, .semicolon, .unknown, .kwBreak, .kwContinue, .kwReturn] := by
    rw [Spelling.kind_word hname]
    decide
  obtain ⟨s, span, hblock, ⟨callee, e, span₁, span₂, rfl, hcallee, he⟩, hissues⟩ :=
    parse_of_statement limit hspells hwhole hfirst fun budget hbudget => by
      obtain ⟨budget, rfl⟩ : ∃ b, budget = b + 2 := ⟨budget - 2, by omega⟩
      exact hargument.passes_statement hname hlimit budget
  refine ⟨text, ?_, hissues, callee, e, span₁, span₂, span, hblock, hcallee, he⟩
  rw [Shape.suggest, htext]
  rfl

/-- A negative number that is not whole: the minus behind the blank is its sign. -/
theorem parse_suggest_literal_half :
    let v : Value := .number (.float (-0.5))
    Typeable v ∧ isIdentifier "wait".toList = true ∧
      ∃ text, Shape.suggest {} "" (.literal v) = .ok [.plain text] ∧
        (parse ("wait" ++ " " ++ text) 1).issues = [] ∧
        ∃ callee e span₁ span₂ span₃, (parse ("wait" ++ " " ++ text) 1).block =
            some (.mk [.command (.mk (.mk (.bare callee) [] span₁) [e] span₂)] none span₃) ∧
          callee.text = "wait" ∧
          ∃ w h, (Eval.run (Recorder.host 8) 2 text (.value e)).Gives Recorder.ready w h ∧
            Shape.matchWith h true (.literal v) w = .ok (some []) := by
  intro v
  have hv : Typeable v :=
    .fraction (s := true) (m := Binary.twoTo 52) (e := -53) rfl (by decide) (by decide)
  have hname : isIdentifier "wait".toList = true := by decide
  obtain ⟨text, htext, hissues, callee, e, span₁, span₂, span₃, hblock, hcallee, hvalue⟩ :=
    parse_suggest_literal (Recorder.host 8) {} hv hname "" (Nat.le_refl 1)
  exact ⟨hv, hname, text, htext, hissues, callee, e, span₁, span₂, span₃, hblock, hcallee,
    hvalue text Recorder.ready 2 (Nat.le_refl 2)⟩

end CommandScript
