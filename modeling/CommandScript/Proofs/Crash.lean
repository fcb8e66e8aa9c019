import CommandScript.Value.Operator
/-!
# CommandScript — what can crash

Most of what can go wrong in an operation on values is refused, and becomes a
failure of the script. This file says what is left, operation by operation:
showing a value, comparing two, and the operators.

Of the operators only the power crashes by itself, where zero is raised to a
negative power. It would also crash if it had to write out a whole number of too
many digits in order to say that a result is not real; but a number that is raised
to a power that is not real has a `Float`, and those are not so long
(`Number.toFloat?_isSome_of_pow_notReal`).
-/

namespace CommandScript

variable {α β : Type}

/-- The crashes of the evaluator itself. All others come from a command of the host,
or from a question to a tuple, and are answers of a call. -/
inductive Crash.Own : Crash → Prop where
  | zeroToNegativePower : Own .zeroToNegativePower
  | tooManyDigits : Own .tooManyDigits
  | beyondFloat : Own .beyondFloat
  | endless : Own .endless

/-- What ends well in two steps ends well in each of them. -/
theorem ok_of_bind {ε : Type} {x : Except ε α} {f : α → Except ε β} {b : β}
    (h : x >>= f = .ok b) : ∃ a, x = .ok a ∧ f a = .ok b := by
  cases x with
  | ok a => exact ⟨a, rfl, h⟩
  | error e => cases h

/-- If it crashes at all, a computation crashes with one of `P`. -/
def CrashesOnly (P : Crash → Prop) (r : Except Crash α) : Prop := ∀ c, r = .error c → P c

namespace CrashesOnly

variable {P Q : Crash → Prop}

theorem ok (a : α) : CrashesOnly P (.ok a) := fun _ h => nomatch h

theorem error {c : Crash} (h : P c) : CrashesOnly P (.error c : Except Crash α) :=
  fun _ hc => Except.error.inj hc ▸ h

theorem mono {r : Except Crash α} (h : CrashesOnly P r) (hPQ : ∀ c, P c → Q c) :
    CrashesOnly Q r :=
  fun c hc => hPQ c (h c hc)

theorem bind {r : Except Crash α} {f : α → Except Crash β} (hr : CrashesOnly P r)
    (hf : ∀ a, CrashesOnly P (f a)) : CrashesOnly P (r >>= f) := by
  cases r with
  | ok a => exact hf a
  | error c => exact error (hr c rfl)

theorem map {r : Except Crash α} (hr : CrashesOnly P r) (f : α → β) :
    CrashesOnly P (f <$> r) := by
  cases r with
  | ok a => exact ok (f a)
  | error c => exact error (hr c rfl)

theorem mapM {f : α → Except Crash β} {l : List α} (h : ∀ a ∈ l, CrashesOnly P (f a)) :
    CrashesOnly P (l.mapM f) := by
  induction l with
  | nil => exact ok []
  | cons a rest ih =>
    rw [List.mapM_cons]
    have hrest := ih fun b hb => h b (List.mem_cons_of_mem a hb)
    exact (h a List.mem_cons_self).bind fun _ => hrest.bind fun _ => ok _

theorem elim {c : Crash} (hc : P c) (o : Option α) :
    CrashesOnly P (o.elim (.error c) .ok) := by
  cases o with
  | none => exact error hc
  | some a => exact ok a

end CrashesOnly

namespace Heap

/-! ## Values as text -/

/-- The host's text of a value asks for the digits of its numbers, and for nothing
else that could be missing. -/
theorem debugWithin_crashesOnly (h : Heap) (budget : Nat) (inside : List Value) (v : Value) :
    CrashesOnly (· = .tooManyDigits) (h.debugWithin budget inside v) := by
  have hnumber : ∀ n : Number, CrashesOnly (· = .tooManyDigits)
      (n.exactText?.elim (.error .tooManyDigits) .ok) :=
    fun n => CrashesOnly.elim (P := (· = .tooManyDigits)) rfl n.exactText?
  induction budget generalizing inside v with
  | zero =>
    cases v with
    | number n => simp only [debugWithin]; exact hnumber n
    | _ => simp only [debugWithin]; exact .ok _
  | succ n ih =>
    cases v with
    | number m => simp only [debugWithin]; exact hnumber m
    | vector a =>
      rw [debugWithin]
      split
      · exact .ok _
      · exact (CrashesOnly.mapM fun _ _ => ih _ _).bind fun _ => .ok _
    | table a =>
      rw [debugWithin]
      split
      · exact .ok _
      · refine (CrashesOnly.mapM fun e _ => ?_).bind fun _ => .ok _
        exact (ih _ _).bind fun _ => (ih _ _).bind fun _ => .ok _
    | tuple a =>
      rw [debugWithin]
      split
      · exact .ok _
      · refine (CrashesOnly.mapM fun _ _ => ih _ _).bind fun items => ?_
        split <;> exact .ok _
    | _ => simp only [debugWithin]; exact .ok _

/-- The crashes of showing a value. -/
def ShowCrash (c : Crash) : Prop := c = .endless ∨ c = .tooManyDigits

/-- **A script's text of a value is missing for two reasons**: a container that
contains itself, and a whole number of too many digits, which has to stand inside a
tuple. -/
theorem formatWithin_crashesOnly (h : Heap) (budget : Nat) (v : Value) :
    CrashesOnly ShowCrash (h.formatWithin budget v) := by
  have htuple : ∀ a, CrashesOnly ShowCrash (h.debugWithin (h.containers + 1) [] (.tuple a)) :=
    fun a => (h.debugWithin_crashesOnly _ _ _).mono fun _ => Or.inr
  induction budget generalizing v with
  | zero =>
    cases v with
    | tuple a => rw [formatWithin]; exact htuple a
    | vector a | table a => rw [formatWithin]; exact .error (Or.inl rfl)
    | _ => simp only [formatWithin]; exact .ok _
  | succ n ih =>
    cases v with
    | tuple a => rw [formatWithin]; exact htuple a
    | vector a =>
      rw [formatWithin]
      exact (CrashesOnly.mapM fun _ _ => ih _).bind fun _ => .ok _
    | table a =>
      rw [formatWithin]
      refine (CrashesOnly.mapM fun e _ => ?_).bind fun _ => .ok _
      split
      · split <;> exact (ih e.2).bind fun _ => .ok _
      · refine (ih e.1).bind fun _ => ?_
        exact (ih e.2).bind fun _ => .ok _
    | _ => simp only [formatWithin]; exact .ok _

theorem format_crashesOnly (h : Heap) (v : Value) : CrashesOnly ShowCrash (h.format v) :=
  h.formatWithin_crashesOnly _ v

theorem display_crashesOnly (h : Heap) (v : Value) : CrashesOnly ShowCrash (h.display v) := by
  cases v with
  | string s => exact .ok s
  | number n => exact .elim (Or.inr rfl) _
  | _ => exact h.format_crashesOnly _

/-! ## Equality -/

theorem allPairs_crashesOnly {P : Crash → Prop} {test : Value → Value → Except Crash Bool}
    (ht : ∀ a b, CrashesOnly P (test a b)) (l : List (Value × Value)) :
    CrashesOnly P (allPairs test l) := by
  induction l with
  | nil => exact .ok true
  | cons p rest ih =>
    refine (ht p.1 p.2).bind fun b => ?_
    cases b with
    | false => exact .ok false
    | true => exact ih

theorem sameEntries_crashesOnly {P : Crash → Prop} {test : Value → Value → Except Crash Bool}
    (ht : ∀ a b, CrashesOnly P (test a b)) (right : Table Value) (l : List (Value × Value)) :
    CrashesOnly P (sameEntries test right l) := by
  induction l with
  | nil => exact .ok true
  | cons p rest ih =>
    rw [sameEntries]
    split
    · exact .ok false
    · refine (ht _ _).bind fun b => ?_
      cases b with
      | false => exact .ok false
      | true => exact ih

/-- **Two values are told apart unless both go on without end.** -/
theorem equalWithin_crashesOnly (h : Heap) (budget : Nat) (a b : Value) :
    CrashesOnly (· = .endless) (h.equalWithin budget a b) := by
  induction budget generalizing a b with
  | zero =>
    unfold equalWithin
    split
    · exact .ok true
    · split <;> first | exact .error rfl | exact .ok false | contradiction
  | succ n ih =>
    unfold equalWithin
    split
    · exact .ok true
    · split
      · contradiction
      · contradiction
      · contradiction
      · next heq _ =>
        cases heq
        dsimp only
        split
        · exact .ok false
        · exact allPairs_crashesOnly ih _
      · next heq _ =>
        cases heq
        exact (allPairs_crashesOnly ih _).bind fun _ => .ok _
      · next heq _ =>
        cases heq
        split
        · exact .ok false
        · exact sameEntries_crashesOnly ih _ _
      · exact .ok false

theorem equal_crashesOnly (h : Heap) (a b : Value) :
    CrashesOnly (· = .endless) (h.equal a b) := by
  unfold equal
  split
  · exact .ok false
  · exact h.equalWithin_crashesOnly _ a b

end Heap

/-! ## Numbers with a `Float` -/

namespace Binary

theorem twoTo_le_div {n k : Nat} (hn : n ≠ 0) (hk : k ≤ n.log2) :
    twoTo k ≤ n / twoTo (n.log2 - k) := by
  have hpos : 0 < twoTo (n.log2 - k) := Nat.pow_pos (by decide)
  rw [Nat.le_div_iff_mul_le hpos]
  calc twoTo k * twoTo (n.log2 - k) = twoTo n.log2 := by
        unfold twoTo
        rw [Nat.pow_eq, Nat.pow_eq, ← Nat.pow_add]
        congr 1
        omega
    _ ≤ n := Nat.log2_self_le hn

theorem lt_twoTo {n k : Nat} (hn : n ≠ 0) (hk : n.log2 < k) : n < twoTo k :=
  (Nat.log2_lt hn).1 hk

theorem le_roundHalfEven (num den : Nat) : num / den ≤ roundHalfEven num den := by
  unfold roundHalfEven
  dsimp only
  split
  · exact Nat.le_refl _
  · split
    · omega
    · split <;> omega

/-- A whole number of more than 1025 binary digits has no `Float`. -/
theorem nearest?_eq_none {negative : Bool} {n : Nat} (hn : 1025 ≤ n.log2) :
    nearest? negative n 1 = none := by
  have hne : n ≠ 0 := by
    rintro rfl
    simp at hn
  have hone : twoTo 0 = 1 := rfl
  have hguess : max ((n.log2 : Int) - 53) leastExponent = ((n.log2 - 53 : Nat) : Int) := by
    unfold leastExponent
    omega
  have hnext : max ((n.log2 : Int) - 53 + 1) leastExponent = ((n.log2 - 52 : Nat) : Int) := by
    unfold leastExponent
    omega
  have hlow : ¬ n / twoTo (n.log2 - 53) < twoTo 53 :=
    Nat.not_lt.2 (twoTo_le_div hne (by omega))
  have hmantissa := Nat.le_trans (twoTo_le_div hne (by omega : 52 ≤ n.log2))
    (le_roundHalfEven n (twoTo (n.log2 - 52)))
  have hbits : 2047 * twoTo 52 ≤
      magnitudeBits (roundHalfEven n (twoTo (n.log2 - 52))) ((n.log2 - 52 : Nat) : Int) := by
    unfold magnitudeBits
    rw [if_neg (Nat.not_lt.2 hmantissa)]
    have : 973 + 1074 ≤ (((n.log2 - 52 : Nat) : Int) + 1074).toNat := by omega
    calc 2047 * twoTo 52 ≤ (((n.log2 - 52 : Nat) : Int) + 1074).toNat * twoTo 52 :=
          Nat.mul_le_mul_right _ this
      _ ≤ _ := Nat.le_add_right _ _
  have hlog : ((1 : Nat).log2 : Int) = 0 := by decide
  unfold nearest?
  simp only [hlog, Int.sub_zero, hguess, hnext]
  simp [hone, hlow, hne, hbits]

end Binary
namespace Decimal

theorem tenTo_mono {m n : Nat} (h : m ≤ n) : tenTo m ≤ tenTo n :=
  Nat.pow_le_pow_right (by decide) h

theorem twoTo_le_tenTo (n : Nat) : Binary.twoTo n ≤ tenTo n := Nat.pow_le_pow_left (by decide) n

end Decimal

namespace Number

variable {a b : Number} {e : Fault}

/-- A number that has a `Float` can be written out. -/
theorem exactText?_isSome_of_toFloat? (h : a.toFloat?.isSome) : a.exactText?.isSome := by
  cases a with
  | float x => rfl
  | int n =>
    have hlog : n.natAbs.log2 < 1025 := by
      refine Nat.not_le.1 fun hn => ?_
      rw [toFloat?, Binary.nearest?_eq_none hn] at h
      cases h
    have hlt : n.natAbs < Decimal.tenTo Decimal.digitLimit := by
      rcases Nat.eq_zero_or_pos n.natAbs with h0 | h0
      · rw [h0]
        exact Decimal.tenTo_pos _
      · calc n.natAbs < Binary.twoTo 1025 := Binary.lt_twoTo (by omega) hlog
          _ ≤ Decimal.tenTo 1025 := Decimal.twoTo_le_tenTo 1025
          _ ≤ Decimal.tenTo Decimal.digitLimit := Decimal.tenTo_mono (by decide)
    rw [exactText?, Decimal.ofInt?, if_pos hlt]
    rfl

/-- An operation given for both sorts fails as one of them does, or because an
operand has no `Float`. -/
theorem lift_error {onInts : Int → Int → Except Fault Number}
    {onFloats : Float → Float → Except Fault Number} (h : lift onInts onFloats a b = .error e) :
    (∃ m n, a = .int m ∧ b = .int n ∧ onInts m n = .error e) ∨
      (∃ x y, a.toFloat? = some x ∧ b.toFloat? = some y ∧ onFloats x y = .error e) ∨
      e = .tooLarge := by
  unfold lift at h
  split at h
  · exact .inl ⟨_, _, rfl, rfl, h⟩
  · split at h
    · exact .inr (.inl ⟨_, _, ‹_›, ‹_›, h⟩)
    · cases h
      exact .inr (.inr rfl)

/-- **What is not real has operands with a `Float`.** -/
theorem toFloat?_isSome_of_pow_notReal (h : a.pow b = .error .notReal) :
    a.toFloat?.isSome ∧ b.toFloat?.isSome := by
  obtain ⟨m, n, rfl, rfl, hp⟩ | ⟨x, y, hx, hy, -⟩ | hp := lift_error h
  · split at hp
    · cases hp
    · split at hp
      · next hx hy => simp [hx, hy]
      · cases hp
  · simp [hx, hy]
  · cases hp

end Number

/-! ## Operators -/

namespace Operator

variable {h : Heap} {k : TokenKind} {left right : Value} {c : Crash}

/-- All operations but the power fail for too large a number only. -/
theorem arithmetic?_error {op : Arithmetic} {a b : Number} {e : Number.Fault}
    (hop : arithmetic? k = some op) (he : op.apply a b = .error e) :
    e = .tooLarge ∨ k = .caret ∧ a.pow b = .error e := by
  unfold arithmetic? at hop
  split at hop <;> cases hop
  case h_7 => exact .inr ⟨rfl, he⟩
  all_goals
    obtain ⟨m, n, -, -, he⟩ | ⟨x, y, -, -, he⟩ | he := Number.lift_error he
  case h_4.refl.inl =>
    split at he <;> cases he
    exact .inl rfl
  all_goals first | exact .inl he | cases he

/-- **The power crashes where zero is raised to a negative power, and no other
arithmetic does.** -/
theorem compute_crashed {op : Arithmetic} (hop : arithmetic? k = some op)
    (hc : compute op left right = .error (.crashed c)) :
    c = .zeroToNegativePower ∧ k = .caret ∧
      ∃ a b, left = .number a ∧ right = .number b ∧ a.pow b = .error .zeroToNegativePower := by
  unfold compute at hc
  split at hc
  · next a b =>
    split at hc
    · cases hc
    · split at hc
      · cases hc
      · cases hc
      · next he =>
        cases hc
        obtain he | ⟨hk, he⟩ := arithmetic?_error hop he
        · cases he
        · exact ⟨rfl, hk, a, b, rfl, rfl, he⟩
      · next he =>
        obtain he | ⟨-, he⟩ := arithmetic?_error hop he
        · cases he
        · obtain ⟨ha, hb⟩ := Number.toFloat?_isSome_of_pow_notReal he
          obtain ⟨x, hx⟩ := Option.isSome_iff_exists.1 (Number.exactText?_isSome_of_toFloat? ha)
          obtain ⟨y, hy⟩ := Option.isSome_iff_exists.1 (Number.exactText?_isSome_of_toFloat? hb)
          rw [hx, hy] at hc
          cases hc
  · cases hc

theorem compare_ne_crashed {holds : List Ordering} :
    compare holds left right ≠ .error (.crashed c) := by
  unfold compare
  split <;> exact nofun

theorem equality_crashed {wanted : Bool} (hc : equality h left right wanted = .error (.crashed c)) :
    c = .endless := by
  unfold equality at hc
  split at hc
  · cases hc
  · next he =>
    cases hc
    exact h.equal_crashesOnly left right _ he

/-- A number of too many digits is refused by a concatenation. -/
theorem concat_crashed (hc : concat h left right = .error (.crashed c)) : c = .endless := by
  unfold concat at hc
  split at hc
  · cases hc
  · split at hc
    · cases hc
    · have hshow : CrashesOnly Heap.ShowCrash
          (do return (← h.display left) ++ (← h.display right) : Except Crash String) :=
        (h.display_crashesOnly left).bind fun _ => (h.display_crashesOnly right).bind fun _ => .ok _
      split at hc
      · cases hc
      · cases hc
      · next hne he =>
        cases hc
        obtain rfl | rfl := hshow _ he
        · rfl
        · exact (hne rfl).elim

/-- **Two values and an operator crash for two reasons**: zero is raised to a negative
power, or a container is followed without end. -/
theorem binary_crashed (hc : binary h k left right = .error (.crashed c)) :
    c = .endless ∨ c = .zeroToNegativePower ∧ k = .caret ∧
      ∃ a b, left = .number a ∧ right = .number b ∧ a.pow b = .error .zeroToNegativePower := by
  unfold binary at hc
  split at hc
  · next hop => exact .inr (compute_crashed hop hc)
  · exact absurd hc compare_ne_crashed
  · split at hc
    · exact .inl (equality_crashed hc)
    · exact .inl (equality_crashed hc)
    · exact .inl (equality_crashed hc)
    · exact .inl (concat_crashed hc)
    · cases hc

theorem unary_ne_crashed : unary k left ≠ .error (.crashed c) := by
  unfold unary
  split <;> exact nofun

/-- Zero raised to a negative power crashes. -/
theorem binary_caret_crashed {a b : Number} (he : a.pow b = .error .zeroToNegativePower) :
    binary h .caret (.number a) (.number b) = .error (.crashed .zeroToNegativePower) := by
  simp [binary, arithmetic?, compute, he]

end Operator

end CommandScript
