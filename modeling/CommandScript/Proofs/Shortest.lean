import CommandScript.Token.Lexeme
import CommandScript.Number.Decimal
import CommandScript.Proofs.Rounding
/-!
# CommandScript — digits that read back

The digits of a floating-point number are found on decimal grids. What is taken from a grid lies in
the window of the number, so it is rounded to the number; and the grid of seventeen digits is finer
than every window, so there is something to take.

Where the digits are set without an exponent they are digits, a point and digits, and that is read
as the number again.
-/

namespace CommandScript

namespace Decimal

open Binary

variable {m n num den : Nat} {e : Int}

/-- The number that a decimal is. -/
def value (d : Decimal) : ℚ := d.digits * 10 ^ d.exponent

theorem cast_tenTo (n : Nat) : ((tenTo n : Nat) : ℚ) = 10 ^ n := by
  rw [tenTo, Nat.pow_eq, Nat.cast_pow, Nat.cast_ofNat]

/-! ## Leading digits -/

/-- The leading digit of a number is that of a power of ten up to the number. -/
theorem pow_pred_length_le {n : Nat} (hn : 0 < n) : 10 ^ ((Nat.toDigits 10 n).length - 1) ≤ n := by
  obtain hone | hmore : (Nat.toDigits 10 n).length = 1 ∨ 1 < (Nat.toDigits 10 n).length := by
    have hpos : 0 < (Nat.toDigits 10 n).length := Nat.length_toDigits_pos
    omega
  · rw [hone]
    exact hn
  · have hiff := Nat.length_toDigits_le_iff (b := 10) (n := n)
      (k := (Nat.toDigits 10 n).length - 1) (by decide) (by omega)
    by_contra hlt
    have hle := hiff.2 (not_le.1 hlt)
    omega

/-- The leading digit of a fraction is at a power of ten up to the fraction, and no further behind
the point than one at which the fraction makes a whole one. -/
theorem leadingExponent_bounds (hden : 0 < den) {k : Nat} (hk : k < 400)
    (hsmall : den ≤ num * tenTo (k + 1)) :
    (10 : ℚ) ^ leadingExponent num den ≤ num / den ∧ -(k + 1 : Int) ≤ leadingExponent num den := by
  have hpos : (0 : ℚ) < den := by exact_mod_cast hden
  rw [le_div_iff₀ hpos]
  unfold leadingExponent
  split
  next hle =>
    have hpower := pow_pred_length_le (Nat.div_pos hle hden)
    have hlength : 0 < (Nat.toDigits 10 (num / den)).length := Nat.length_toDigits_pos
    generalize (Nat.toDigits 10 (num / den)).length = length at *
    have hexponent : (length : Int) - 1 = ((length - 1 : Nat) : Int) := by omega
    rw [Nat.le_div_iff_mul_le hden] at hpower
    refine ⟨?_, by omega⟩
    rw [hexponent, zpow_natCast]
    exact_mod_cast hpower
  next =>
    cases hfind : (List.range 400).find? fun j => decide (den ≤ num * tenTo (j + 1)) with
    | none =>
      have hnone := List.find?_eq_none.1 hfind k (List.mem_range.2 hk)
      exact absurd hsmall (by simpa using hnone)
    | some j =>
      obtain ⟨hj, -, hbefore⟩ := List.find?_range_eq_some.1 hfind
      have hj : den ≤ num * tenTo (j + 1) := of_decide_eq_true hj
      have hjk : j ≤ k := by
        by_contra hlt
        simpa [hsmall] using hbefore k (not_le.1 hlt)
      refine ⟨?_, by rw [Option.getD_some]; omega⟩
      have hexponent : -((j : Int) + 1) = -((j + 1 : Nat) : Int) := by push_cast; rfl
      rw [Option.getD_some, hexponent, zpow_neg, zpow_natCast, inv_mul_le_iff₀ (by positivity),
        mul_comm, ← cast_tenTo]
      exact_mod_cast hj

/-! ## Windows -/

namespace Window

variable {c : Nat} {E : Int}

/-- What is compared with the ends of a window are quarters of a unit and powers of ten, all over
one denominator. -/
theorem exists_scale (e E : Int) : ∃ k : ℚ, 0 < k ∧ ∀ a c : Nat,
    ((a * twoTo (e - 2).toNat * tenTo (-E).toNat : Nat) : ℚ) = a * 2 ^ (e - 2) * k ∧
      ((c * tenTo E.toNat * twoTo (2 - e).toNat : Nat) : ℚ) = c * 10 ^ E * k := by
  have hneg : 2 - e = -(e - 2) := by omega
  refine ⟨2 ^ (e - 2).toNat * 10 ^ E.toNat / (2 ^ (e - 2) * 10 ^ E), by positivity, fun a c => ?_⟩
  rw [hneg]
  push_cast
  rw [cast_twoTo, cast_twoTo, cast_tenTo, cast_tenTo, pow_toNat_neg two_ne_zero,
    pow_toNat_neg (by norm_num)]
  constructor <;> field_simp

theorem scaled_le_iff (a c : Nat) (e E : Int) :
    a * twoTo (e - 2).toNat * tenTo (-E).toNat ≤ c * tenTo E.toNat * twoTo (2 - e).toNat ↔
      (a : ℚ) * 2 ^ (e - 2) ≤ c * 10 ^ E := by
  obtain ⟨k, hk, hscale⟩ := exists_scale e E
  rw [← Nat.cast_le (α := ℚ), (hscale a c).1, (hscale a c).2, mul_le_mul_iff_left₀ hk]

theorem le_scaled_iff (a c : Nat) (e E : Int) :
    c * tenTo E.toNat * twoTo (2 - e).toNat ≤ a * twoTo (e - 2).toNat * tenTo (-E).toNat ↔
      (c : ℚ) * 10 ^ E ≤ a * 2 ^ (e - 2) := by
  obtain ⟨k, hk, hscale⟩ := exists_scale e E
  rw [← Nat.cast_le (α := ℚ), (hscale a c).1, (hscale a c).2, mul_le_mul_iff_left₀ hk]

/-- What lies in the window of a number is close enough to be rounded to it. -/
theorem holds_iff (hm : 0 < m) :
    (around m e).holds E c = true ↔ Near m e (c * 10 ^ E) := by
  have hbelow : below m e ≤ 4 * m := by
    unfold below
    split <;> omega
  have hlow : ((4 * m - below m e : Nat) : ℚ) = 4 * m - below m e := by
    rw [Nat.cast_sub hbelow]
    push_cast
    rfl
  have hhigh : ((4 * m + 2 : Nat) : ℚ) = 4 * m + 2 := by push_cast; rfl
  have hle := scaled_le_iff (4 * m - below m e) c e E
  have hge := le_scaled_iff (4 * m + 2) c e E
  have hlt := (le_scaled_iff (4 * m - below m e) c e E).not
  have hgt := (scaled_le_iff (4 * m + 2) c e E).not
  rw [not_le, not_le, hlow] at hlt
  rw [not_le, not_le, hhigh] at hgt
  rw [hlow] at hle
  rw [hhigh] at hge
  have hholds : (around m e).holds E c = if m % 2 == 0 then
      decide ((4 * m - below m e) * twoTo (e - 2).toNat * tenTo (-E).toNat ≤
        c * tenTo E.toNat * twoTo (2 - e).toNat) &&
      decide (c * tenTo E.toNat * twoTo (2 - e).toNat ≤
        (4 * m + 2) * twoTo (e - 2).toNat * tenTo (-E).toNat)
    else
      decide ((4 * m - below m e) * twoTo (e - 2).toNat * tenTo (-E).toNat <
        c * tenTo E.toNat * twoTo (2 - e).toNat) &&
      decide (c * tenTo E.toNat * twoTo (2 - e).toNat <
        (4 * m + 2) * twoTo (e - 2).toNat * tenTo (-E).toNat) := rfl
  rw [hholds]
  split
  next heven =>
    have hnot : ¬ m % 2 = 1 := by simp at heven; omega
    rw [Bool.and_eq_true, decide_eq_true_iff, decide_eq_true_iff, hle, hge]
    exact ⟨fun ⟨h, h'⟩ => ⟨h, h', fun hodd => absurd hodd hnot⟩, fun h => ⟨h.low, h.high⟩⟩
  next hodd =>
    have hodd : m % 2 = 1 := by simp at hodd; omega
    rw [Bool.and_eq_true, decide_eq_true_iff, decide_eq_true_iff, hlt, hgt]
    exact ⟨fun ⟨h, h'⟩ => ⟨h.le, h'.le, fun _ => ⟨h, h'⟩⟩, fun h => h.inside hodd⟩

/-- The greatest multiple of a power of ten up to a number. -/
def floor (m : Nat) (e E : Int) : Nat :=
  (around m e).value * tenTo (-E).toNat / (tenTo E.toNat * (around m e).scale)

theorem le_floor_iff {c : Nat} : c ≤ floor m e E ↔ (c : ℚ) * 10 ^ E ≤ m * 2 ^ e := by
  have hunit : 0 < tenTo E.toNat * twoTo (2 - e).toNat := Nat.mul_pos (tenTo_pos _) (twoTo_pos _)
  have hquarters : (m : ℚ) * 2 ^ e = (4 * m : Nat) * 2 ^ (e - 2) := by
    rw [zpow_sub₀ two_ne_zero]
    push_cast
    ring
  rw [hquarters, ← le_scaled_iff, mul_assoc c]
  exact Nat.le_div_iff_mul_le hunit

theorem floor_mul_le : (floor m e E : ℚ) * 10 ^ E ≤ m * 2 ^ e := le_floor_iff.1 le_rfl

theorem lt_floor_succ_mul : (m : ℚ) * 2 ^ e < (floor m e E + 1 : Nat) * 10 ^ E :=
  not_le.1 fun h => absurd (le_floor_iff.2 h) (by omega)

theorem neighbour?_eq : (around m e).neighbour? E =
    match (around m e).holds E (floor m e E) && decide (floor m e E ≠ 0),
      (around m e).holds E (floor m e E + 1) with
    | false, false => none
    | true, false => some (floor m e E)
    | false, true => some (floor m e E + 1)
    | true, true => some (roundHalfEven ((around m e).value * tenTo (-E).toNat)
        (tenTo E.toNat * (around m e).scale)) := rfl

/-- What is taken from a grid is one of the two neighbours, and it lies in the window. -/
theorem neighbour?_eq_some {d : Nat} (h : (around m e).neighbour? E = some d) :
    (around m e).holds E d = true ∧ (d = floor m e E ∨ d = floor m e E + 1) ∧ d ≠ 0 := by
  have hround (a b : Nat) : roundHalfEven a b = a / b ∨ roundHalfEven a b = a / b + 1 := by
    unfold roundHalfEven
    dsimp only
    split
    · exact .inl rfl
    split
    · exact .inr rfl
    split
    · exact .inl rfl
    · exact .inr rfl
  rw [neighbour?_eq] at h
  cases hbelow : (around m e).holds E (floor m e E) && decide (floor m e E ≠ 0) <;>
    cases habove : (around m e).holds E (floor m e E + 1) <;> rw [hbelow, habove] at h
  · cases h
  · cases h
    exact ⟨habove, .inr rfl, Nat.succ_ne_zero _⟩
  · cases h
    obtain ⟨hholds, hne⟩ := Bool.and_eq_true_iff.1 hbelow
    exact ⟨hholds, .inl rfl, of_decide_eq_true hne⟩
  · obtain ⟨hholds, hne⟩ := Bool.and_eq_true_iff.1 hbelow
    have hne : floor m e E ≠ 0 := of_decide_eq_true hne
    obtain hd | hd := hround _ _
    · rw [hd] at h
      obtain rfl : floor m e E = d := Option.some.inj h
      exact ⟨hholds, .inl rfl, hne⟩
    · rw [hd] at h
      obtain rfl : floor m e E + 1 = d := Option.some.inj h
      exact ⟨habove, .inr rfl, Nat.succ_ne_zero _⟩

/-- Nothing is taken from a grid where neither of the two neighbours lies in the window. -/
theorem neighbour?_eq_none (h : (around m e).neighbour? E = none) :
    (floor m e E ≠ 0 → (around m e).holds E (floor m e E) = false) ∧
      (around m e).holds E (floor m e E + 1) = false := by
  rw [neighbour?_eq] at h
  cases hbelow : (around m e).holds E (floor m e E) && decide (floor m e E ≠ 0) <;>
    cases habove : (around m e).holds E (floor m e E + 1) <;> rw [hbelow, habove] at h
  · refine ⟨fun hne => ?_, rfl⟩
    rwa [decide_eq_true hne, Bool.and_true] at hbelow
  all_goals cases h

/-- **A grid of seventeen digits has a neighbour in the window**: its unit is smaller than the
window, which would otherwise lie between the two. -/
theorem exists_neighbour? (hm : Canonical m e) (hfine : (10 : ℚ) ^ E * 10 ^ 16 ≤ m * 2 ^ e) :
    ∃ d, (around m e).neighbour? E = some d := by
  cases hnone : (around m e).neighbour? E with
  | some d => exact ⟨d, rfl⟩
  | none =>
    obtain ⟨hbelow, habove⟩ := neighbour?_eq_none hnone
    have hfloor := floor_mul_le (m := m) (e := e) (E := E)
    have hceiling := lt_floor_succ_mul (m := m) (e := e) (E := E)
    have hten : (0 : ℚ) < 10 ^ E := by positivity
    have hunit : (0 : ℚ) < 2 ^ (e - 2) := by positivity
    have hdigits : (m : ℚ) + 1 ≤ 2 ^ 53 := by exact_mod_cast hm.digits
    have hpos : (1 : ℚ) ≤ m := by exact_mod_cast hm.positive
    have hquarters : (m : ℚ) * 2 ^ e = 4 * m * 2 ^ (e - 2) := by
      rw [zpow_sub₀ two_ne_zero]
      ring
    rw [hquarters] at hfloor hceiling hfine
    have hne : floor m e E ≠ 0 := by
      intro hzero
      rw [hzero] at hceiling
      push_cast at hceiling
      nlinarith
    rw [Bool.eq_false_iff, Ne, holds_iff hm.positive] at habove
    have hbelow := hbelow hne
    rw [Bool.eq_false_iff, Ne, holds_iff hm.positive] at hbelow
    -- so the lower neighbour lies at the low end or before it, and the upper one at the high end
    -- or behind it
    have hlow : (floor m e E : ℚ) * 10 ^ E ≤ (4 * m - below m e) * 2 ^ (e - 2) := by
      by_contra hlt
      have hlt := not_le.1 hlt
      refine hbelow ⟨hlt.le, by nlinarith, fun _ => ⟨hlt, by nlinarith⟩⟩
    have hhigh : (4 * m + 2) * (2 : ℚ) ^ (e - 2) ≤ (floor m e E + 1 : Nat) * 10 ^ E := by
      by_contra hlt
      have hlt := not_le.1 hlt
      have hless : (4 * m - below m e) * (2 : ℚ) ^ (e - 2) ≤ 4 * m * 2 ^ (e - 2) := by
        gcongr
        simp
      exact habove ⟨by linarith, hlt.le, fun hodd => ⟨by linarith, hlt⟩⟩
    push_cast at hhigh
    have hwidth : (2 + below m e) * (2 : ℚ) ^ (e - 2) ≤ 10 ^ E := by linarith
    unfold below at hwidth
    split at hwidth
    next hleading =>
      have hcast : (m : ℚ) = 2 ^ 52 := by rw [hleading.1, cast_twoTo]
      rw [hcast] at hfine
      push_cast at hwidth
      nlinarith
    next =>
      push_cast at hwidth
      nlinarith

end Window

/-! ## The shortest digits -/

variable {d : Decimal}

/-- Zeros at the end are none of the number. -/
theorem value_strip (fuel : Nat) (d : Decimal) : (strip fuel d).value = d.value := by
  induction fuel generalizing d with
  | zero => rfl
  | succ fuel ih =>
    rw [strip]
    split
    next hzero =>
      rw [ih]
      obtain ⟨c, hc⟩ := Nat.dvd_of_mod_eq_zero hzero.2
      unfold value
      dsimp only
      rw [hc, Nat.mul_div_cancel_left c (by decide), zpow_add_one₀ (by norm_num)]
      push_cast
      ring
    next => rfl

theorem digits_strip_ne_zero (fuel : Nat) (h : d.digits ≠ 0) : (strip fuel d).digits ≠ 0 := by
  induction fuel generalizing d with
  | zero => exact h
  | succ fuel ih =>
    rw [strip]
    split
    next hzero =>
      refine ih ?_
      dsimp only
      omega
    next => exact h

/-- The exponent of the leading digit of `mantissa · 2 ^ exponent`. -/
def top (m : Nat) (e : Int) : Int :=
  leadingExponent (Window.around m e).value (Window.around m e).scale

theorem value_div_scale (m : Nat) (e : Int) :
    ((Window.around m e).value : ℚ) / (Window.around m e).scale = m * 2 ^ e := by
  have hneg : 2 - e = -(e - 2) := by omega
  change ((4 * m * twoTo (e - 2).toNat : Nat) : ℚ) / (twoTo (2 - e).toNat : Nat) = _
  rw [hneg]
  push_cast
  rw [cast_twoTo, cast_twoTo, pow_toNat_neg two_ne_zero, zpow_sub₀ two_ne_zero]
  field_simp
  ring

theorem scale_pos (m : Nat) (e : Int) : 0 < (Window.around m e).scale := twoTo_pos _

/-- The denominator of a window, which is no greater than the least number asks for. -/
theorem scale_le (hm : Canonical m e) :
    (Window.around m e).scale ≤ (Window.around m e).value * tenTo (399 + 1) := by
  have hexponent : (2 - e).toNat ≤ 1076 := by
    have hleast := hm.least
    unfold leastExponent at hleast
    omega
  have hvalue : 1 ≤ (Window.around m e).value :=
    Nat.mul_pos (Nat.mul_pos (by decide) hm.positive) (twoTo_pos _)
  have hpowers (n : Nat) : twoTo (3 * n) ≤ tenTo n := calc
    twoTo (3 * n) = (2 ^ 3) ^ n := Nat.pow_mul 2 3 n
    _ ≤ tenTo n := Nat.pow_le_pow_left (by decide) n
  have hscale (n : Nat) (hn : (2 - e).toNat ≤ n) : (Window.around m e).scale ≤ twoTo n :=
    Nat.pow_le_pow_right (by decide) hn
  calc (Window.around m e).scale ≤ twoTo (3 * 400) := hscale _ (by omega)
    _ ≤ tenTo (399 + 1) := hpowers 400
    _ ≤ (Window.around m e).value * tenTo (399 + 1) := Nat.le_mul_of_pos_left _ hvalue

/-- **The digits that are found are those of a number in the window**, which has as many digits
before the point as the number itself, or one more. -/
theorem shortest_spec (hm : Canonical m e) :
    Near m e (shortest m e).value ∧ (shortest m e).digits ≠ 0 ∧
      (10 : ℚ) ^ top m e ≤ (shortest m e).value ∧ (shortest m e).value ≤ 2 * (m * 2 ^ e) := by
  obtain ⟨htop, -⟩ := leadingExponent_bounds (scale_pos m e) (by decide) (scale_le hm)
  rw [value_div_scale] at htop
  change (10 : ℚ) ^ top m e ≤ m * 2 ^ e at htop
  -- what is found on one of the grids
  have hgrid {n d : Nat} (h : (Window.around m e).neighbour? (top m e - n) = some d) :
      Near m e (Decimal.value ⟨d, top m e - n⟩) ∧ d ≠ 0 ∧
        (10 : ℚ) ^ top m e ≤ Decimal.value ⟨d, top m e - n⟩ ∧
        Decimal.value ⟨d, top m e - n⟩ ≤ 2 * (m * 2 ^ e) := by
    obtain ⟨hholds, hd, hne⟩ := Window.neighbour?_eq_some h
    have hpower : (10 : ℚ) ^ top m e = (10 ^ n : Nat) * 10 ^ (top m e - n) := by
      push_cast
      rw [← zpow_natCast, ← zpow_add₀ (by norm_num)]
      congr 1
      omega
    have hunit : (0 : ℚ) < 10 ^ (top m e - n) := by positivity
    have hfloor := Window.floor_mul_le (m := m) (e := e) (E := top m e - n)
    have hlow : 10 ^ n ≤ d := by
      have hle : 10 ^ n ≤ Window.floor m e (top m e - n) :=
        Window.le_floor_iff.2 (hpower ▸ htop)
      omega
    have hhigh : (d : ℚ) ≤ Window.floor m e (top m e - n) + 1 := by
      have hle : d ≤ Window.floor m e (top m e - n) + 1 := by omega
      exact_mod_cast hle
    have hone : (1 : ℚ) ≤ (10 ^ n : Nat) := by exact_mod_cast Nat.one_le_pow n 10 (by decide)
    have hlow : ((10 ^ n : Nat) : ℚ) ≤ d := by exact_mod_cast hlow
    refine ⟨(Window.holds_iff hm.positive).1 hholds, hne, ?_, ?_⟩
    · rw [hpower]
      exact mul_le_mul_of_nonneg_right hlow hunit.le
    · rw [hpower] at htop
      unfold value
      dsimp only
      nlinarith
  have hfine : (10 : ℚ) ^ (top m e - (16 : Nat)) * 10 ^ 16 ≤ m * 2 ^ e := by
    refine le_trans (le_of_eq ?_) htop
    rw [← zpow_natCast, ← zpow_add₀ (by norm_num)]
    congr 1
    omega
  obtain ⟨last, hlast⟩ := Window.exists_neighbour? hm hfine
  unfold shortest
  dsimp only
  rw [List.findSome?_map]
  cases hfound : (List.range 17).findSome? _ with
  | none =>
    have hnone := List.findSome?_eq_none_iff.1 hfound 16 (by decide)
    change ((Window.around m e).neighbour? (top m e - (16 : Nat))).map _ = none at hnone
    rw [hlast] at hnone
    cases hnone
  | some d =>
    obtain ⟨n, -, hn⟩ := List.exists_of_findSome?_eq_some hfound
    obtain ⟨c, hc, rfl⟩ := Option.map_eq_some_iff.1 hn
    obtain ⟨hnear, hne, hlow, hhigh⟩ := hgrid hc
    rw [Option.getD_some, value_strip]
    exact ⟨hnear, digits_strip_ne_zero 20 hne, hlow, hhigh⟩

/-! ## The text -/

theorem natOfDigits_eq (cs : List Char) : natOfDigits cs = Nat.ofDigitChars 10 cs 0 :=
  Nat.ofDigitChars_eq_foldl.symm

/-- Zeros before a number are none of it. -/
theorem natOfDigits_zeros_append (n : Nat) (cs : List Char) :
    natOfDigits (List.replicate n '0' ++ cs) = natOfDigits cs := by
  rw [natOfDigits_eq, natOfDigits_eq, Nat.ofDigitChars_append, Nat.ofDigitChars_replicate_zero,
    Nat.mul_zero]

/-- Zeros behind a number multiply it. -/
theorem natOfDigits_append_zeros (n : Nat) (cs : List Char) :
    natOfDigits (cs ++ List.replicate n '0') = 10 ^ n * natOfDigits cs := by
  rw [natOfDigits_eq, natOfDigits_eq, Nat.ofDigitChars_append, Nat.ofDigitChars_replicate_zero]

/-- Where the leading digit of a decimal is. -/
def lead (d : Decimal) : Int := d.exponent + (Nat.toDigits 10 d.digits).length - 1

theorem value_bounds (hd : d.digits ≠ 0) :
    (10 : ℚ) ^ lead d ≤ d.value ∧ d.value < 10 ^ (lead d + 1) := by
  have hlow := pow_pred_length_le (Nat.pos_of_ne_zero hd)
  have hlength : 0 < (Nat.toDigits 10 d.digits).length := Nat.length_toDigits_pos
  have hhigh : d.digits < 10 ^ (Nat.toDigits 10 d.digits).length :=
    (Nat.length_toDigits_le_iff (by decide) hlength).1 le_rfl
  have hunit : (0 : ℚ) < 10 ^ d.exponent := by positivity
  unfold lead value
  generalize (Nat.toDigits 10 d.digits).length = length at *
  have hlow' : (10 : ℚ) ^ (d.exponent + length - 1) = (10 ^ (length - 1) : Nat) * 10 ^ d.exponent := by
    push_cast
    rw [← zpow_natCast, ← zpow_add₀ (by norm_num)]
    congr 1
    omega
  have hhigh' : (10 : ℚ) ^ (d.exponent + length - 1 + 1) = (10 ^ length : Nat) * 10 ^ d.exponent := by
    push_cast
    rw [← zpow_natCast, ← zpow_add₀ (by norm_num)]
    congr 1
    omega
  rw [hlow', hhigh']
  exact ⟨mul_le_mul_of_nonneg_right (by exact_mod_cast hlow) hunit.le,
    mul_lt_mul_of_pos_right (by exact_mod_cast hhigh) hunit⟩

/-- A text of digits, a point and digits that read as a number. -/
structure Positional (text : String) (x : ℚ) (whole fraction : List Char) : Prop where
  text_eq : text = String.ofList (whole ++ '.' :: fraction)
  whole_ne : whole ≠ []
  fraction_ne : fraction ≠ []
  digits : ∀ c ∈ whole ++ fraction, isDecimalDigit c = true
  value_eq : (natOfDigits (whole ++ fraction) : ℚ) / tenTo fraction.length = x

/-- **A number that is neither too small nor too large is set without an exponent.** -/
theorem positional_text (hd : d.digits ≠ 0) (hlow : (10 : ℚ) ^ (-4 : Int) ≤ d.value)
    (hhigh : d.value < 10 ^ (16 : Int)) :
    ∃ whole fraction, Positional (text .standard d) d.value whole fraction := by
  obtain ⟨hvalue, hvalue'⟩ := value_bounds hd
  have hleast : -4 < lead d + 1 :=
    (zpow_lt_zpow_iff_right₀ (by norm_num : (1 : ℚ) < 10)).1 (hlow.trans_lt hvalue')
  have hmost : lead d < 16 :=
    (zpow_lt_zpow_iff_right₀ (by norm_num : (1 : ℚ) < 10)).1 (hvalue.trans_lt hhigh)
  have hdigits : ∀ c ∈ Nat.toDigits 10 d.digits, isDecimalDigit c = true := fun c hc =>
    Nat.isDigit_of_mem_toDigits (by decide) (by decide) hc
  have hnat : natOfDigits (Nat.toDigits 10 d.digits) = d.digits := by
    rw [natOfDigits_eq, Nat.ofDigitChars_ten_toDigits]
  have hne : Nat.toDigits 10 d.digits ≠ [] := Nat.toDigits_ne_nil
  have hzeros (n : Nat) : ∀ c ∈ List.replicate n '0', isDecimalDigit c = true := fun c hc => by
    rw [List.eq_of_mem_replicate hc]
    decide
  have hlead : lead d = d.exponent + (Nat.toDigits 10 d.digits).length - 1 := rfl
  have hset : (decide (Layout.standard.leastPositional ≤ lead d) &&
      decide (lead d < Layout.standard.firstScientific)) = true := by
    have hle : Layout.standard.leastPositional ≤ lead d := Int.lt_add_one_iff.1 hleast
    have hlt : lead d < Layout.standard.firstScientific := hmost
    rw [decide_eq_true hle, decide_eq_true hlt, Bool.and_true]
  unfold text
  dsimp only
  rw [← hlead, if_pos hset]
  generalize Nat.toDigits 10 d.digits = cs at *
  have hlength : 0 < cs.length := List.length_pos_of_ne_nil hne
  by_cases hexponent : 0 ≤ d.exponent
  · -- a whole number, and zeros that are none of its digits
    obtain ⟨n, hn⟩ := Int.eq_ofNat_of_zero_le hexponent
    refine ⟨cs ++ List.replicate n '0', ['0'], ?_, by simp [hne], by simp, ?_, ?_⟩
    · rw [if_pos hexponent, hn]
      refine String.toList_inj.1 ?_
      simp [Layout.standard]
    · simp only [List.forall_mem_append]
      exact ⟨⟨hdigits, hzeros n⟩, hzeros 1⟩
    · have hall : cs ++ List.replicate n '0' ++ ['0'] = cs ++ List.replicate (n + 1) '0' := by
        rw [List.replicate_succ', List.append_assoc]
      rw [hall, natOfDigits_append_zeros, hnat, cast_tenTo, List.length_singleton, value, hn,
        zpow_natCast]
      push_cast
      ring
  · obtain ⟨n, hn⟩ := Int.exists_eq_neg_ofNat (not_le.1 hexponent).le
    have hfraction : d.value = (d.digits : ℚ) / tenTo n := by
      rw [value, hn, zpow_neg, zpow_natCast, cast_tenTo, div_eq_mul_inv]
    rw [if_neg hexponent]
    by_cases hpoint : 0 ≤ lead d
    · -- the point stands among the digits
      have hdrop : (cs.drop ((lead d).toNat + 1)).length = n := by
        rw [List.length_drop]
        omega
      rw [if_pos hpoint]
      refine ⟨cs.take ((lead d).toNat + 1), cs.drop ((lead d).toNat + 1), ?_, ?_, ?_, ?_, ?_⟩
      · refine String.toList_inj.1 ?_
        simp
      · simp [hne]
      · rw [← List.length_pos_iff, hdrop]
        omega
      · rwa [List.take_append_drop]
      · rw [List.take_append_drop, hnat, hdrop, hfraction]
    · -- zeros stand between the point and the digits
      rw [if_neg hpoint]
      refine ⟨['0'], List.replicate ((-lead d).toNat - 1) '0' ++ cs, ?_, by simp, by simp [hne],
        ?_, ?_⟩
      · refine String.toList_inj.1 ?_
        simp
      · simp only [List.forall_mem_append]
        exact ⟨hzeros 1, hzeros _, hdigits⟩
      · have hzero : natOfDigits (['0'] ++ (List.replicate ((-lead d).toNat - 1) '0' ++ cs)) =
            d.digits := by
          rw [← hnat, ← natOfDigits_zeros_append _ cs, ← natOfDigits_zeros_append 1]
          rfl
        have hplaces : (List.replicate ((-lead d).toNat - 1) '0' ++ cs).length = n := by
          rw [List.length_append, List.length_replicate]
          omega
        rw [hzero, hplaces, hfraction]

/-- A number that is not whole has a fraction, so it has less than all of its digits before the
point. -/
theorem exponent_neg_of_toInt?_eq_none {s : Bool} (h : (Binary.finite s m e).toInt? = none) :
    e < 0 ∧ m ≠ 0 := by
  unfold toInt? at h
  dsimp only at h
  split at h
  next => cases h
  next hneg =>
    refine ⟨not_le.1 hneg, fun hm => ?_⟩
    rw [if_pos (by rw [hm, Nat.zero_mod])] at h
    cases h

/-- **A number that is not whole, and not too small for it, is written with a point and read back
from that text**, up to its sign. -/
theorem exists_readFloat {x : Float} {s : Bool} (hx : Binary.ofFloat x = .finite s m e)
    (hfraction : (Binary.ofFloat x).toInt? = none) (hleast : twoTo (-e).toNat ≤ m * tenTo 4) :
    ∃ whole fraction, Decimal.ofFloat x =
        (if s then "-" else "") ++ String.ofList (whole ++ '.' :: fraction) ∧
      whole ≠ [] ∧ fraction ≠ [] ∧ (∀ c ∈ whole ++ fraction, isDecimalDigit c = true) ∧
      (if s then -readFloat whole fraction else readFloat whole fraction) = x := by
  rw [hx] at hfraction
  obtain ⟨hneg, hm⟩ := exponent_neg_of_toInt?_eq_none hfraction
  obtain ⟨hcanonical, -, -⟩ := bits_of_finite x.toBits.toNat_lt hx hm
  obtain ⟨hnear, hdigits, hlow, hhigh⟩ := shortest_spec hcanonical
  have hten : (1 : ℚ) ≤ 10 := by norm_num
  have htop : -4 ≤ top m e := by
    have hscale : (Window.around m e).scale = 4 * twoTo (-e).toNat := by
      have hexponent : (2 - e).toNat = (-e).toNat + 2 := by omega
      change twoTo (2 - e).toNat = _
      rw [hexponent, Nat.mul_comm]
      exact Nat.pow_add 2 _ 2
    have hvalue : (Window.around m e).value = 4 * m := by
      have hexponent : (e - 2).toNat = 0 := by omega
      change 4 * m * twoTo (e - 2).toNat = _
      rw [hexponent]
      exact Nat.mul_one _
    refine (leadingExponent_bounds (k := 3) (scale_pos m e) (by decide) ?_).2
    rw [hscale, hvalue, Nat.mul_assoc]
    exact Nat.mul_le_mul_left 4 hleast
  have hlow' : (10 : ℚ) ^ (-4 : Int) ≤ (shortest m e).value :=
    (zpow_le_zpow_right₀ hten htop).trans hlow
  have hhigh' : (shortest m e).value < 10 ^ (16 : Int) := by
    have hbits : (m : ℚ) + 1 ≤ 2 ^ 53 := by exact_mod_cast hcanonical.digits
    have hhalf : (2 : ℚ) ^ e ≤ 2 ^ (-1 : Int) := zpow_le_zpow_right₀ (by norm_num) (by omega)
    have hpos : (0 : ℚ) < 2 ^ e := by positivity
    norm_num at hhalf ⊢
    nlinarith
  obtain ⟨whole, fraction, htext, hwhole, hne, hall, hread⟩ := positional_text hdigits hlow' hhigh'
  have hden := tenTo_pos fraction.length
  have hnum : 0 < natOfDigits (whole ++ fraction) := by
    refine Nat.pos_of_ne_zero fun hzero => ?_
    rw [hzero, Nat.cast_zero, zero_div] at hread
    rw [← hread] at hlow'
    exact absurd hlow' (by norm_num)
  obtain ⟨y, hy, hxy⟩ := exists_nearest? hx hm hnum hden (hread.symm ▸ hnear)
  refine ⟨whole, fraction, ?_, hwhole, hne, hall, ?_⟩
  · unfold Decimal.ofFloat
    rw [hx]
    dsimp only
    rw [if_neg hm, htext]
  · rw [readFloat, nearest, hy, Option.getD_some]
    exact hxy

end Decimal

end CommandScript
