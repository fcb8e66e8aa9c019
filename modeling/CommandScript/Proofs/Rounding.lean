import CommandScript.Proofs.FloatBits
/-!
# CommandScript — rounding to a floating-point number

The positive floating-point numbers are the numbers `mantissa · 2 ^ exponent` in one spelling each
(`Binary.Canonical`). A fraction is rounded by counting it in units `2 ^ exponent` for the one
exponent at which the count has the right size (`Binary.Fits`), and by rounding the count.

So a fraction is rounded to a given number if it lies close enough to it (`Binary.Near`): within
half a unit, or a quarter of a unit where the number is the least of its exponent and the numbers
below it are twice as dense; at the very ends, if the mantissa is even.
-/

namespace CommandScript

/-- A power whose exponent is cut off at zero, against the one with the sign taken away. -/
theorem pow_toNat_neg {b : ℚ} (hb : b ≠ 0) (e : Int) :
    b ^ (-e).toNat = b ^ e.toNat / b ^ e := by
  rw [eq_div_iff (zpow_ne_zero e hb), ← zpow_natCast, ← zpow_natCast, ← zpow_add₀ hb]
  congr 1
  omega

namespace Binary

variable {m num den k : Nat} {e f : Int}

theorem cast_twoTo (n : Nat) : ((twoTo n : Nat) : ℚ) = 2 ^ n := by
  rw [twoTo, Nat.pow_eq, Nat.cast_pow, Nat.cast_ofNat]

theorem twoTo_pos (n : Nat) : 0 < twoTo n := Nat.pow_pos (by decide)

/-! ## The count of units -/

/-- The whole units `2 ^ e` in a fraction. -/
def units (num den : Nat) (e : Int) : Nat := num * twoTo (-e).toNat / (den * twoTo e.toNat)

theorem cast_scaled (num den : Nat) (e : Int) :
    ((num * twoTo (-e).toNat : Nat) : ℚ) / (den * twoTo e.toNat : Nat) = num / den / 2 ^ e := by
  push_cast
  rw [cast_twoTo, cast_twoTo, pow_toNat_neg two_ne_zero]
  field_simp

theorem le_units_iff (hden : 0 < den) :
    k ≤ units num den e ↔ (k : ℚ) * 2 ^ e ≤ num / den := by
  have hpos : 0 < den * twoTo e.toNat := Nat.mul_pos hden (twoTo_pos _)
  rw [units, Nat.le_div_iff_mul_le hpos, ← le_div_iff₀ (by positivity), ← cast_scaled,
    le_div_iff₀ (by exact_mod_cast hpos)]
  norm_cast

theorem units_lt_iff (hden : 0 < den) :
    units num den e < k ↔ (num : ℚ) / den < k * 2 ^ e := by
  rw [← not_le, le_units_iff hden, not_le]

/-- The exponent is the one of the floating-point number next to a fraction: there is room for the
units, and none is to be had by smaller ones. -/
structure Fits (num den : Nat) (e : Int) : Prop where
  least : leastExponent ≤ e
  room : units num den e < twoTo 53
  full : e = leastExponent ∨ twoTo 52 ≤ units num den e

/-- Two exponents of a fraction are the same one. -/
theorem Fits.le_of_fits (hden : 0 < den) (he : Fits num den e) (hf : Fits num den f) : f ≤ e := by
  by_contra hlt
  obtain rfl | hfull := hf.full
  · exact hlt he.least
  have hlow := (le_units_iff hden).1 hfull
  have hhigh := (units_lt_iff hden).1 he.room
  rw [cast_twoTo, ← zpow_natCast, ← zpow_add₀ two_ne_zero] at hlow hhigh
  have hbetween := (zpow_lt_zpow_iff_right₀ (by norm_num)).1 (hlow.trans_lt hhigh)
  omega

theorem Fits.unique (hden : 0 < den) (he : Fits num den e) (hf : Fits num den f) : e = f :=
  le_antisymm (hf.le_of_fits hden he) (he.le_of_fits hden hf)

/-- Between which powers of two a fraction lies. -/
theorem log2_bounds (hnum : 0 < num) (hden : 0 < den) :
    (2 : ℚ) ^ ((num.log2 : Int) - den.log2 - 1) ≤ num / den ∧
      (num : ℚ) / den < 2 ^ ((num.log2 : Int) - den.log2 + 1) := by
  have hlow (n : Nat) (hn : 0 < n) : (2 : ℚ) ^ (n.log2 : Int) ≤ n := by
    rw [zpow_natCast]
    exact_mod_cast Nat.log2_self_le hn.ne'
  have hhigh (n : Nat) : (n : ℚ) < 2 ^ ((n.log2 : Int) + 1) := by
    have hlt : n < 2 ^ (n.log2 + 1) := Nat.lt_log2_self
    exact_mod_cast hlt
  have hpos : (0 : ℚ) < den := by exact_mod_cast hden
  have hmul {a b : Int} : (2 : ℚ) ^ a * 2 ^ b = 2 ^ (a + b) := (zpow_add₀ two_ne_zero a b).symm
  constructor
  · rw [le_div_iff₀ hpos]
    calc (2 : ℚ) ^ ((num.log2 : Int) - den.log2 - 1) * den
        ≤ 2 ^ ((num.log2 : Int) - den.log2 - 1) * 2 ^ ((den.log2 : Int) + 1) := by
          gcongr
          exact (hhigh den).le
      _ = 2 ^ (num.log2 : Int) := by rw [hmul]; congr 1; omega
      _ ≤ num := hlow num hnum
  · rw [div_lt_iff₀ hpos]
    calc (num : ℚ) < 2 ^ ((num.log2 : Int) + 1) := hhigh num
      _ = 2 ^ ((num.log2 : Int) - den.log2 + 1) * 2 ^ (den.log2 : Int) := by
          rw [hmul]; congr 1; omega
      _ ≤ 2 ^ ((num.log2 : Int) - den.log2 + 1) * den := by
          gcongr
          exact hlow den hden

/-- The exponent that rounding takes, for the guess of one from the binary digits. -/
def exponentOf (num den : Nat) : Int :=
  let guess : Int := (num.log2 : Int) - den.log2 - 53
  if units num den (max guess leastExponent) < twoTo 53 then max guess leastExponent
  else max (guess + 1) leastExponent

/-- The guess is right, or it is one too small. -/
theorem fits_exponentOf (hnum : 0 < num) (hden : 0 < den) :
    Fits num den (exponentOf num den) := by
  obtain ⟨hlow, hhigh⟩ := log2_bounds hnum hden
  unfold exponentOf
  extract_lets guess
  have hfull {e : Int} (he : (2 : ℚ) ^ (52 + e) ≤ num / den) : twoTo 52 ≤ units num den e := by
    rw [le_units_iff hden, cast_twoTo, ← zpow_natCast, ← zpow_add₀ two_ne_zero]
    exact he
  have hroom {e : Int} (he : (num : ℚ) / den < 2 ^ (53 + e)) : units num den e < twoTo 53 := by
    rw [units_lt_iff hden, cast_twoTo, ← zpow_natCast, ← zpow_add₀ two_ne_zero]
    exact he
  have hmono {a b : Int} (hab : a ≤ b) : (2 : ℚ) ^ a ≤ 2 ^ b :=
    zpow_le_zpow_right₀ (by norm_num) hab
  obtain hsmall | hlarge := lt_or_ge guess leastExponent
  · -- both exponents are the least one
    have hleast : max guess leastExponent = leastExponent := by omega
    have hnext : max (guess + 1) leastExponent = leastExponent := by omega
    rw [hleast, hnext, ite_self]
    exact ⟨le_rfl, hroom (hhigh.trans_le (hmono (by omega))), .inl rfl⟩
  · have hguess : max guess leastExponent = guess := by omega
    have hnext : max (guess + 1) leastExponent = guess + 1 := by omega
    rw [hguess, hnext]
    split
    next hfits => exact ⟨hlarge, hfits, .inr (hfull ((hmono (by omega)).trans hlow))⟩
    next hfits =>
      have hge := (le_units_iff hden).1 (not_lt.1 hfits)
      rw [cast_twoTo, ← zpow_natCast, ← zpow_add₀ two_ne_zero] at hge
      refine ⟨by omega, hroom (hhigh.trans_le (hmono (by omega))), .inr (hfull ?_)⟩
      exact (hmono (by push_cast; omega)).trans hge

/-! ## The nearest number -/

/-- A count is rounded to a number that is at most half a unit away, and at just a half to an even
one. -/
theorem roundHalfEven_eq (hlow : 2 * k * den ≤ 2 * num + den)
    (hhigh : 2 * num ≤ (2 * k + 1) * den)
    (hodd : k % 2 = 1 → 2 * k * den < 2 * num + den ∧ 2 * num < (2 * k + 1) * den)
    (hden : 0 < den) : roundHalfEven num den = k := by
  have hnum : den * (num / den) + num % den = num := Nat.div_add_mod num den
  have hrest : num % den < den := Nat.mod_lt num hden
  unfold roundHalfEven
  dsimp only
  generalize num / den = q at *
  generalize num % den = r at *
  subst hnum
  have hk : k = q ∨ k = q + 1 := by
    have hle : q ≤ k := by
      by_contra hlt
      nlinarith [Nat.mul_le_mul_left den (Nat.succ_le_of_lt (not_le.1 hlt))]
    have hge : k ≤ q + 1 := by
      by_contra hlt
      nlinarith [Nat.mul_le_mul_left den (Nat.succ_le_of_lt (not_le.1 hlt))]
    omega
  obtain rfl | rfl := hk
  · have hhalf : 2 * r ≤ den := by nlinarith
    have htie : k % 2 = 1 → 2 * r < den := fun h => by nlinarith [(hodd h).2]
    split
    · rfl
    split
    · omega
    split
    · rfl
    · omega
  · have hhalf : den ≤ 2 * r := by nlinarith
    have htie : (q + 1) % 2 = 1 → den < 2 * r := fun h => by nlinarith [(hodd h).1]
    split
    · omega
    split
    · rfl
    split
    · omega
    · rfl

/-- The fraction is rounded at the exponent that fits it. -/
theorem nearest?_eq (hnum : 0 < num) (hden : 0 < den) (he : Fits num den e) (negative : Bool) :
    nearest? negative num den =
      let bits := magnitudeBits
        (roundHalfEven (num * twoTo (-e).toNat) (den * twoTo e.toNat)) e
      if 2047 * twoTo 52 ≤ bits then none
      else some (Float.ofBits (UInt64.ofNat (bits + if negative then twoTo 63 else 0))) := by
  have hexponent : exponentOf num den = e := (fits_exponentOf hnum hden).unique hden he
  subst hexponent
  unfold nearest?
  exact if_neg hnum.ne'

/-- The units of a fraction are rounded to a number that the fraction is close to, counted in half
units. -/
theorem roundHalfEven_units_eq (hden : 0 < den)
    (hlow : (2 * k - 1) * (2 : ℚ) ^ (e - 1) ≤ num / den)
    (hhigh : (num : ℚ) / den ≤ (2 * k + 1) * 2 ^ (e - 1))
    (hodd : k % 2 = 1 → (2 * k - 1) * (2 : ℚ) ^ (e - 1) < num / den ∧
      (num : ℚ) / den < (2 * k + 1) * 2 ^ (e - 1)) :
    roundHalfEven (num * twoTo (-e).toNat) (den * twoTo e.toNat) = k := by
  have hd : 0 < den * twoTo e.toNat := Nat.mul_pos hden (twoTo_pos _)
  have hscaled := cast_scaled num den e
  have hhalf : (2 : ℚ) ^ e = 2 * 2 ^ (e - 1) := by rw [zpow_sub_one₀ two_ne_zero]; ring
  generalize num * twoTo (-e).toNat = n at *
  generalize den * twoTo e.toNat = d at *
  have hdpos : (0 : ℚ) < d := by exact_mod_cast hd
  have hunit : (0 : ℚ) < 2 ^ (e - 1) := by positivity
  have hn : (2 : ℚ) * n = num / den / 2 ^ (e - 1) * d := by
    rw [div_eq_iff hdpos.ne'] at hscaled
    rw [hscaled, hhalf]
    field_simp
  rw [← le_div_iff₀ hunit] at hlow
  rw [← div_le_iff₀ hunit] at hhigh
  rw [← lt_div_iff₀ hunit, ← div_lt_iff₀ hunit] at hodd
  generalize (num : ℚ) / den / 2 ^ (e - 1) = y at *
  refine roundHalfEven_eq ?_ ?_ (fun h => ⟨?_, ?_⟩) hd
  · have hle : (2 : ℚ) * k * d ≤ 2 * n + d := by nlinarith
    exact_mod_cast hle
  · have hle : (2 : ℚ) * n ≤ (2 * k + 1) * d := by nlinarith
    exact_mod_cast hle
  · have hlt : (2 : ℚ) * k * d < 2 * n + d := by nlinarith [(hodd h).1]
    exact_mod_cast hlt
  · have hlt : (2 : ℚ) * n < (2 * k + 1) * d := by nlinarith [(hodd h).2]
    exact_mod_cast hlt

/-- A number `mantissa · 2 ^ exponent` as a floating-point number has it: with all its digits
used, but for those of the least exponent. -/
structure Canonical (m : Nat) (e : Int) : Prop where
  positive : 0 < m
  digits : m < twoTo 53
  least : leastExponent ≤ e
  full : e = leastExponent ∨ twoTo 52 ≤ m

/-- How far from a number the fractions below it may be, in quarters of a unit. -/
def below (m : Nat) (e : Int) : Nat := if m = twoTo 52 ∧ leastExponent < e then 1 else 2

/-- The fraction is close enough to a number to be rounded to it. -/
structure Near (m : Nat) (e : Int) (x : ℚ) : Prop where
  low : (4 * m - below m e) * 2 ^ (e - 2) ≤ x
  high : x ≤ (4 * m + 2) * 2 ^ (e - 2)
  inside : m % 2 = 1 → (4 * m - below m e) * 2 ^ (e - 2) < x ∧ x < (4 * m + 2) * 2 ^ (e - 2)

theorem fits_iff (hden : 0 < den) :
    Fits num den e ↔ leastExponent ≤ e ∧ (num : ℚ) / den < 2 ^ (53 + e) ∧
      (e = leastExponent ∨ (2 : ℚ) ^ (52 + e) ≤ num / den) := by
  have hroom : units num den e < twoTo 53 ↔ _ := units_lt_iff hden
  have hfull : twoTo 52 ≤ units num den e ↔ _ := le_units_iff hden
  rw [cast_twoTo, ← zpow_natCast, ← zpow_add₀ two_ne_zero] at hroom hfull
  exact ⟨fun ⟨hleast, h53, h52⟩ => ⟨hleast, hroom.1 h53, h52.imp_right hfull.1⟩,
    fun ⟨hleast, h53, h52⟩ => ⟨hleast, hroom.2 h53, h52.imp_right hfull.2⟩⟩

/-- **What is close to a number is rounded to it.** -/
theorem nearest?_of_near (hm : Canonical m e) (hnum : 0 < num) (hden : 0 < den)
    (hnear : Near m e (num / den)) (negative : Bool) :
    nearest? negative num den =
      if 2047 * twoTo 52 ≤ magnitudeBits m e then none
      else some (Float.ofBits
        (UInt64.ofNat (magnitudeBits m e + if negative then twoTo 63 else 0))) := by
  -- it is enough to find the exponent that fits, and what the units are rounded to there
  suffices hbits : ∃ f, Fits num den f ∧ magnitudeBits
      (roundHalfEven (num * twoTo (-f).toNat) (den * twoTo f.toNat)) f = magnitudeBits m e by
    obtain ⟨f, hf, hbits⟩ := hbits
    rw [nearest?_eq hnum hden hf]
    dsimp only
    rw [hbits]
  obtain ⟨hlow, hhigh, hinside⟩ := hnear
  have hdigits : (m : ℚ) + 1 ≤ 2 ^ 53 := by exact_mod_cast hm.digits
  have hunit : (0 : ℚ) < 2 ^ (e - 2) := by positivity
  have hpow (n : Nat) (f : Int) (hf : f = n + (e - 2)) : (2 : ℚ) ^ f = 2 ^ n * 2 ^ (e - 2) := by
    rw [hf, zpow_add₀ two_ne_zero, zpow_natCast]
  by_cases hbelow : m = twoTo 52 ∧ leastExponent < e
  · have hone : below m e = 1 := if_pos hbelow
    obtain ⟨hleading, hleast⟩ := hbelow
    have hcast : (m : ℚ) = 2 ^ 52 := by rw [hleading, cast_twoTo]
    have heven : ¬ m % 2 = 1 := by rw [hleading]; decide
    rw [hone, hcast] at hlow
    rw [hcast] at hhigh
    obtain hless | hge := lt_or_ge ((num : ℚ) / den) (2 ^ (52 + e))
    · -- the fraction lies below the number, where the units are half as big
      rw [hpow 54 (52 + e) (by omega)] at hless
      refine ⟨e - 1, (fits_iff hden).2 ⟨by omega, ?_, .inr ?_⟩, ?_⟩
      · rw [hpow 54 (53 + (e - 1)) (by omega)]
        exact hless
      · rw [hpow 53 (52 + (e - 1)) (by omega)]
        push_cast at hlow
        nlinarith
      · have hround : roundHalfEven (num * twoTo (-(e - 1)).toNat) (den * twoTo (e - 1).toNat) =
            twoTo 53 := by
          have hexponent : e - 1 - 1 = e - 2 := by omega
          refine roundHalfEven_units_eq hden ?_ ?_ fun h => absurd h (by decide)
          · rw [cast_twoTo, hexponent]
            push_cast at hlow
            nlinarith
          · rw [cast_twoTo, hexponent]
            nlinarith
        rw [hround, hleading]
        unfold magnitudeBits
        have hsucc : (e + 1074).toNat = (e - 1 + 1074).toNat + 1 := by
          unfold leastExponent at hleast
          omega
        rw [if_neg (by decide), if_neg (by decide), hsucc]
        have hdouble : twoTo 53 = twoTo 52 + twoTo 52 := by decide
        rw [hdouble]
        ring
    · refine ⟨e, (fits_iff hden).2 ⟨hm.least, ?_, .inr hge⟩, ?_⟩
      · rw [hpow 55 (53 + e) (by omega)]
        nlinarith
      · rw [roundHalfEven_units_eq hden (k := m) ?_ ?_ fun h => absurd h heven]
        · rw [hpow 1 (e - 1) (by omega), hcast]
          push_cast at hlow
          nlinarith
        · rw [hpow 1 (e - 1) (by omega), hcast]
          nlinarith
  · have htwo : below m e = 2 := if_neg hbelow
    rw [htwo] at hlow hinside
    push_cast at hlow hinside
    refine ⟨e, (fits_iff hden).2 ⟨hm.least, ?_, ?_⟩, ?_⟩
    · rw [hpow 55 (53 + e) (by omega)]
      nlinarith
    · obtain hleast | hleast := eq_or_lt_of_le hm.least
      · exact .inl hleast.symm
      · have hfull : twoTo 52 ≤ m := hm.full.resolve_left hleast.ne'
        have hmore : twoTo 52 + 1 ≤ m := lt_of_le_of_ne hfull fun h => hbelow ⟨h.symm, hleast⟩
        have hcast : (2 : ℚ) ^ 52 + 1 ≤ m := by exact_mod_cast hmore
        rw [hpow 54 (52 + e) (by omega)]
        exact .inr (by nlinarith)
    · rw [roundHalfEven_units_eq hden (k := m) ?_ ?_ fun h => ?_]
      · rw [hpow 1 (e - 1) (by omega)]
        nlinarith
      · rw [hpow 1 (e - 1) (by omega)]
        nlinarith
      · rw [hpow 1 (e - 1) (by omega)]
        obtain ⟨hlt, hgt⟩ := hinside h
        exact ⟨by nlinarith, by nlinarith⟩

/-! ## Numbers and their bits -/

/-- The bits of a number other than zero are those of its mantissa and exponent, and its sign. -/
theorem bits_of_finite {bits : Nat} (hbits : bits < twoTo 64) {s : Bool}
    (h : ofBits bits = .finite s m e) (hm : m ≠ 0) :
    Canonical m e ∧ magnitudeBits m e < 2047 * twoTo 52 ∧
      bits = magnitudeBits m e + if s then twoTo 63 else 0 := by
  have hsign : bits = bits % twoTo 63 + if bits / twoTo 63 % 2 == 1 then twoTo 63 else 0 := by
    unfold twoTo at hbits ⊢
    simp only [Nat.pow_eq, beq_iff_eq] at hbits ⊢
    split <;> omega
  have hrest : bits % twoTo 63 = bits / twoTo 52 % 2048 * twoTo 52 + bits % twoTo 52 := by
    unfold twoTo
    simp only [Nat.pow_eq]
    omega
  have hfraction : bits % twoTo 52 < twoTo 52 := Nat.mod_lt _ (twoTo_pos 52)
  have hbiased : bits / twoTo 52 % 2048 < 2048 := Nat.mod_lt _ (by decide)
  have hdigits : twoTo 53 = twoTo 52 + twoTo 52 := by decide
  rw [hrest] at hsign
  unfold ofBits at h
  dsimp only at h
  generalize bits % twoTo 52 = fraction at *
  generalize bits / twoTo 52 % 2048 = biased at *
  split at h
  next => split at h <;> cases h
  split at h
  next hzero =>
    -- below the least number with all its digits
    cases h
    refine ⟨⟨by omega, by omega, le_rfl, .inl rfl⟩, ?_, ?_⟩
    · rw [magnitudeBits, if_pos hfraction]
      exact hfraction.trans (by decide)
    · rw [magnitudeBits, if_pos hfraction]
      rw [hzero, Nat.zero_mul, Nat.zero_add] at hsign
      exact hsign
  next hfull hzero =>
    cases h
    have hmagnitude : magnitudeBits (fraction + twoTo 52) ((biased : Int) - 1075) =
        biased * twoTo 52 + fraction := by
      have hexponent : ((biased : Int) - 1075 + 1074).toNat + 1 = biased := by omega
      rw [magnitudeBits, if_neg (by omega)]
      conv_rhs => rw [← hexponent]
      ring
    refine ⟨⟨by omega, by omega, by unfold leastExponent; omega, .inr (by omega)⟩, ?_, ?_⟩
    · rw [hmagnitude]
      have hle : biased * twoTo 52 ≤ 2046 * twoTo 52 := Nat.mul_le_mul_right _ (by omega)
      omega
    · rw [hmagnitude]
      exact hsign

/-- **A number is what is nearest to anything close to it**, up to its sign. -/
theorem exists_nearest? {x : Float} {s : Bool} (hx : ofFloat x = .finite s m e) (hm : m ≠ 0)
    (hnum : 0 < num) (hden : 0 < den) (hnear : Near m e (num / den)) :
    ∃ y, nearest? false num den = some y ∧ (if s then -y else y) = x := by
  obtain ⟨hcanonical, hfinite, hbits⟩ := bits_of_finite x.toBits.toNat_lt hx hm
  obtain ⟨t, b, c, hpieces⟩ := exists_hasPieces (x := x) (by rw [hx]; exact Binary.noConfusion)
  refine ⟨Float.ofBits (UInt64.ofNat (magnitudeBits m e)), ?_, ?_⟩
  · rw [nearest?_of_near hcanonical hnum hden hnear, if_neg (not_le.2 hfinite)]
    rfl
  cases s with
  | false =>
    have hsame : UInt64.ofNat (magnitudeBits m e) = x.toBits := by
      rw [if_neg Bool.false_ne_true, Nat.add_zero] at hbits
      rw [← hbits, UInt64.ofNat_toNat]
    rw [if_neg Bool.false_ne_true, hsame]
    exact hpieces.ofBits_toBits
  | true =>
    rw [if_pos rfl] at hbits
    have hneg := hpieces.toNat_neg (by omega)
    have hsame : UInt64.ofNat (magnitudeBits m e) = (-x).toBits := by
      rw [show magnitudeBits m e = (-x).toBits.toNat by omega, UInt64.ofNat_toNat]
    rw [if_pos rfl, hsame, hpieces.neg.ofBits_toBits]
    exact hpieces.neg_neg

end Binary

end CommandScript
