import Mathlib
import CommandScript.Number.Binary
/-!
# CommandScript — the bits of a floating-point number

A `Float` is its bits: a sign, an exponent and a mantissa. It is taken apart into what it stands
for and put together again, and where it stands for a number or an infinity nothing is lost on the
way. To negate it is to turn its sign over and to leave its other bits.
-/

namespace CommandScript.Binary

open Float.Model (Format)
open Float.Model.UnpackedFloat

variable {s : Sign} {e : BitVec 11} {m : BitVec 52} {x : Float}

/-! ## Sign, exponent and mantissa -/

/-- Bits put together from three parts. -/
abbrev pieces (s : Sign) (e : BitVec 11) (m : BitVec 52) : BitVec 64 :=
  packComponents .binary64 s e m

theorem toNat_pieces :
    (pieces s e m).toNat = s.toBitVec.toNat * twoTo 63 + e.toNat * twoTo 52 + m.toNat := by
  have hm : m.toNat < 2 ^ 52 := m.isLt
  have he : e.toNat < 2 ^ 11 := e.isLt
  change (s.toBitVec ++ e ++ m).toNat = _
  rw [BitVec.toNat_append, BitVec.toNat_append, ← Nat.shiftLeft_add_eq_or_of_lt hm,
    ← Nat.shiftLeft_add_eq_or_of_lt he, Nat.shiftLeft_eq, Nat.shiftLeft_eq]
  unfold twoTo
  simp only [Nat.pow_eq]
  omega

theorem ofBitVec_unpackSign_pieces :
    Sign.ofBitVec (@unpackSign .binary64 (pieces s e m)) = s := by
  simp only [unpackSign, packComponents, BitVec.extractLsb]
  rw [BitVec.extractLsb'_append_eq_of_le (by omega), BitVec.extractLsb'_append_eq_of_le (by omega)]
  cases s <;> rfl

/-- All bits are put together from three parts. -/
theorem exists_pieces (b : BitVec 64) : ∃ s e m, b = pieces s e m := by
  have hsign (v : BitVec 1) : (Sign.ofBitVec v).toBitVec = v := by revert v; decide
  refine ⟨.ofBitVec (@unpackSign .binary64 b), @unpackExponent .binary64 b,
    @unpackMantissa .binary64 b, ?_⟩
  simp only [packComponents, hsign, unpackSign, unpackExponent, unpackMantissa, BitVec.extractLsb]
  ext i hi
  grind

/-! ## Taking apart and putting together -/

/-- To negate what bits stand for is to turn their sign over. -/
theorem neg_unpack_pieces :
    (unpack .binary64 (pieces s e m)).neg = unpack .binary64 (pieces (-s) e m) := by
  unfold unpack
  simp only [unpackMantissa_packComponents, unpackExponent_packComponents,
    ofBitVec_unpackSign_pieces]
  split
  · split <;> rfl
  · split
    · split <;> rfl
    · rfl

/-- **Bits that stand for a number or an infinity are put together as they were.** -/
theorem pack_unpack_pieces (h : e = -1#11 → m = 0#52) :
    pack .binary64 (unpack .binary64 (pieces s e m)) = pieces s e m := by
  have hm : m.toNat < 2 ^ 52 := m.isLt
  have he : e.toNat < 2 ^ 11 := e.isLt
  unfold unpack
  simp only [unpackMantissa_packComponents, unpackExponent_packComponents,
    ofBitVec_unpackSign_pieces]
  split
  next hfull =>
    rw [if_pos (h hfull), h hfull, hfull]
    rfl
  next hfull =>
    split
    next hzero =>
      subst hzero
      split
      next hnone =>
        rw [hnone]
        rfl
      next hsome =>
        -- a number below the least one with all its digits
        have hpos : m.toNat ≠ 0 := fun h0 => hsome (BitVec.toNat_inj.1 h0)
        have hlog : ¬ m.toNat.log2 + 1 = Format.mantissaBits .binary64 := by
          have hlt := (Nat.log2_lt hpos).2 hm
          have hbits : Format.mantissaBits .binary64 = 53 := by decide
          omega
        unfold pack
        dsimp only
        rw [if_neg (by decide), if_neg hlog, BitVec.ofNat_toNat, BitVec.setWidth_eq]
    next hzero =>
      have hcarry : (1#1 ++ m).toNat = 2 ^ 52 + m.toNat := by
        rw [BitVec.toNat_append, ← Nat.shiftLeft_add_eq_or_of_lt hm]
        rfl
      have hlog : (1#1 ++ m).toNat.log2 + 1 = Format.mantissaBits .binary64 := by
        have hlow := (Nat.le_log2 (n := (1#1 ++ m).toNat) (k := 52) (by omega)).2 (by omega)
        have hhigh := (Nat.log2_lt (n := (1#1 ++ m).toNat) (k := 53) (by omega)).2 (by omega)
        have hbits : Format.mantissaBits .binary64 = 53 := by decide
        omega
      have hne : e.toNat ≠ 2047 := fun h => hfull (BitVec.toNat_inj.1 h)
      have hbias : ((e.toNat : Int) - (Format.exponentBias .binary64 + Format.mantissaBitsWithoutImplicit .binary64) +
          Format.exponentBias .binary64 + Format.mantissaBitsWithoutImplicit .binary64).toNat = e.toNat := by
        omega
      have hmantissa : BitVec.ofNat 52 (1#1 ++ m).toNat = m := by
        rw [← BitVec.toNat_inj, BitVec.toNat_ofNat, hcarry]
        omega
      unfold pack
      dsimp only
      rw [hbias, if_neg (by simp only [Nat.not_le]; omega), if_pos hlog, hmantissa,
        BitVec.ofNat_toNat, BitVec.setWidth_eq]

/-! ## Floating-point numbers -/

variable {y : Float}

theorem eq_of_toBits (h : x.toBits.toBitVec = y.toBits.toBitVec) : x = y := by
  obtain ⟨⟨⟨a⟩, ha⟩⟩ := x
  obtain ⟨⟨⟨b⟩, hb⟩⟩ := y
  obtain rfl : a = b := h
  rfl

/-- The bits of what stands for a number or an infinity. -/
structure HasPieces (x : Float) (s : Sign) (e : BitVec 11) (m : BitVec 52) : Prop where
  bits : x.toBits.toBitVec = pieces s e m
  number : e = -1#11 → m = 0#52

namespace HasPieces

theorem ofBits_toBits (h : HasPieces x s e m) : Float.ofBits x.toBits = x := by
  refine eq_of_toBits ?_
  change pack .binary64 (unpack .binary64 x.toBits.toBitVec) = x.toBits.toBitVec
  rw [h.bits, pack_unpack_pieces h.number]

theorem neg (h : HasPieces x s e m) : HasPieces (-x) (-s) e m where
  bits := by
    change pack .binary64 (unpack .binary64 x.toBits.toBitVec).neg = _
    rw [h.bits, neg_unpack_pieces, pack_unpack_pieces h.number]
  number := h.number

theorem neg_neg (h : HasPieces x s e m) : - -x = x := by
  have hsign : - -s = s := by cases s <;> rfl
  exact eq_of_toBits (by rw [h.neg.neg.bits, hsign, h.bits])

theorem toNat_eq (h : HasPieces x s e m) :
    x.toBits.toNat = s.toBitVec.toNat * twoTo 63 + e.toNat * twoTo 52 + m.toNat := by
  rw [← toNat_pieces, ← h.bits]
  rfl

/-- Without its sign, a negative number has its other bits. -/
theorem toNat_neg (h : HasPieces x s e m) (hnegative : twoTo 63 ≤ x.toBits.toNat) :
    (-x).toBits.toNat + twoTo 63 = x.toBits.toNat := by
  have he : e.toNat < 2048 := e.isLt
  have hm : m.toNat < twoTo 52 := m.isLt
  have hbits := h.toNat_eq
  have hneg := h.neg.toNat_eq
  unfold twoTo at hm hbits hneg hnegative ⊢
  simp only [Nat.pow_eq] at hm hbits hneg hnegative ⊢
  cases s with
  | positive =>
    rw [show Sign.positive.toBitVec.toNat = 0 from rfl] at hbits
    omega
  | negative =>
    rw [show Sign.negative.toBitVec.toNat = 1 from rfl] at hbits
    rw [show (-Sign.negative).toBitVec.toNat = 0 from rfl] at hneg
    omega

end HasPieces

/-- What has the greatest exponent, and a mantissa beside it, is nothing. -/
theorem exists_hasPieces (hx : ofFloat x ≠ .nan) : ∃ s e m, HasPieces x s e m := by
  obtain ⟨s, e, m, hbits⟩ := exists_pieces x.toBits.toBitVec
  refine ⟨s, e, m, hbits, fun he => Decidable.byContradiction fun hm => hx ?_⟩
  have hm' : m.toNat < twoTo 52 := m.isLt
  have hpos : m.toNat ≠ 0 := fun h => hm (BitVec.toNat_inj.1 h)
  have hfull : (-1#11).toNat = 2047 := by decide
  have hnat : x.toBits.toNat = s.toBitVec.toNat * twoTo 63 + 2047 * twoTo 52 + m.toNat := by
    rw [← hfull, ← he, ← toNat_pieces, ← hbits]
    rfl
  unfold twoTo at hnat hm'
  simp only [Nat.pow_eq] at hnat hm'
  have hexponent : x.toBits.toNat / twoTo 52 % 2048 = 2047 := by
    unfold twoTo
    simp only [Nat.pow_eq]
    omega
  have hmantissa : x.toBits.toNat % twoTo 52 ≠ 0 := by
    unfold twoTo
    simp only [Nat.pow_eq]
    omega
  unfold ofFloat ofBits
  dsimp only
  rw [if_pos hexponent, if_neg hmantissa]

end CommandScript.Binary
