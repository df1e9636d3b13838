import Mathlib

/-!
# Division by one

A double divided by one is the double itself. The quotient has the mantissa of the double with some zeros
behind it, and rounding takes the zeros away again.
-/

namespace LineCalc.Binary64

open Float.Model Float.Model.UnpackedFloat

variable {b : BitVec Format.binary64.numBits} {s : Sign} {m : Nat} {e : Int}

/-! ## Rounding -/

/-- A mantissa and an exponent that rounding leaves as they are. -/
structure Canonical (mantissa : Nat) (exponent : Int) : Prop where
  lt : mantissa < 2 ^ 53
  least_le : -1074 ≤ exponent
  normal_or_least : 2 ^ 52 ≤ mantissa ∨ exponent = -1074

theorem toNat_one_append (v : BitVec 52) : (1#1 ++ v).toNat = 2 ^ 52 + v.toNat := by
  rw [BitVec.toNat_append, ← Nat.shiftLeft_add_eq_or_of_lt v.isLt]
  rfl

/-- The first digit of a mantissa is left out of the bits, unless the exponent is the least. -/
theorem Canonical.of_unpack {hm : 0 < m}
    (h : UnpackedFloat.unpack Format.binary64 b = .finite s m e hm) : Canonical m e := by
  have hmantissa : (unpackMantissa b).toNat < 2 ^ 52 := (unpackMantissa b).isLt
  simp only [UnpackedFloat.unpack] at h
  split at h
  · split at h <;> cases h
  split at h
  · rename_i hzero
    split at h
    · cases h
    · cases h
      refine ⟨hmantissa.trans (by decide), ?_, .inr ?_⟩ <;> rw [hzero] <;> decide
  · rename_i hzero
    have hpos : (unpackExponent b).toNat ≠ 0 := fun h => hzero (BitVec.eq_of_toNat_eq h)
    cases h
    rw [toNat_one_append]
    refine ⟨by omega, ?_, .inl (by omega)⟩
    change -1074 ≤ ((unpackExponent b).toNat : Int) - 1075
    omega

theorem targetExponent_eq (t : Int) : Format.binary64.targetExponent t = max (t - 53) (-1074) := rfl

theorem Canonical.targetExponent (h : Canonical m e) (hm : 0 < m) :
    Format.binary64.targetExponent (totalExponent m e) = e := by
  have hlow := h.least_le
  rw [targetExponent_eq, totalExponent]
  rcases Nat.lt_or_ge m (2 ^ 52) with hlt | hge
  · have hlog : m.log2 < 52 := (Nat.log2_lt hm.ne').mpr hlt
    have hleast := h.normal_or_least.resolve_left (by omega)
    omega
  · have hlog : m.log2 = 52 := (Nat.log2_eq_iff hm.ne').mpr ⟨hge, h.lt⟩
    omega

/-- Zeros behind a mantissa leave no trace when they are shifted out. -/
theorem shiftRight_zeros (m k : Nat) :
    (ExtendedMantissa.ofMantissaAndAccuracy (m <<< k) .exact >>> k : ExtendedMantissa) =
      ⟨m, false, false⟩ := by
  induction k generalizing m with
  | zero => rfl
  | succ k ih =>
      change ExtendedMantissa.shiftRightOne
        (ExtendedMantissa.ofMantissaAndAccuracy (m <<< (k + 1)) .exact >>> k : ExtendedMantissa) = _
      rw [Nat.shiftLeft_succ_inside, ih]
      simp [ExtendedMantissa.shiftRightOne]

theorem totalExponent_zeros (hm : 0 < m) (k : Nat) :
    totalExponent (m <<< k) (e - k) = totalExponent m e := by
  have hlog : (m <<< k).log2 = m.log2 + k := by
    induction k with
    | zero => rfl
    | succ k ih =>
        have hne : m <<< k ≠ 0 := (Nat.shiftLeft_pos_iff.mpr hm).ne'
        rw [Nat.shiftLeft_succ, Nat.log2_two_mul hne, ih, Nat.add_assoc]
  rw [totalExponent, totalExponent, hlog]
  omega

theorem Canonical.shift_zeros (h : Canonical m e) (hm : 0 < m) (k : Nat) :
    shiftToTargetExponent Format.binary64 (m <<< k) (e - k) .exact = (⟨m, false, false⟩, e) := by
  have hamount : (e - (e - k)).toNat = k := by omega
  simp only [shiftToTargetExponent, shiftToExponent, totalExponent_zeros hm, h.targetExponent hm,
    hamount, shiftRight_zeros, Int.sub_add_cancel]

theorem Canonical.round_zeros (h : Canonical m e) (hm : 0 < m) (k : Nat) :
    roundWithAccuracy Format.binary64 s (m <<< k) (e - k) .exact = .finite s m e hm := by
  -- The first shift drops the zeros, and the second one has nothing left to do.
  have hfirst := h.shift_zeros hm k
  have hsecond := h.shift_zeros hm 0
  rw [Nat.shiftLeft_zero, Nat.cast_zero, Int.sub_zero] at hsecond
  have hrounded : ExtendedMantissa.roundedMantissa ⟨m, false, false⟩ = m := rfl
  simp only [roundWithAccuracy, hfirst, hrounded, hsecond, hm.ne', dite_false]

/-! ## The quotient -/

theorem one_unpack :
    (Float.ofInt 1).toModel.unpack = .finite .positive (2 ^ 52) (-52) (by decide) := rfl

theorem sign_div_positive (s : Sign) : s / Sign.positive = s := by
  cases s <;> rfl

/-- The mantissa of one is a power of two, so it only takes zeros off the dividend. -/
theorem Canonical.divCore_one (h : Canonical m e) (hm : 0 < m) :
    ∃ k : Nat, divCore Format.binary64 m e (2 ^ 52) (-52) = (m <<< k, e - k, .exact) := by
  have hone : totalExponent (2 ^ 52) (-52) = 1 := rfl
  have hlow := h.least_le
  have hlog : m.log2 < 53 := (Nat.log2_lt hm.ne').mpr h.lt
  -- The quotient has the exponent that it would be rounded to, which is at most that of the dividend.
  obtain ⟨t, ht⟩ : ∃ t, t = min (e - -52)
      (Format.binary64.targetExponent (totalExponent m e - totalExponent (2 ^ 52) (-52))) := ⟨_, rfl⟩
  have hle : t ≤ e := by
    rw [ht, targetExponent_eq, hone, totalExponent]
    omega
  have hshift : (e - -52 - t).toNat = (e - t).toNat + 52 := by omega
  have hquotient : m <<< ((e - t).toNat + 52) = m <<< (e - t).toNat * 2 ^ 52 := by
    rw [Nat.shiftLeft_add, Nat.shiftLeft_eq (m <<< _)]
  have hexponent : e - (e - t).toNat = t := by omega
  refine ⟨(e - t).toNat, ?_⟩
  simp only [divCore, ← ht, hshift, hquotient, hexponent, Nat.mul_div_cancel _ (Nat.two_pow_pos 52),
    Nat.mul_mod_left, accuracyOfFraction, if_true]

theorem Canonical.div_one (h : Canonical m e) (hm : 0 < m) :
    UnpackedFloat.div Format.binary64 (.finite s m e hm)
      (.finite .positive (2 ^ 52) (-52) (by decide)) = .finite s m e hm := by
  obtain ⟨k, hcore⟩ := h.divCore_one hm
  simp only [UnpackedFloat.div, hcore, sign_div_positive, h.round_zeros hm]

theorem div_one (x : Float) : x / Float.ofInt 1 = x := by
  have hmodel : UnpackedFloat.div Format.binary64 x.toModel.unpack (Float.ofInt 1).toModel.unpack =
      x.toModel.unpack := by
    rw [one_unpack]
    cases hx : x.toModel.unpack with
    | notANumber => rfl
    | infinity s => rw [UnpackedFloat.div, sign_div_positive]
    | zero s => rw [UnpackedFloat.div, sign_div_positive]
    | finite s m e hm => exact (Canonical.of_unpack hx).div_one hm
  change Float.ofModel (Float.Model.pack (UnpackedFloat.div Format.binary64 x.toModel.unpack
    (Float.ofInt 1).toModel.unpack)) = x
  rw [hmodel]
  exact Float.ofBits_toBits x

end LineCalc.Binary64
