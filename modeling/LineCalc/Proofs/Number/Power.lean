import LineCalc.Proofs.Fraction.Completeness
import LineCalc.Proofs.Number.Tiers

/-!
# Powers that there are

An exact power fails only if a part of it is no word. For where the parts of a power are words, so are the
parts of the powers before it, which are all that is formed on the way. And of a fraction with the least
word above no power with a negative exponent is a number, so that turning it over may be refused at once.
-/

namespace LineCalc

namespace Word

/-- Where a power of an integer is a word, the powers before it are words. Only the last one can be the
least word. -/
theorem Fits.of_pow_le {b : Int} {m n : Nat} (h : Fits (b ^ n)) (hmn : m ≤ n) : Fits (b ^ m) := by
  rcases Nat.eq_or_lt_of_le hmn with rfl | hlt
  · exact h
  have hpow : ∀ k, (b ^ k).natAbs = b.natAbs ^ k := fun k => Int.natAbs_pow b k
  have hword : (b ^ n).natAbs ≤ 2 ^ 63 := by
    simp only [Fits, least, greatest] at h
    omega
  have hhalf : (b ^ m).natAbs ≤ 2 ^ 62 := by
    rcases Nat.lt_or_ge b.natAbs 2 with hsmall | hlarge
    · calc (b ^ m).natAbs = b.natAbs ^ m := hpow m
        _ ≤ 1 ^ m := Nat.pow_le_pow_left (by omega) m
        _ ≤ 2 ^ 62 := by rw [Nat.one_pow]; omega
    · have hdouble : 2 * (b ^ m).natAbs ≤ 2 ^ 63 := calc
        2 * (b ^ m).natAbs = 2 * b.natAbs ^ m := by rw [hpow]
        _ ≤ b.natAbs ^ (m + 1) := by
            rw [Nat.pow_succ']
            exact Nat.mul_le_mul_right _ hlarge
        _ ≤ b.natAbs ^ n := Nat.pow_le_pow_right (by omega) hlt
        _ = (b ^ n).natAbs := (hpow n).symm
        _ ≤ 2 ^ 63 := hword
      omega
  simp only [Fits, least, greatest]
  omega

end Word

namespace Fraction

variable {q : Fraction}

/-- The fraction of the powers of both parts. -/
def toPower (q : Fraction) (n : Nat) : Fraction := ⟨q.numerator ^ n, q.denominator ^ n⟩

theorem toPower_zero (q : Fraction) : q.toPower 0 = ofInt 1 := by
  rw [toPower, pow_zero, pow_zero]
  rfl

theorem toPower_one (q : Fraction) : q.toPower 1 = q := by
  rw [toPower, pow_one, pow_one]

theorem toPower_value (q : Fraction) (n : Nat) : (q.toPower n).value = q.value ^ n := by
  rw [value, toPower, value, Int.cast_pow, Int.cast_pow, div_pow]

theorem Reduced.toPower (h : q.Reduced) (n : Nat) : (q.toPower n).Reduced :=
  ⟨Int.pow_pos h.1, Int.pow_gcd_pow_of_gcd_eq_one h.2⟩

/-- The powers of a fraction, as long as both parts are words. Two of them make the next one. -/
theorem Reduced.bounded (h : q.Reduced) :
    Power.Bounded mul q.toPower (fun n => (q.toPower n).WellFormed) .overflow where
  mul_eq {i j} hi hj := mul_eq hi hj (h.toPower (i + j)) (by simp only [toPower_value, pow_add])
  of_le hin hle := (h.toPower _).wellFormed (hin.1.of_pow_le hle) (hin.2.1.of_pow_le hle)

end Fraction

namespace Number

/-- The number of a value, of which both parts have to be words. -/
def ofRat (q : ℚ) : Result ArithmeticError Number :=
  if Word.Fits q.num ∧ Word.Fits q.den then .ok (collapse ⟨q.num, q.den⟩) else .error .overflow

theorem ofRat_value {q : Fraction} (h : q.Reduced) :
    ofRat q.value = if q.WellFormed then .ok (collapse q) else .error .overflow := by
  rw [ofRat, h.num_value, h.den_value, if_congr h.wellFormed_iff rfl rfl]

theorem ofRat_intCast (n : Int) : ofRat n = (Word.checked n).map .integer := by
  have hone : Word.Fits (1 : Int) := by decide
  rw [ofRat, Rat.num_intCast, Rat.den_intCast]
  by_cases hn : Word.Fits n
  · rw [if_pos ⟨hn, hone⟩, Word.checked_of_fits hn]
    rfl
  · rw [if_neg (mt And.left hn), Word.checked_of_not_fits hn]
    rfl

/-- A result in lowest terms is a number where its parts are words. -/
theorem ite_bind_ofFraction {q : Fraction} (h : q.Reduced) :
    ((if q.WellFormed then .ok q else .error .overflow) >>= ofFraction) = ofRat q.value := by
  rw [ofRat_value h]
  split
  · rename_i hwf
    exact ofFraction_eq hwf.1
  · rfl

/-! ## Whole numbers -/

theorem mulWords_bounded (b : Int) :
    Power.Bounded mulWords (b ^ ·) (fun n => Word.Fits (b ^ n)) .overflow where
  mul_eq _ _ := by
    rw [mulWords, ← pow_add]
    rfl
  of_le hin hle := hin.of_pow_le hle

theorem raise_mulWords {b : Int} (hb : Word.Fits b) (n : Nat) :
    Power.raise mulWords 1 b n = Word.checked (b ^ n) := by
  have hzero : Word.Fits (b ^ 0) := by
    rw [pow_zero]
    decide
  have hone : Word.Fits (b ^ 1) := by rwa [pow_one]
  have hpower := (mulWords_bounded b).raise_eq hzero hone n
  rwa [pow_zero, pow_one, Nat.one_mul] at hpower

/-! ## Fractions -/

theorem raise_mul {q : Fraction} (hq : q.WellFormed) (n : Nat) :
    (Power.raise Fraction.mul (.ofInt 1) q n >>= ofFraction) = ofRat (q.value ^ n) := by
  have hzero : (q.toPower 0).WellFormed := by
    rw [q.toPower_zero]
    decide
  have hone : (q.toPower 1).WellFormed := by rwa [q.toPower_one]
  have hpower := hq.reduced.bounded.raise_eq hzero hone n
  rw [q.toPower_zero, q.toPower_one, Nat.one_mul] at hpower
  rw [hpower, ite_bind_ofFraction (hq.reduced.toPower n), q.toPower_value]

/-- With the least word above, one over a fraction is no number, and neither are the powers of that. -/
theorem not_fits_den_least_pow {q : Fraction} (hq : q.Reduced) (hleast : q.numerator = Word.least)
    {n : Nat} (hn : n ≠ 0) : ¬ Word.Fits (q.value⁻¹ ^ n).den := by
  have hne : q.numerator ≠ 0 := by
    rw [hleast]
    decide
  have hpower := (hq.inverse hne).toPower n
  rw [← Fraction.inverse_value, ← Fraction.toPower_value, hpower.den_value]
  intro hfits
  have hone := Word.Fits.of_pow_le hfits (Nat.one_le_iff_ne_zero.mpr hn)
  rw [pow_one, Fraction.inverse, hleast, if_pos (by decide)] at hone
  exact absurd hone (show ¬ Word.Fits (-Word.least) by decide)

theorem exactPower_eq {base : Fraction} {e : Int} (hb : base.WellFormed)
    (hzero : base.numerator = 0 → 0 ≤ e) : exactPower base e = ofRat (base.value ^ e) := by
  unfold exactPower powerBase
  by_cases he : e < 0
  · have hne : base.numerator ≠ 0 := fun h => absurd (hzero h) (by omega)
    rw [if_pos he, if_neg hne, zpow_eq_inv_pow_natAbs _ he]
    by_cases hleast : base.numerator = Word.least
    · have hden := not_fits_den_least_pow hb.reduced hleast (n := e.natAbs) (by omega)
      rw [if_pos hleast, ofRat, if_neg (mt And.right hden)]
      rfl
    · rw [if_neg hleast, ← Fraction.inverse_value, Fraction.reciprocal_eq hb hne hleast]
      exact raise_mul (Fraction.inverse_wellFormed hb hne hleast) _
  · rw [if_neg he, zpow_eq_pow_natAbs _ (by omega)]
    exact raise_mul hb _

/-! ## Both -/

/-- An exact power is refused only where it is no number. -/
theorem power_eq {r exponent : Number} {p : ℚ} {e : Int} (hr : r.WellFormed)
    (hp : r.value? = some p) (he : exponent.exactInteger? = some e) (hzero : p = 0 → 0 ≤ e) :
    power r exponent = ofRat (p ^ e) := by
  cases r with
  | integer b =>
      cases hp
      simp only [power, he]
      split
      · have hexact := exactPower_eq (Fraction.ofInt_wellFormed hr)
          fun h => hzero (Int.cast_eq_zero.mpr h)
        rwa [Fraction.ofInt_value] at hexact
      · rw [raise_mulWords hr, zpow_eq_pow_natAbs _ (by omega), ← ofRat_intCast, Int.cast_pow]
  | rational q =>
      cases hp
      simp only [power, he]
      exact exactPower_eq hr fun h => hzero ((Fraction.value_eq_zero_iff hr.reduced).mpr h)
  | float x => cases hp

/-- The power of an exact number to a whole exponent is the number of its value if both parts of that are
words, and else an overflow; only of zero there are no powers with a negative exponent. -/
theorem power_complete {r exponent : Number} {p : ℚ} {e : Int} (hr : r.WellFormed)
    (hp : r.value? = some p)
    (hexponent : exponent = .integer e ∨ exponent = .rational (.ofInt e)) :
    power r exponent =
      if p = 0 ∧ e < 0 then .error .divisionByZero
      else if Word.Fits (p ^ e).num ∧ Word.Fits (p ^ e).den then
        .ok (if (p ^ e).den = 1 then .integer (p ^ e).num
          else .rational ⟨(p ^ e).num, (p ^ e).den⟩)
      else .error .overflow := by
  have he : exponent.exactInteger? = some e := by
    rcases hexponent with rfl | rfl <;> rfl
  split
  · rename_i hundefined
    obtain ⟨rfl, hneg⟩ := hundefined
    exact power_zero hr.reduced hp he hneg
  · rename_i hdefined
    rw [power_eq hr hp he fun h => not_lt.mp fun hneg => hdefined ⟨h, hneg⟩, ofRat]
    simp only [collapse, Fraction.IsWhole, Nat.cast_eq_one]

/-- A power that is the least word, a negative base that is turned over, a denominator one above the
greatest word, and zero. -/
theorem power_complete_least :
    power (.integer (-8)) (.rational (.ofInt 21)) = .ok (.integer Word.least) ∧
      power (.rational ⟨-2, 3⟩) (.integer (-3)) = .ok (.rational ⟨-27, 8⟩) ∧
      power (.rational ⟨-1, 2⟩) (.integer 63) = .error .overflow ∧
      power (.integer 0) (.integer Word.least) = .error .divisionByZero := by
  have hbase : Number.WellFormed (.integer (-8)) := by
    change Word.Fits (-8)
    decide
  have hthirds : Number.WellFormed (.rational ⟨-2, 3⟩) := by
    change Fraction.WellFormed _
    decide
  have hhalf : Number.WellFormed (.rational ⟨-1, 2⟩) := by
    change Fraction.WellFormed _
    decide
  have hzero : Number.WellFormed (.integer 0) := by
    change Word.Fits 0
    decide
  refine ⟨(power_complete hbase rfl (.inr rfl)).trans ?_,
    (power_complete hthirds rfl (.inl rfl)).trans ?_,
    (power_complete hhalf rfl (.inl rfl)).trans ?_, (power_complete hzero rfl (.inl rfl)).trans ?_⟩
  · decide
  · decide +kernel
  · decide +kernel
  · exact if_pos (by decide)

end Number

end LineCalc
