import LineCalc.Proofs.Fraction.Lowest

/-!
# What the operations on fractions yield

An operation that yields a fraction yields a well-formed one, and its value is what the operation
stands for. The operands need positive denominators and nothing else: every number on the way to
the result is a word or there is no result, even if the parts of the operands are none.
-/

namespace LineCalc.Fraction

variable {a b c : Fraction}

/-! ## Common divisors -/

def numeratorDivisor (a b : Fraction) : Int := Int.gcd a.numerator b.numerator

def denominatorDivisor (a b : Fraction) : Int := Int.gcd a.denominator b.denominator

def crossDivisor (a b : Fraction) : Int := Int.gcd a.numerator b.denominator

theorem numeratorDivisor_dvd :
    numeratorDivisor a b ∣ a.numerator ∧ numeratorDivisor a b ∣ b.numerator :=
  ⟨Int.gcd_dvd_left _ _, Int.gcd_dvd_right _ _⟩

theorem denominatorDivisor_dvd :
    denominatorDivisor a b ∣ a.denominator ∧ denominatorDivisor a b ∣ b.denominator :=
  ⟨Int.gcd_dvd_left _ _, Int.gcd_dvd_right _ _⟩

theorem crossDivisor_dvd : crossDivisor a b ∣ a.numerator ∧ crossDivisor a b ∣ b.denominator :=
  ⟨Int.gcd_dvd_left _ _, Int.gcd_dvd_right _ _⟩

theorem numeratorDivisor_pos (hb : b.numerator ≠ 0) : 0 < numeratorDivisor a b := gcd_pos hb

theorem denominatorDivisor_pos (hb : 0 < b.denominator) : 0 < denominatorDivisor a b :=
  gcd_pos hb.ne'

theorem crossDivisor_pos (hb : 0 < b.denominator) : 0 < crossDivisor a b := gcd_pos hb.ne'

/-- A product of two quotients that leave no remainder. -/
theorem cancelled_value {m n g h : Int} (hg : g ∣ m) (hh : h ∣ n) (hg0 : 0 < g) (hh0 : 0 < h) :
    ((m / g * (n / h) : ℤ) : ℚ) = m / g * (n / h) := by
  rw [Int.cast_mul, Int.cast_div hg (Int.cast_ne_zero.mpr hg0.ne'),
    Int.cast_div hh (Int.cast_ne_zero.mpr hh0.ne')]

/-! ## Sums and differences -/

/-- The least common denominator. -/
def commonDenominator (a b : Fraction) : Int :=
  a.denominator / denominatorDivisor a b * b.denominator

/-- The numerator of a fraction over a multiple of its denominator. -/
def numeratorOver (denominator : Int) (q : Fraction) : Int :=
  denominator / q.denominator * q.numerator

theorem commonDenominator_pos (ha : 0 < a.denominator) (hb : 0 < b.denominator) :
    0 < commonDenominator a b :=
  Int.mul_pos (Int.ediv_pos_of_pos_of_dvd ha (denominatorDivisor_pos hb).le
    denominatorDivisor_dvd.1) hb

theorem left_dvd_commonDenominator : a.denominator ∣ commonDenominator a b := by
  obtain ⟨k, hk⟩ := (denominatorDivisor_dvd (a := a) (b := b)).2
  refine ⟨k, ?_⟩
  calc commonDenominator a b
      = a.denominator / denominatorDivisor a b * denominatorDivisor a b * k := by
        rw [Int.mul_assoc, ← hk, commonDenominator]
    _ = a.denominator * k := by rw [Int.ediv_mul_cancel denominatorDivisor_dvd.1]

theorem right_dvd_commonDenominator : b.denominator ∣ commonDenominator a b := Int.dvd_mul_left _ _

theorem numeratorOver_value {q : Fraction} {d : Int} (hq : 0 < q.denominator)
    (hdvd : q.denominator ∣ d) : (numeratorOver d q : ℚ) = d * q.value := by
  rw [numeratorOver, Int.cast_mul, Int.cast_div hdvd (Int.cast_ne_zero.mpr hq.ne'), value]
  ring

/-- What is made of the numerators over the common denominator is brought to lowest terms. -/
theorem combine_eq_ok {op : Int → Int → Int} (h : combine op a b = .ok c) :
    let d := commonDenominator a b
    c.WellFormed ∧ c.value = (op (numeratorOver d a) (numeratorOver d b) : ℤ) / d := by
  replace h := Word.of_divisor h
  replace h := Word.of_quotient denominatorDivisor_dvd.1 h
  replace h := Word.of_checked h
  replace h := Word.of_quotient left_dvd_commonDenominator h
  replace h := Word.of_checked h
  replace h := Word.of_quotient right_dvd_commonDenominator h
  replace h := Word.of_checked h
  replace h := Word.of_checked h
  exact reduce_spec h

theorem add_spec (ha : 0 < a.denominator) (hb : 0 < b.denominator) (h : a.add b = .ok c) :
    c.WellFormed ∧ c.value = a.value + b.value := by
  obtain ⟨hc, hv⟩ := combine_eq_ok h
  have hd : (commonDenominator a b : ℚ) ≠ 0 :=
    Int.cast_ne_zero.mpr (commonDenominator_pos ha hb).ne'
  refine ⟨hc, ?_⟩
  rw [hv, Int.cast_add, numeratorOver_value ha left_dvd_commonDenominator,
    numeratorOver_value hb right_dvd_commonDenominator, ← mul_add, mul_div_cancel_left₀ _ hd]

theorem sub_spec (ha : 0 < a.denominator) (hb : 0 < b.denominator) (h : a.sub b = .ok c) :
    c.WellFormed ∧ c.value = a.value - b.value := by
  obtain ⟨hc, hv⟩ := combine_eq_ok h
  have hd : (commonDenominator a b : ℚ) ≠ 0 :=
    Int.cast_ne_zero.mpr (commonDenominator_pos ha hb).ne'
  refine ⟨hc, ?_⟩
  rw [hv, Int.cast_sub, numeratorOver_value ha left_dvd_commonDenominator,
    numeratorOver_value hb right_dvd_commonDenominator, ← mul_sub, mul_div_cancel_left₀ _ hd]

/-! ## Products and quotients -/

/-- The product, with each numerator cancelled against the other denominator. -/
def cancelledProduct (a b : Fraction) : Fraction :=
  ⟨a.numerator / crossDivisor a b * (b.numerator / crossDivisor b a),
    a.denominator / crossDivisor b a * (b.denominator / crossDivisor a b)⟩

/-- The quotient, with numerators and denominators cancelled against each other. The sign is where
the divisor has it. -/
def cancelledQuotient (a b : Fraction) : Fraction :=
  ⟨a.numerator / numeratorDivisor a b * (b.denominator / denominatorDivisor a b),
    a.denominator / denominatorDivisor a b * (b.numerator / numeratorDivisor a b)⟩

theorem cancelledProduct_pos (ha : 0 < a.denominator) (hb : 0 < b.denominator) :
    0 < (cancelledProduct a b).denominator :=
  Int.mul_pos (Int.ediv_pos_of_pos_of_dvd ha (crossDivisor_pos ha).le crossDivisor_dvd.2)
    (Int.ediv_pos_of_pos_of_dvd hb (crossDivisor_pos hb).le crossDivisor_dvd.2)

theorem cancelledProduct_value (ha : 0 < a.denominator) (hb : 0 < b.denominator) :
    (cancelledProduct a b).value = a.value * b.value := by
  have hg := crossDivisor_pos (a := a) hb
  have hh := crossDivisor_pos (a := b) ha
  have hg0 : (crossDivisor a b : ℚ) ≠ 0 := Int.cast_ne_zero.mpr hg.ne'
  have hh0 : (crossDivisor b a : ℚ) ≠ 0 := Int.cast_ne_zero.mpr hh.ne'
  rw [value, cancelledProduct, cancelled_value crossDivisor_dvd.1 crossDivisor_dvd.1 hg hh,
    cancelled_value crossDivisor_dvd.2 crossDivisor_dvd.2 hh hg, value, value]
  field_simp

theorem cancelledQuotient_value (ha : 0 < a.denominator) (hb : 0 < b.denominator) (hne : b.numerator ≠ 0) :
    (cancelledQuotient a b).denominator ≠ 0 ∧ (cancelledQuotient a b).value = a.value / b.value := by
  have ha0 : (a.denominator : ℚ) ≠ 0 := Int.cast_ne_zero.mpr ha.ne'
  have hb0 : (b.denominator : ℚ) ≠ 0 := Int.cast_ne_zero.mpr hb.ne'
  have hn0 : (b.numerator : ℚ) ≠ 0 := Int.cast_ne_zero.mpr hne
  have hg := numeratorDivisor_pos (a := a) hne
  have hh := denominatorDivisor_pos (a := a) hb
  have hg0 : (numeratorDivisor a b : ℚ) ≠ 0 := Int.cast_ne_zero.mpr hg.ne'
  have hh0 : (denominatorDivisor a b : ℚ) ≠ 0 := Int.cast_ne_zero.mpr hh.ne'
  have hnum := cancelled_value numeratorDivisor_dvd.1 denominatorDivisor_dvd.2 hg hh
  have hden := cancelled_value denominatorDivisor_dvd.1 numeratorDivisor_dvd.2 hh hg
  refine ⟨Int.cast_ne_zero (α := ℚ).mp ?_, ?_⟩
  · rw [cancelledQuotient, hden]
    exact mul_ne_zero (div_ne_zero ha0 hh0) (div_ne_zero hn0 hg0)
  · rw [value, cancelledQuotient, hnum, hden, value, value]
    field_simp

theorem mul_spec (ha : 0 < a.denominator) (hb : 0 < b.denominator) (h : a.mul b = .ok c) :
    c.WellFormed ∧ c.value = a.value * b.value := by
  rw [mul, Word.divisor_comm a.denominator] at h
  replace h := Word.of_divisor h
  replace h := Word.of_divisor h
  replace h := Word.of_quotient crossDivisor_dvd.1 h
  replace h := Word.of_quotient crossDivisor_dvd.1 h
  replace h := Word.of_checked h
  replace h := Word.of_quotient crossDivisor_dvd.2 h
  replace h := Word.of_quotient crossDivisor_dvd.2 h
  replace h := Word.of_checked h
  obtain ⟨hc, hvalue⟩ := reduce_spec h
  exact ⟨hc, hvalue.trans (cancelledProduct_value ha hb)⟩

theorem quotientParts_value {n d : Int} (ha : 0 < a.denominator) (hb : 0 < b.denominator)
    (hne : b.numerator ≠ 0) (h : quotientParts a b = .ok (n, d)) :
    d ≠ 0 ∧ (n : ℚ) / d = a.value / b.value := by
  have hb0 : (b.denominator : ℚ) ≠ 0 := Int.cast_ne_zero.mpr hb.ne'
  have hn0 : (b.numerator : ℚ) ≠ 0 := Int.cast_ne_zero.mpr hne
  unfold quotientParts at h
  split at h
  · rename_i hden
    cases h
    exact ⟨hne, by rw [value, value, hden, div_div_div_cancel_right₀ hb0]⟩
  split at h
  · rename_i hnum
    cases h
    exact ⟨ha.ne', by rw [value, value, hnum, div_div_div_cancel_left' _ _ hn0]⟩
  replace h := Word.of_divisor h
  replace h := Word.of_divisor h
  replace h := Word.of_quotient numeratorDivisor_dvd.1 h
  replace h := Word.of_quotient denominatorDivisor_dvd.2 h
  replace h := Word.of_checked h
  replace h := Word.of_quotient denominatorDivisor_dvd.1 h
  replace h := Word.of_quotient numeratorDivisor_dvd.2 h
  replace h := Word.of_checked h
  cases h
  exact cancelledQuotient_value ha hb hne

theorem div_spec (ha : 0 < a.denominator) (hb : 0 < b.denominator) (hne : b.numerator ≠ 0)
    (h : a.div b = .ok c) : c.WellFormed ∧ c.value = a.value / b.value := by
  obtain ⟨⟨n, d⟩, hparts, h⟩ := Result.bind_eq_ok_iff.mp h
  obtain ⟨hd, hv⟩ := quotientParts_value ha hb hne hparts
  obtain ⟨hc, hvalue⟩ := reduce_spec ((if_neg hd).symm.trans h)
  exact ⟨hc, hvalue.trans hv⟩

end LineCalc.Fraction
