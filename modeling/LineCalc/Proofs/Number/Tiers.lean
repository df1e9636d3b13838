import LineCalc.Proofs.Fraction.Completeness
import LineCalc.Proofs.Number.WellFormed

/-!
# Whole numbers among the fractions

A whole number `n` is the fraction `n / 1`, and the two rules for an operator agree on it: sums,
differences and products, and quotients that leave no remainder, are whole again, and other quotients
are brought to lowest terms. They part where a quotient that is not whole has the least word as a
part. Whole numbers refuse it, whereas fractions refuse it only if its lowest terms are no words.
-/

namespace LineCalc

namespace Fraction

theorem lowest_one (n : Int) : lowest n 1 = ofInt n := by
  rw [lowest_of_dvd one_ne_zero (one_dvd n), Int.ediv_one]

theorem lowest_isWhole_iff {n d : Int} (hd : d ≠ 0) : (lowest n d).IsWhole ↔ d ∣ n := by
  constructor
  · intro hwhole
    have hd' : (d : ℚ) ≠ 0 := Int.cast_ne_zero.mpr hd
    have hvalue := lowest_value (n := n) hd
    rw [value, show (lowest n d).denominator = 1 from hwhole, Int.cast_one, div_one,
      eq_div_iff hd'] at hvalue
    exact ⟨(lowest n d).numerator, by rw [Int.mul_comm]; exact_mod_cast hvalue.symm⟩
  · intro hdvd
    rw [lowest_of_dvd hd hdvd]
    rfl

/-! ## Operations on whole fractions -/

section Whole

variable {a b : Int}

theorem combine_ofInt (op : Int → Int → Int) (ha : Word.Fits a) (hb : Word.Fits b) :
    combine op (ofInt a) (ofInt b) = (Word.checked (op a b)).map ofInt := by
  have hdenominator : commonDenominator (ofInt a) (ofInt b) = 1 := by
    simp [commonDenominator, denominatorDivisor, ofInt]
  have hnumerator : ∀ n, numeratorOver 1 (ofInt n) = n := fun n => by simp [numeratorOver, ofInt]
  rw [combine_eq (ofInt_wellFormed ha) (ofInt_wellFormed hb), hdenominator]
  simp only [Word.checked_one, Result.ok_bind, hnumerator, Word.checked_of_fits ha,
    Word.checked_of_fits hb, lowest_one]
  cases Word.checked (op a b) <;> rfl

theorem map_ofInt_checked (n : Int) :
    (Word.checked n).map ofInt = if (ofInt n).WellFormed then .ok (ofInt n) else .error .overflow := by
  rw [if_congr ofInt_wellFormed_iff rfl rfl]
  by_cases h : Word.Fits n
  · rw [Word.checked_of_fits h, if_pos h]
    rfl
  · rw [Word.checked_of_not_fits h, if_neg h]
    rfl

theorem mul_ofInt (ha : Word.Fits a) (hb : Word.Fits b) :
    mul (ofInt a) (ofInt b) = (Word.checked (a * b)).map ofInt := by
  rw [mul_eq (ofInt_wellFormed ha) (ofInt_wellFormed hb) (ofInt_reduced (a * b)) (by simp),
    map_ofInt_checked]

theorem div_ofInt (hb : b ≠ 0) : div (ofInt a) (ofInt b) = reduce .checked a b :=
  div_of_parts hb rfl

theorem reduce_of_dvd (ha : Word.Fits a) (hb : Word.Fits b) (hne : b ≠ 0) (hdvd : b ∣ a) :
    reduce .checked a b = (Word.checked (a / b)).map ofInt := by
  rw [reduce_eq ha hb hne, lowest_of_dvd hne hdvd, map_ofInt_checked]
  rfl

end Whole

end Fraction

namespace Number

variable {a b : Int}

theorem collapse_ofInt (n : Int) : collapse (.ofInt n) = .integer n := if_pos rfl

theorem collapse_lowest (hb : b ≠ 0) (hdvd : ¬ b ∣ a) :
    collapse (.lowest a b) = .rational (.lowest a b) :=
  if_neg fun hwhole => hdvd ((Fraction.lowest_isWhole_iff hb).mp hwhole)

/-- A result that is whole as a fraction is the same result as a whole number. -/
theorem map_ofInt_bind (n : Int) :
    ((Word.checked n).map Fraction.ofInt >>= ofFraction) = (Word.checked n).map .integer := by
  by_cases h : Word.Fits n
  · rw [Word.checked_of_fits h]
    exact (ofFraction_eq (q := .ofInt n) h).trans (congrArg Result.ok (collapse_ofInt n))
  · rw [Word.checked_of_not_fits h]
    rfl

/-- A quotient that is not whole and has the least word as a part. -/
def LeastQuotient (a b : Int) : Prop := b ≠ 0 ∧ ¬ b ∣ a ∧ (a = Word.least ∨ b = Word.least)

instance (a b : Int) : Decidable (LeastQuotient a b) := inferInstanceAs (Decidable (_ ∧ _))

/-! ## Quotients -/

theorem rationalOp_div_of_ne_zero (hb : b ≠ 0) :
    rationalOp .div (.ofInt a) (.ofInt b) = Fraction.reduce .checked a b >>= ofFraction := by
  rw [rationalOp, if_neg (show (Fraction.ofInt b).numerator ≠ 0 from hb), Fraction.div_ofInt hb]

theorem integerOp_div_of_dvd (ha : Word.Fits a) (hb : Word.Fits b) (hne : b ≠ 0) (hdvd : b ∣ a) :
    integerOp .div a b = rationalOp .div (.ofInt a) (.ofInt b) := by
  rw [rationalOp_div_of_ne_zero hne, Fraction.reduce_of_dvd ha hb hne hdvd, map_ofInt_bind,
    integerOp, if_neg hne, if_pos (Int.tmod_eq_zero_of_dvd hdvd), Int.tdiv_eq_ediv_of_dvd hdvd]

theorem integerOp_div_of_not_dvd (hb : b ≠ 0) (hdvd : ¬ b ∣ a) :
    integerOp .div a b = ratio a b := by
  rw [integerOp, if_neg hb, if_neg fun hrem => hdvd (Int.dvd_of_tmod_eq_zero hrem)]

theorem integerOp_div_least (h : LeastQuotient a b) : integerOp .div a b = .error .overflow := by
  obtain ⟨hb, hdvd, hleast⟩ := h
  rw [integerOp_div_of_not_dvd hb hdvd, ratio, if_neg hb, if_pos hleast]

theorem rationalOp_div_of_not_dvd (ha : Word.Fits a) (hb : Word.Fits b) (hne : b ≠ 0)
    (hdvd : ¬ b ∣ a) :
    rationalOp .div (.ofInt a) (.ofInt b) =
      if (Fraction.lowest a b).WellFormed then .ok (.rational (.lowest a b))
      else .error .overflow := by
  rw [rationalOp_div_of_ne_zero hne, Fraction.reduce_eq ha hb hne]
  split
  · rename_i hwf
    exact (ofFraction_eq hwf.1).trans (congrArg Result.ok (collapse_lowest hne hdvd))
  · rfl

theorem ratio_eq (ha : Word.Fits a) (hb : Word.Fits b) (hne : b ≠ 0)
    (hleast : ¬ (a = Word.least ∨ b = Word.least)) :
    ratio a b = .ok (.rational (.lowest a b)) := by
  obtain ⟨haleast, hbleast⟩ := not_or.mp hleast
  have hwf := Fraction.lowest_wellFormed_of_ne_least ha hb haleast hbleast hne
  rw [ratio, if_neg hne, if_neg hleast, Fraction.reduce_of_wellFormed ha hb hne hwf]
  rfl

theorem integerOp_div_eq_rationalOp (ha : Word.Fits a) (hb : Word.Fits b)
    (h : ¬ LeastQuotient a b) :
    integerOp .div a b = rationalOp .div (.ofInt a) (.ofInt b) := by
  by_cases hzero : b = 0
  · subst hzero
    rfl
  by_cases hdvd : b ∣ a
  · exact integerOp_div_of_dvd ha hb hzero hdvd
  -- Neither part is the least word, so that lowest terms are words whichever signs move.
  · have hparts : ¬ (a = Word.least ∨ b = Word.least) := fun hleast => h ⟨hzero, hdvd, hleast⟩
    obtain ⟨haleast, hbleast⟩ := not_or.mp hparts
    have hwf := Fraction.lowest_wellFormed_of_ne_least ha hb haleast hbleast hzero
    rw [integerOp_div_of_not_dvd hzero hdvd, ratio_eq ha hb hzero hparts,
      rationalOp_div_of_not_dvd ha hb hzero hdvd, if_pos hwf]

/-! ## The two tiers -/

theorem integerOp_eq_rationalOp {op : Operator} (hop : op ≠ .pow) (ha : Word.Fits a)
    (hb : Word.Fits b) (h : ¬ (op = .div ∧ LeastQuotient a b)) :
    integerOp op a b = rationalOp op (.ofInt a) (.ofInt b) := by
  cases op with
  | add => rw [rationalOp, Fraction.add, Fraction.combine_ofInt _ ha hb, map_ofInt_bind, integerOp]
  | sub => rw [rationalOp, Fraction.sub, Fraction.combine_ofInt _ ha hb, map_ofInt_bind, integerOp]
  | mul => rw [rationalOp, Fraction.mul_ofInt ha hb, map_ofInt_bind, integerOp]
  | div => exact integerOp_div_eq_rationalOp ha hb fun hleast => h ⟨rfl, hleast⟩
  | pow => exact absurd rfl hop

theorem apply_ofInt {op : Operator} (hop : op ≠ .pow) (a b : Int) :
    apply op (.rational (.ofInt a)) (.integer b) = rationalOp op (.ofInt a) (.ofInt b) := by
  cases op with
  | pow => exact absurd rfl hop
  | _ => rfl

theorem apply_integers {op : Operator} (hop : op ≠ .pow) (a b : Int) :
    apply op (.integer a) (.integer b) = integerOp op a b := by
  cases op with
  | pow => exact absurd rfl hop
  | _ => rfl

/-- Whole numbers are worked with as the fractions that they are, except that they refuse a quotient
that is not whole and has the least word as a part, even where its lowest terms are words. -/
theorem apply_integers_eq_rational (op : Operator) (a b : Int) (hop : op ≠ .pow)
    (ha : Word.Fits a) (hb : Word.Fits b) :
    apply op (.rational (.ofInt a)) (.integer b) = rationalOp op (.ofInt a) (.ofInt b) ∧
    (¬ (op = .div ∧ LeastQuotient a b) →
      apply op (.integer a) (.integer b) = apply op (.rational (.ofInt a)) (.integer b)) ∧
    (op = .div → LeastQuotient a b →
      apply op (.integer a) (.integer b) = .error .overflow ∧
      apply op (.rational (.ofInt a)) (.integer b) =
        if (Fraction.lowest a b).WellFormed then .ok (.rational (.lowest a b))
        else .error .overflow) := by
  rw [apply_integers hop, apply_ofInt hop]
  refine ⟨rfl, integerOp_eq_rationalOp hop ha hb, ?_⟩
  rintro rfl hleast
  exact ⟨integerOp_div_least hleast, rationalOp_div_of_not_dvd ha hb hleast.1 hleast.2.1⟩

/-- The quotient by minus one of the least word is whole, and too large in either tier. The quotient
by six is not whole, and its lowest terms are words. -/
theorem apply_integers_eq_rational_least :
    Word.Fits Word.least ∧ Word.Fits (-1) ∧ Word.Fits 6 ∧ ¬ LeastQuotient Word.least (-1) ∧
      LeastQuotient Word.least 6 ∧
      apply .div (.integer Word.least) (.integer (-1)) =
        apply .div (.rational (.ofInt Word.least)) (.integer (-1)) ∧
      apply .div (.integer Word.least) (.integer (-1)) = .error .overflow ∧
      apply .div (.integer Word.least) (.integer 6) = .error .overflow ∧
      apply .div (.rational (.ofInt Word.least)) (.integer 6) =
        .ok (.rational ⟨-4611686018427387904, 3⟩) := by
  have hleast : Word.Fits Word.least := by decide
  have hwhole : ¬ LeastQuotient Word.least (-1) := by decide
  have huneven : LeastQuotient Word.least 6 := by decide
  obtain ⟨-, hsame, -⟩ :=
    apply_integers_eq_rational .div Word.least (-1) (by decide) hleast (by decide)
  obtain ⟨-, -, hdiffer⟩ :=
    apply_integers_eq_rational .div Word.least 6 (by decide) hleast (by decide)
  obtain ⟨hinteger, hrational⟩ := hdiffer rfl huneven
  have hlowest : Fraction.lowest Word.least 6 = ⟨-4611686018427387904, 3⟩ := by decide
  rw [hlowest, if_pos (by decide)] at hrational
  exact ⟨hleast, by decide, by decide, hwhole, huneven, hsame fun h => hwhole h.2, by decide,
    hinteger, hrational⟩

/-- A third of the least word is a fraction of words, and whole numbers refuse it. -/
theorem apply_integers_ne_rational :
    Word.Fits Word.least ∧ Word.Fits 3 ∧
      apply .div (.integer Word.least) (.integer 3) = .error .overflow ∧
      apply .div (.rational (.ofInt Word.least)) (.integer 3) = .ok (.rational ⟨Word.least, 3⟩) ∧
      ¬ ∀ (op : Operator) (a b : Int), op ≠ .pow → Word.Fits a → Word.Fits b →
        apply op (.integer a) (.integer b) = apply op (.rational (.ofInt a)) (.integer b) := by
  have hinteger : apply .div (.integer Word.least) (.integer 3) = .error .overflow := by
    decide
  have hrational : apply .div (.rational (.ofInt Word.least)) (.integer 3) =
      .ok (.rational ⟨Word.least, 3⟩) := by decide
  refine ⟨by decide, by decide, hinteger, hrational, fun h => ?_⟩
  have hsame := h .div Word.least 3 (by decide) (by decide) (by decide)
  rw [hinteger, hrational] at hsame
  cases hsame

end Number

end LineCalc
