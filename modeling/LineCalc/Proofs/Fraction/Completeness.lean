import LineCalc.Proofs.Fraction.Arithmetic
import Mathlib.Algebra.Order.Field.Rat
import Mathlib.RingTheory.Coprime.Lemmas

/-!
# Sums, products and quotients that there are

Of well-formed fractions, sums and products trap nowhere. What is cancelled before a multiplication need
not be cancelled after it: the parts that are checked are those of the result in lowest terms. So a product
is refused only if a part of the result is no word. A quotient by a fraction below zero has its sign in the
lower part until the end, and of the results that are words it is refused just if the upper part is the
least word, which has no opposite.

Division traps in one case. The divisor of the numerators is no word if they are zero and the least word.
-/

namespace LineCalc.Fraction

variable {a b q : Fraction}

/-- Of two pairs with nothing to cancel, each upper part is cancelled against the lower part of the
other pair. Then nothing is left to cancel between the products. -/
theorem gcd_cancelled {m u n v : Int} (hm : Int.gcd m u = 1) (hn : Int.gcd n v = 1) (hu : u ≠ 0)
    (hv : v ≠ 0) :
    Int.gcd (m / Int.gcd m v * (n / Int.gcd n u)) (u / Int.gcd n u * (v / Int.gcd m v)) = 1 := by
  have hmv : IsCoprime (m / Int.gcd m v) (v / Int.gcd m v) :=
    Int.isCoprime_iff_gcd_eq_one.mpr (Int.gcd_div_gcd_div_gcd (Int.gcd_pos_of_ne_zero_right m hv))
  have hnu : IsCoprime (n / Int.gcd n u) (u / Int.gcd n u) :=
    Int.isCoprime_iff_gcd_eq_one.mpr (Int.gcd_div_gcd_div_gcd (Int.gcd_pos_of_ne_zero_right n hu))
  have hmu : IsCoprime (m / Int.gcd m v) (u / Int.gcd n u) :=
    ((Int.isCoprime_iff_gcd_eq_one.mpr hm).of_isCoprime_of_dvd_left
      (Int.ediv_dvd_of_dvd (Int.gcd_dvd_left m v))).of_isCoprime_of_dvd_right
      (Int.ediv_dvd_of_dvd (Int.gcd_dvd_right n u))
  have hnv : IsCoprime (n / Int.gcd n u) (v / Int.gcd m v) :=
    ((Int.isCoprime_iff_gcd_eq_one.mpr hn).of_isCoprime_of_dvd_left
      (Int.ediv_dvd_of_dvd (Int.gcd_dvd_left n u))).of_isCoprime_of_dvd_right
      (Int.ediv_dvd_of_dvd (Int.gcd_dvd_right m v))
  exact Int.isCoprime_iff_gcd_eq_one.mp ((hmu.mul_right hmv).mul_left (hnu.mul_right hnv))

/-- A value in lowest terms is what bringing it to lowest terms leaves. -/
theorem Reduced.lowest_eq (h : q.Reduced) {n d : Int} (hd : d ≠ 0) (hv : q.value = n / d) :
    lowest n d = q :=
  (lowest_reduced hd).eq_of_value h ((lowest_value hd).trans hv.symm)

theorem Reduced.reduce_eq {guard : Word.Guard} (h : q.Reduced) {n d : Int} (hn : Word.Fits n)
    (hd : Word.Fits d) (hne : d ≠ 0) (hv : q.value = n / d) :
    reduce guard n d = if q.WellFormed then .ok q else guard.refuse := by
  rw [Fraction.reduce_eq hn hd hne, h.lowest_eq hne hv]

/-! ## Sums and differences -/

/-- Of well-formed fractions a sum is refused only where a number that is checked is no word. -/
theorem combine_eq {op : Int → Int → Int} (ha : a.WellFormed) (hb : b.WellFormed) :
    combine op a b = (do
      let d ← Word.checked (commonDenominator a b)
      let l ← Word.checked (numeratorOver d a)
      let r ← Word.checked (numeratorOver d b)
      let n ← Word.checked (op l r)
      return lowest n d) := by
  have hapos := ha.reduced.1
  have hbpos := hb.reduced.1
  have hg : Word.divisor a.denominator b.denominator = .ok (denominatorDivisor a b) :=
    Word.divisor_of_fits (Word.fits_gcd_of_pos hb.2.1 hbpos)
  have hcommon : a.denominator / denominatorDivisor a b * b.denominator = commonDenominator a b := rfl
  rw [combine, hg, Result.ok_bind,
    Word.quotient_of_dvd ha.2.1 (denominatorDivisor_pos hbpos) denominatorDivisor_dvd.1, Result.ok_bind,
    hcommon]
  refine Word.checked_bind_congr fun hd => ?_
  rw [Word.quotient_of_dvd hd hapos left_dvd_commonDenominator, Result.ok_bind]
  refine Word.checked_bind_congr fun _ => ?_
  rw [Word.quotient_of_dvd hd hbpos right_dvd_commonDenominator, Result.ok_bind]
  refine Word.checked_bind_congr fun _ => Word.checked_bind_congr fun hn => ?_
  exact reduce_of_pos hn hd (commonDenominator_pos hapos hbpos)

theorem combine_settled {op : Int → Int → Int} (ha : a.WellFormed) (hb : b.WellFormed) :
    Word.Settled (combine op a b) := by
  rw [combine_eq ha hb]
  exact .bind (.checked _) fun _ _ => .bind (.checked _) fun _ _ => .bind (.checked _) fun _ _ =>
    .bind (.checked _) fun _ _ => .ok _

/-! ## Products -/

theorem cancelledProduct_reduced (ha : a.Reduced) (hb : b.Reduced) : (cancelledProduct a b).Reduced :=
  ⟨cancelledProduct_pos ha.1 hb.1, gcd_cancelled ha.2 hb.2 ha.1.ne' hb.1.ne'⟩

/-- A product is refused only if a part of it is no word. -/
theorem mul_eq (ha : a.WellFormed) (hb : b.WellFormed) (hq : q.Reduced)
    (hv : q.value = a.value * b.value) :
    a.mul b = if q.WellFormed then .ok q else .error .overflow := by
  have hapos := ha.reduced.1
  have hbpos := hb.reduced.1
  obtain rfl : cancelledProduct a b = q :=
    (cancelledProduct_reduced ha.reduced hb.reduced).eq_of_value hq
      ((cancelledProduct_value hapos hbpos).trans hv.symm)
  have hg : Word.divisor a.numerator b.denominator = .ok (crossDivisor a b) :=
    Word.divisor_of_fits (Word.fits_gcd_of_pos hb.2.1 hbpos)
  have hh : Word.divisor b.numerator a.denominator = .ok (crossDivisor b a) :=
    Word.divisor_of_fits (Word.fits_gcd_of_pos ha.2.1 hapos)
  have hgpos := crossDivisor_pos (a := a) hbpos
  have hhpos := crossDivisor_pos (a := b) hapos
  simp only [mul, Word.divisor_comm a.denominator, hg, hh, Result.ok_bind,
    Word.quotient_of_dvd ha.1 hgpos crossDivisor_dvd.1,
    Word.quotient_of_dvd hb.1 hhpos crossDivisor_dvd.1,
    Word.quotient_of_dvd ha.2.1 hhpos crossDivisor_dvd.2,
    Word.quotient_of_dvd hb.2.1 hgpos crossDivisor_dvd.2]
  refine (Word.word_both (reduce .unchecked) _ _).trans ?_
  rw [if_congr hq.wellFormed_iff rfl rfl]
  refine ite_congr rfl (fun hfits => ?_) fun _ => rfl
  exact (reduce_of_pos hfits.1 hfits.2 hq.1).trans (congrArg _ (lowest_of_reduced hq))

theorem mul_settled (ha : a.WellFormed) (hb : b.WellFormed) : Word.Settled (a.mul b) := by
  rw [mul_eq ha hb (cancelledProduct_reduced ha.reduced hb.reduced)
    (cancelledProduct_value ha.reduced.1 hb.reduced.1)]
  exact .ite _

/-! ## Quotients -/

theorem cancelledQuotient_gcd (ha : a.Reduced) (hb : b.Reduced) (hne : b.numerator ≠ 0) :
    Int.gcd (cancelledQuotient a b).numerator (cancelledQuotient a b).denominator = 1 := by
  -- The quotient is the product with the divisor upside down.
  have hcancelled := gcd_cancelled ha.2 ((Int.gcd_comm _ _).trans hb.2) ha.1.ne' hne
  rwa [Int.gcd_comm b.denominator] at hcancelled

/-- The lower part has the sign of the divisor. -/
theorem cancelledQuotient_denominator_neg_iff (ha : 0 < a.denominator) (hb : 0 < b.denominator)
    (hne : b.numerator ≠ 0) : (cancelledQuotient a b).denominator < 0 ↔ b.numerator < 0 := by
  have hleft : 0 < a.denominator / denominatorDivisor a b :=
    Int.ediv_pos_of_pos_of_dvd ha (denominatorDivisor_pos hb).le denominatorDivisor_dvd.1
  have hright : b.numerator / numeratorDivisor a b < 0 ↔ b.numerator < 0 := by
    rw [Int.ediv_lt_iff_lt_mul (numeratorDivisor_pos hne), Int.zero_mul]
  rw [← hright, cancelledQuotient, Int.mul_neg_iff]
  omega

/-- The quotient in lowest terms, with the sign moved. -/
theorem eq_cancelledQuotient (ha : a.Reduced) (hb : b.Reduced) (hne : b.numerator ≠ 0)
    (hq : q.Reduced) (hv : q.value = a.value / b.value) :
    q = if b.numerator < 0 then
        ⟨-(cancelledQuotient a b).numerator, -(cancelledQuotient a b).denominator⟩
      else cancelledQuotient a b := by
  obtain ⟨hd, hvalue⟩ := cancelledQuotient_value ha.1 hb.1 hne
  rw [← hq.lowest_eq hd (hv.trans hvalue.symm), lowest, cancelledQuotient_gcd ha hb hne]
  simp only [cancelledQuotient_denominator_neg_iff ha.1 hb.1 hne, Nat.cast_one, Int.ediv_one]

/-- Zero is divided by a fraction that has the least word above. The divisor of the two numerators is then
one above the greatest word, and nothing checks it. -/
def ZeroByLeast (a b : Fraction) : Prop :=
  a.numerator = 0 ∧ b.numerator = Word.least ∧ b.denominator ≠ 1

instance (a b : Fraction) : Decidable (ZeroByLeast a b) := inferInstanceAs (Decidable (_ ∧ _))

/-- Zero is a whole number. -/
theorem denominator_eq_one (ha : a.Reduced) (hzero : a.numerator = 0) : a.denominator = 1 := by
  have hgcd := ha.2
  rw [hzero, Int.gcd_zero_left] at hgcd
  have := ha.1
  omega

theorem ZeroByLeast.denominator_ne (h : ZeroByLeast a b) (ha : a.Reduced) :
    a.denominator ≠ b.denominator := fun hden => h.2.2 (hden ▸ denominator_eq_one ha h.1)

theorem ZeroByLeast.numerator_ne (h : ZeroByLeast a b) : a.numerator ≠ b.numerator := by
  rw [h.1, h.2.1]
  decide

theorem div_trap (ha : a.WellFormed) (h : ZeroByLeast a b) : a.div b = .trap := by
  have htrap : Word.divisor a.numerator b.numerator = .trap := by
    rw [h.1, h.2.1]
    rfl
  rw [div, quotientParts, if_neg (h.denominator_ne ha.reduced), if_neg h.numerator_ne, htrap]
  rfl

/-- The divisor of the numerators is a word in all other cases. -/
theorem fits_numeratorDivisor (ha : a.WellFormed) (hb : b.WellFormed) (hne : b.numerator ≠ 0)
    (hden : a.denominator ≠ b.denominator) (hnum : a.numerator ≠ b.numerator)
    (h : ¬ ZeroByLeast a b) : Word.Fits (numeratorDivisor a b) := by
  by_cases hzero : a.numerator = 0
  · refine Word.fits_gcd_right hb.1 hne fun hleast => h ⟨hzero, hleast, fun hone => hden ?_⟩
    exact (denominator_eq_one ha.reduced hzero).trans hone.symm
  · exact Word.fits_gcd_of_ne ha.1 hb.1 hzero hne hnum

theorem quotientParts_of_ne (ha : a.WellFormed) (hb : b.WellFormed) (hne : b.numerator ≠ 0)
    (hden : a.denominator ≠ b.denominator) (hnum : a.numerator ≠ b.numerator)
    (h : ¬ ZeroByLeast a b) :
    quotientParts a b =
      if Word.Fits (cancelledQuotient a b).numerator ∧
        Word.Fits (cancelledQuotient a b).denominator then
        .ok ((cancelledQuotient a b).numerator, (cancelledQuotient a b).denominator)
      else .error .overflow := by
  have hbpos := hb.reduced.1
  have hg : Word.divisor a.numerator b.numerator = .ok (numeratorDivisor a b) :=
    Word.divisor_of_fits (fits_numeratorDivisor ha hb hne hden hnum h)
  have hh : Word.divisor a.denominator b.denominator = .ok (denominatorDivisor a b) :=
    Word.divisor_of_fits (Word.fits_gcd_of_pos hb.2.1 hbpos)
  have hgpos := numeratorDivisor_pos (a := a) hne
  have hhpos := denominatorDivisor_pos (a := a) hbpos
  simp only [quotientParts, if_neg hden, if_neg hnum, hg, hh, Result.ok_bind,
    Word.quotient_of_dvd ha.1 hgpos numeratorDivisor_dvd.1,
    Word.quotient_of_dvd hb.2.1 hhpos denominatorDivisor_dvd.2,
    Word.quotient_of_dvd ha.2.1 hhpos denominatorDivisor_dvd.1,
    Word.quotient_of_dvd hb.1 hgpos numeratorDivisor_dvd.2]
  exact Word.word_both (fun n d => .ok (n, d)) _ _

theorem div_of_parts {n d : Int} (hd : d ≠ 0) (h : quotientParts a b = .ok (n, d)) :
    a.div b = reduce .checked n d := by
  rw [div, h]
  exact if_neg hd

/-- Both parts are checked with the sign below, and again with the sign above. -/
theorem div_of_ne (ha : a.WellFormed) (hb : b.WellFormed) (hne : b.numerator ≠ 0) (hq : q.Reduced)
    (hv : q.value = a.value / b.value) (hden : a.denominator ≠ b.denominator)
    (hnum : a.numerator ≠ b.numerator) (h : ¬ ZeroByLeast a b) :
    a.div b =
      if (Word.Fits (cancelledQuotient a b).numerator ∧
        Word.Fits (cancelledQuotient a b).denominator) ∧ q.WellFormed
      then .ok q else .error .overflow := by
  obtain ⟨hd, hvalue⟩ := cancelledQuotient_value ha.reduced.1 hb.reduced.1 hne
  have hsplit := quotientParts_of_ne ha hb hne hden hnum h
  by_cases hparts : Word.Fits (cancelledQuotient a b).numerator ∧
      Word.Fits (cancelledQuotient a b).denominator
  · rw [if_pos hparts] at hsplit
    rw [div_of_parts hd hsplit, hq.reduce_eq hparts.1 hparts.2 hd (hv.trans hvalue.symm)]
    exact if_congr (iff_and_self.mpr fun _ => hparts) rfl rfl
  · rw [div, hsplit, if_neg hparts, if_neg (mt And.left hparts)]
    rfl

/-- A quotient is refused if a part of it is no word, and the least word above is refused too if its
sign came from below. -/
theorem div_eq (ha : a.WellFormed) (hb : b.WellFormed) (hne : b.numerator ≠ 0) (hq : q.Reduced)
    (hv : q.value = a.value / b.value) (h : ¬ ZeroByLeast a b) :
    a.div b =
      if q.WellFormed ∧ ¬ (q.numerator = Word.least ∧ b.numerator < 0 ∧
        a.denominator ≠ b.denominator)
      then .ok q else .error .overflow := by
  have hb0 : (b.denominator : ℚ) ≠ 0 := Int.cast_ne_zero.mpr hb.reduced.1.ne'
  have hn0 : (b.numerator : ℚ) ≠ 0 := Int.cast_ne_zero.mpr hne
  by_cases hden : a.denominator = b.denominator
  · have hparts : quotientParts a b = .ok (a.numerator, b.numerator) := if_pos hden
    have hcancel : a.value / b.value = a.numerator / b.numerator := by
      rw [value, value, hden, div_div_div_cancel_right₀ hb0]
    rw [div_of_parts hne hparts, hq.reduce_eq ha.1 hb.1 hne (hv.trans hcancel)]
    exact if_congr (iff_self_and.mpr fun _ h => h.2.2 hden) rfl rfl
  by_cases hnum : a.numerator = b.numerator
  · have hparts : quotientParts a b = .ok (b.denominator, a.denominator) := by
      rw [quotientParts, if_neg hden, if_pos hnum]
    have hcancel : a.value / b.value = b.denominator / a.denominator := by
      rw [value, value, hnum, div_div_div_cancel_left' _ _ hn0]
    have hpos : 0 < q.numerator := by
      have hvalue : 0 < (b.denominator : ℚ) / a.denominator :=
        div_pos (Int.cast_pos.mpr hb.reduced.1) (Int.cast_pos.mpr ha.reduced.1)
      rw [← hcancel, ← hv] at hvalue
      rw [← hq.num_value]
      exact Rat.num_pos.mpr hvalue
    have hapos := ha.reduced.1.ne'
    rw [div_of_parts hapos hparts, hq.reduce_eq hb.2.1 ha.2.1 hapos (hv.trans hcancel)]
    exact if_congr (iff_self_and.mpr fun _ h => Word.ne_least_of_pos hpos h.1) rfl rfl
  · rw [div_of_ne ha hb hne hq hv hden hnum h]
    refine if_congr ?_ rfl rfl
    have hsign := eq_cancelledQuotient ha.reduced hb.reduced hne hq hv
    rw [hq.wellFormed_iff]
    by_cases hneg : b.numerator < 0
    · rw [if_pos hneg] at hsign
      have hn : q.numerator = -(cancelledQuotient a b).numerator := congrArg numerator hsign
      have hd : q.denominator = -(cancelledQuotient a b).denominator := congrArg denominator hsign
      have hpos := hq.1
      simp only [Word.Fits, Word.least, Word.greatest]
      omega
    · rw [if_neg hneg] at hsign
      rw [← hsign]
      exact ⟨fun h => ⟨h.1, fun hleast => hneg hleast.2.1⟩, fun h => ⟨h.1, h.1⟩⟩

theorem div_settled (ha : a.WellFormed) (hb : b.WellFormed) (hne : b.numerator ≠ 0)
    (h : ¬ ZeroByLeast a b) : Word.Settled (a.div b) := by
  obtain ⟨hd, hv⟩ := cancelledQuotient_value ha.reduced.1 hb.reduced.1 hne
  rw [div_eq ha hb hne (lowest_reduced hd) ((lowest_value hd).trans hv) h]
  exact .ite _

end LineCalc.Fraction
