import LineCalc.Fraction
import LineCalc.Proofs.Word
import Mathlib.Algebra.Field.Rat
import Mathlib.Data.Int.Cast.Field
import Mathlib.Data.Rat.Lemmas
import Mathlib.Tactic.FieldSimp
import Mathlib.Tactic.Ring

/-!
# Fractions in lowest terms

`lowest` keeps the value of a quotient and divides both parts by all that they share. The parts stay
words if they were words, as long as no sign has to move.

`reduce` yields just that, if it yields anything. Of two words, the lower of which is not zero, it always
does unless a sign that has to be moved cannot be.
-/

namespace LineCalc

namespace Fraction

/-- In lowest terms, with the sign in the numerator, whatever the size of the parts. -/
def Reduced (q : Fraction) : Prop := 0 < q.denominator ∧ Int.gcd q.numerator q.denominator = 1

theorem WellFormed.reduced {q : Fraction} (h : q.WellFormed) : q.Reduced := h.2.2

theorem Reduced.wellFormed {q : Fraction} (h : q.Reduced) (hn : Word.Fits q.numerator)
    (hd : Word.Fits q.denominator) : q.WellFormed := ⟨hn, hd, h⟩

theorem Reduced.wellFormed_iff {q : Fraction} (h : q.Reduced) :
    q.WellFormed ↔ Word.Fits q.numerator ∧ Word.Fits q.denominator :=
  ⟨fun hwf => ⟨hwf.1, hwf.2.1⟩, fun hparts => h.wellFormed hparts.1 hparts.2⟩

theorem ofInt_reduced (n : Int) : (ofInt n).Reduced := ⟨Int.one_pos, Int.gcd_one_right n⟩

@[simp] theorem ofInt_value (n : Int) : (ofInt n).value = n := by simp [value, ofInt]

theorem neg_numerator_reduced {q : Fraction} (h : q.Reduced) :
    Reduced ⟨-q.numerator, q.denominator⟩ := by
  simpa [Reduced] using h

theorem neg_numerator_value (q : Fraction) : value ⟨-q.numerator, q.denominator⟩ = -q.value := by
  simp [value, neg_div]

theorem value_eq_zero_iff {q : Fraction} (h : q.Reduced) : q.value = 0 ↔ q.numerator = 0 := by
  simp [value, h.1.ne']

theorem Reduced.num_value {q : Fraction} (h : q.Reduced) : q.value.num = q.numerator :=
  Rat.num_div_eq_of_coprime h.1 h.2

theorem Reduced.den_value {q : Fraction} (h : q.Reduced) : (q.value.den : Int) = q.denominator :=
  Rat.den_div_eq_of_coprime h.1 h.2

/-- In lowest terms a value is written in one way. -/
theorem Reduced.eq_of_value {p q : Fraction} (hp : p.Reduced) (hq : q.Reduced)
    (h : p.value = q.value) : p = q := by
  obtain ⟨hn, hd⟩ := Rat.div_int_inj hp.1 hq.1 hp.2 hq.2 h
  cases p
  cases q
  exact congrArg₂ Fraction.mk hn hd

/-! ## The reciprocal -/

/-- The parts change places, and the sign goes up. -/
def inverse (q : Fraction) : Fraction :=
  if q.numerator < 0 then ⟨-q.denominator, -q.numerator⟩ else ⟨q.denominator, q.numerator⟩

theorem Reduced.inverse {q : Fraction} (h : q.Reduced) (hne : q.numerator ≠ 0) :
    q.inverse.Reduced := by
  obtain ⟨-, hgcd⟩ := h
  unfold Fraction.inverse
  split <;> simp only [Reduced, Int.neg_gcd, Int.gcd_neg]
  · exact ⟨by omega, Int.gcd_comm _ _ ▸ hgcd⟩
  · exact ⟨by omega, Int.gcd_comm _ _ ▸ hgcd⟩

theorem inverse_value (q : Fraction) : q.inverse.value = q.value⁻¹ := by
  unfold inverse
  split <;> simp [value]

theorem inverse_wellFormed {q : Fraction} (h : q.WellFormed) (hzero : q.numerator ≠ 0)
    (hleast : q.numerator ≠ Word.least) : q.inverse.WellFormed := by
  refine (h.reduced.inverse hzero).wellFormed ?_ ?_
  · unfold inverse
    split
    · exact h.2.1.neg (Word.ne_least_of_pos h.reduced.1)
    · exact h.2.1
  · unfold inverse
    split
    · exact h.1.neg hleast
    · exact h.1

theorem reciprocal_eq_ok {q r : Fraction} (h : q.reciprocal = .ok r) :
    q.numerator ≠ 0 ∧ r = q.inverse := by
  unfold reciprocal at h
  unfold inverse
  split at h
  · cases h
  rename_i hzero
  refine ⟨hzero, ?_⟩
  split at h
  · obtain ⟨d, hd, n, hn, h⟩ := by simpa only [Result.bind_eq_ok_iff] using h
    obtain ⟨-, rfl⟩ := Word.unchecked_eq_ok_iff.mp hd
    obtain ⟨-, rfl⟩ := Word.unchecked_eq_ok_iff.mp hn
    cases h
    rw [if_pos ‹_›]
  · cases h
    rw [if_neg ‹_›]

theorem reciprocal_eq {q : Fraction} (h : q.WellFormed) (hzero : q.numerator ≠ 0)
    (hleast : q.numerator ≠ Word.least) : q.reciprocal = .ok q.inverse := by
  unfold reciprocal inverse
  rw [if_neg hzero]
  split
  · rw [Word.unchecked_of_fits (h.2.1.neg (Word.ne_least_of_pos h.reduced.1)),
      Word.unchecked_of_fits (h.1.neg hleast)]
    rfl
  · rfl

/-! ## Lowest terms -/

section Lowest

variable {n d : Int}

theorem gcd_pos (hd : d ≠ 0) : (0 : Int) < Int.gcd n d :=
  Int.natCast_pos.mpr (Int.gcd_pos_of_ne_zero_right n hd)

theorem lowest_value (hd : d ≠ 0) : (lowest n d).value = n / d := by
  have hg : ((Int.gcd n d : Int) : ℚ) ≠ 0 := Int.cast_ne_zero.mpr (gcd_pos hd).ne'
  have hn' := Int.cast_div (α := ℚ) (Int.gcd_dvd_left n d) hg
  have hd' := Int.cast_div (α := ℚ) (Int.gcd_dvd_right n d) hg
  simp only [lowest, value]
  split <;> simp only [Int.cast_neg, neg_div_neg_eq, hn', hd', div_div_div_cancel_right₀ hg]

theorem lowest_reduced (hd : d ≠ 0) : (lowest n d).Reduced := by
  have hg := gcd_pos (n := n) hd
  have hone : Int.gcd (n / Int.gcd n d) (d / Int.gcd n d) = 1 :=
    Int.gcd_div_gcd_div_gcd (Int.gcd_pos_of_ne_zero_right n hd)
  have hquot : d / Int.gcd n d ≠ 0 := fun h => hd (by
    rw [← Int.ediv_mul_cancel (Int.gcd_dvd_right n d), h, Int.zero_mul])
  simp only [lowest]
  split
  · refine ⟨?_, by simpa using hone⟩
    have : d / Int.gcd n d < 0 := Int.ediv_neg_of_neg_of_pos ‹_› hg
    show 0 < -(d / _)
    omega
  · refine ⟨?_, hone⟩
    have : 0 ≤ d / Int.gcd n d := Int.ediv_nonneg (by omega) hg.le
    show 0 < d / _
    omega

/-- Without a sign to move, dividing by the common divisor only makes the parts smaller. -/
theorem lowest_wellFormed (hn : Word.Fits n) (hd : Word.Fits d) (hpos : 0 < d) :
    (lowest n d).WellFormed := by
  have hg := gcd_pos (n := n) hpos.ne'
  have hsame : lowest n d = ⟨n / Int.gcd n d, d / Int.gcd n d⟩ := by
    simp only [lowest, if_neg (not_lt.mpr hpos.le)]
  refine (lowest_reduced hpos.ne').wellFormed ?_ ?_
  · rw [hsame]; exact hn.ediv hg
  · rw [hsame]; exact hd.ediv hg

theorem lowest_neg_neg (hd : d ≠ 0) : lowest (-n) (-d) = lowest n d := by
  have hn' := Int.neg_ediv_of_dvd (Int.gcd_dvd_left n d)
  have hd' := Int.neg_ediv_of_dvd (Int.gcd_dvd_right n d)
  simp only [lowest, Int.gcd_neg, Int.neg_gcd, hn', hd', neg_neg]
  rcases lt_or_gt_of_ne hd with h | h
  · rw [if_neg (by omega), if_pos h]
  · rw [if_pos (by omega), if_neg (by omega)]

theorem lowest_of_reduced {q : Fraction} (h : q.Reduced) : lowest q.numerator q.denominator = q :=
  (lowest_reduced h.1.ne').eq_of_value h (lowest_value h.1.ne')

theorem lowest_of_dvd (hd : d ≠ 0) (hdvd : d ∣ n) : lowest n d = ofInt (n / d) := by
  refine (lowest_reduced hd).eq_of_value (ofInt_reduced _) ?_
  rw [lowest_value hd, ofInt_value, Int.cast_div hdvd (Int.cast_ne_zero.mpr hd)]

/-- The sign can be read off the lower part after the division too. -/
theorem lowest_eq_ite (hd : d ≠ 0) :
    lowest n d =
      if d / Int.gcd n d < 0 then ⟨-(n / Int.gcd n d), -(d / Int.gcd n d)⟩
      else ⟨n / Int.gcd n d, d / Int.gcd n d⟩ := by
  have hneg : d / Int.gcd n d < 0 ↔ d < 0 := by
    rw [Int.ediv_lt_iff_lt_mul (gcd_pos hd), Int.zero_mul]
  simp only [lowest, hneg]

theorem lowest_zero (hd : d ≠ 0) : lowest 0 d = ⟨0, 1⟩ := by
  rw [lowest_of_dvd hd (Int.dvd_zero d), Int.zero_ediv]
  rfl

theorem lowest_self (hd : d ≠ 0) : lowest d d = ⟨1, 1⟩ := by
  rw [lowest_of_dvd hd (Int.dvd_refl d), Int.ediv_self hd]
  rfl

/-! ## Lowest terms by steps -/

/-- Nothing but the signs that are moved is refused after the division. -/
theorem reduce_of_ne {guard : Word.Guard} (hn : n ≠ 0) (hd : d ≠ 0) (hne : n ≠ d) :
    reduce guard n d = (do
      let g ← Word.divisor n d
      let n ← Word.quotient n g
      let d ← Word.quotient d g
      if d < 0 then return ⟨← Word.word guard (-n), ← Word.word guard (-d)⟩
      else return ⟨n, d⟩) := by
  rw [reduce, if_neg hd, if_neg hn, if_neg hne]

/-- What has been brought to lowest terms is so, and its parts are words. -/
theorem reduce_eq_ok {guard : Word.Guard} {q : Fraction} (h : reduce guard n d = .ok q) :
    d ≠ 0 ∧ q = lowest n d ∧ q.WellFormed := by
  have hd : d ≠ 0 := by
    rintro rfl
    cases h
  by_cases hzero : n = 0
  · rw [reduce, if_neg hd, if_pos hzero] at h
    cases h
    rw [hzero, lowest_zero hd]
    exact ⟨hd, rfl, by decide⟩
  by_cases hsame : n = d
  · rw [reduce, if_neg hd, if_neg hzero, if_pos hsame] at h
    cases h
    rw [hsame, lowest_self hd]
    exact ⟨hd, rfl, by decide⟩
  rw [reduce_of_ne hzero hd hsame] at h
  obtain ⟨g, hg, h⟩ := Result.bind_eq_ok_iff.mp h
  obtain ⟨-, rfl⟩ := Word.divisor_eq_ok_iff.mp hg
  obtain ⟨n', hn', h⟩ := Result.bind_eq_ok_iff.mp h
  obtain ⟨hnFits, rfl⟩ := Word.quotient_eq_ok_of_dvd (Int.gcd_dvd_left n d) hn'
  obtain ⟨d', hd', h⟩ := Result.bind_eq_ok_iff.mp h
  obtain ⟨hdFits, rfl⟩ := Word.quotient_eq_ok_of_dvd (Int.gcd_dvd_right n d) hd'
  have hred := lowest_reduced (n := n) hd
  have hsign := lowest_eq_ite (n := n) hd
  split at h
  · rename_i hneg
    rw [if_pos hneg] at hsign
    obtain ⟨n'', hupper, d'', hlower, h⟩ := by simpa only [Result.bind_eq_ok_iff] using h
    obtain ⟨hupperFits, rfl⟩ := Word.word_eq_ok_iff.mp hupper
    obtain ⟨hlowerFits, rfl⟩ := Word.word_eq_ok_iff.mp hlower
    cases h
    rw [hsign] at hred ⊢
    exact ⟨hd, rfl, hred.wellFormed hupperFits hlowerFits⟩
  · rename_i hpos
    rw [if_neg hpos] at hsign
    cases h
    rw [hsign] at hred ⊢
    exact ⟨hd, rfl, hred.wellFormed hnFits hdFits⟩

theorem reduce_spec {guard : Word.Guard} {q : Fraction} (h : reduce guard n d = .ok q) :
    q.WellFormed ∧ q.value = n / d := by
  obtain ⟨hd, rfl, hwf⟩ := reduce_eq_ok h
  exact ⟨hwf, lowest_value hd⟩

/-- Of words, lowest terms are refused only if they are no words after a sign was moved. -/
theorem reduce_eq {guard : Word.Guard} (hn : Word.Fits n) (hd : Word.Fits d) (hne : d ≠ 0) :
    reduce guard n d = if (lowest n d).WellFormed then .ok (lowest n d) else guard.refuse := by
  by_cases hzero : n = 0
  · rw [reduce, if_neg hne, if_pos hzero, hzero, lowest_zero hne]
    exact (if_pos (by decide)).symm
  by_cases hsame : n = d
  · rw [reduce, if_neg hne, if_neg hzero, if_pos hsame, hsame, lowest_self hne]
    exact (if_pos (by decide)).symm
  have hg : (0 : Int) < Int.gcd n d := gcd_pos hne
  rw [reduce_of_ne hzero hne hsame,
    Word.divisor_of_fits (Word.fits_gcd_of_ne hn hd hzero hne hsame), Result.ok_bind,
    Word.quotient_of_dvd hn hg (Int.gcd_dvd_left n d), Result.ok_bind,
    Word.quotient_of_dvd hd hg (Int.gcd_dvd_right n d), Result.ok_bind,
    if_congr (lowest_reduced hne).wellFormed_iff rfl rfl, lowest_eq_ite hne]
  split
  · exact Word.word_both (fun n d => .ok (Fraction.mk n d)) _ _
  · exact (if_pos ⟨hn.ediv hg, hd.ediv hg⟩).symm

theorem reduce_of_wellFormed {guard : Word.Guard} (hn : Word.Fits n) (hd : Word.Fits d) (hne : d ≠ 0)
    (h : (lowest n d).WellFormed) : reduce guard n d = .ok (lowest n d) := by
  rw [reduce_eq hn hd hne, if_pos h]

/-- Without a sign to move nothing is refused. -/
theorem reduce_of_pos {guard : Word.Guard} (hn : Word.Fits n) (hd : Word.Fits d) (hpos : 0 < d) :
    reduce guard n d = .ok (lowest n d) :=
  reduce_of_wellFormed hn hd hpos.ne' (lowest_wellFormed hn hd hpos)

end Lowest

end Fraction

end LineCalc
