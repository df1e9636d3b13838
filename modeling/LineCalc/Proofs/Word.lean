import LineCalc.Word
import Mathlib.Algebra.Order.Ring.Int
import Mathlib.Tactic.Ring

/-!
# Words stay words

Quotients of words and most opposites are words, and so is the greatest common divisor of two words
unless one of them is zero and the other zero or the least word. So steps that nothing checks go through
where their operands allow it.
-/

namespace LineCalc.Word

variable {α : Type} {n d g : Int} {guard : Guard}

theorem Fits.ediv (hn : Fits n) (hg : 0 < g) : Fits (n / g) := by
  obtain ⟨hlow, hhigh⟩ := hn
  constructor
  · rw [Int.le_ediv_iff_mul_le hg]
    have : least * g ≤ least * 1 := Int.mul_le_mul_of_nonpos_left (by decide) (by omega)
    omega
  · have : n / g < greatest + 1 := by
      rw [Int.ediv_lt_iff_lt_mul hg]
      have : (greatest + 1) * 1 ≤ (greatest + 1) * g :=
        Int.mul_le_mul_of_nonneg_left (by omega) (by decide)
      omega
    omega

theorem Fits.neg (hn : Fits n) (hne : n ≠ least) : Fits (-n) := by
  simp only [Fits, least, greatest] at *
  omega

theorem ne_least_of_pos (hpos : 0 < n) : n ≠ least := by
  rintro rfl
  exact absurd hpos (by decide)

/-! ## Common divisors -/

/-- The divisor is at most the size of a number other than zero. -/
theorem fits_gcd_left (h : Fits n) (hzero : n ≠ 0) (hleast : n ≠ least) : Fits (Int.gcd n d) := by
  have hle := Int.gcd_le_natAbs_left d hzero
  simp only [Fits, least, greatest] at *
  omega

theorem fits_gcd_right (h : Fits d) (hzero : d ≠ 0) (hleast : d ≠ least) : Fits (Int.gcd n d) := by
  rw [Int.gcd_comm]
  exact fits_gcd_left h hzero hleast

theorem fits_gcd_of_pos (h : Fits d) (hpos : 0 < d) : Fits (Int.gcd n d) :=
  fits_gcd_right h hpos.ne' (ne_least_of_pos hpos)

theorem fits_gcd_of_ne (hn : Fits n) (hd : Fits d) (hzero : n ≠ 0) (hzero' : d ≠ 0) (hne : n ≠ d) :
    Fits (Int.gcd n d) := by
  by_cases hleast : n = least
  · exact fits_gcd_right hd hzero' fun h => hne (hleast.trans h.symm)
  · exact fits_gcd_left hn hzero hleast

/-! ## Steps that go through -/

theorem word_of_fits (h : Fits n) : word guard n = .ok n := if_pos h

theorem checked_of_fits (h : Fits n) : checked n = .ok n := word_of_fits h

theorem checked_of_not_fits (h : ¬ Fits n) : checked n = .error .overflow := if_neg h

theorem unchecked_of_fits (h : Fits n) : unchecked n = .ok n := word_of_fits h

theorem checked_one : checked 1 = .ok 1 := rfl

theorem divisor_of_fits (h : Fits (Int.gcd n d)) : divisor n d = .ok (Int.gcd n d : Int) :=
  unchecked_of_fits h

theorem quotient_of_dvd (hn : Fits n) (hg : 0 < g) (hdvd : g ∣ n) : quotient n g = .ok (n / g) := by
  rw [quotient, if_neg hg.ne', Int.tdiv_eq_ediv_of_dvd hdvd]
  exact unchecked_of_fits (hn.ediv hg)

/-- A quotient that has been formed and leaves no remainder. -/
theorem quotient_eq_ok_of_dvd {q : Int} (hdvd : g ∣ n) (h : quotient n g = .ok q) :
    Fits q ∧ q = n / g := by
  obtain ⟨-, hfits, rfl⟩ := quotient_eq_ok_iff.mp h
  exact ⟨hfits, Int.tdiv_eq_ediv_of_dvd hdvd⟩

theorem divisor_comm (n d : Int) : divisor n d = divisor d n := by
  rw [divisor, divisor, Int.gcd_comm]

/-! ## Steps that went through -/

section Steps

variable {f f' : Int → Result ArithmeticError α} {a : α}

theorem of_divisor (h : (divisor n d >>= f) = .ok a) : f (Int.gcd n d) = .ok a := by
  obtain ⟨g, hg, hf⟩ := Result.bind_eq_ok_iff.mp h
  obtain ⟨-, rfl⟩ := divisor_eq_ok_iff.mp hg
  exact hf

theorem of_quotient (hdvd : g ∣ n) (h : (quotient n g >>= f) = .ok a) : f (n / g) = .ok a := by
  obtain ⟨q, hq, hf⟩ := Result.bind_eq_ok_iff.mp h
  obtain ⟨-, rfl⟩ := quotient_eq_ok_of_dvd hdvd hq
  exact hf

theorem of_checked (h : (checked n >>= f) = .ok a) : f n = .ok a := by
  obtain ⟨m, hm, hf⟩ := Result.bind_eq_ok_iff.mp h
  obtain ⟨-, rfl⟩ := checked_eq_ok_iff.mp hm
  exact hf

/-- After a check the number is known to be a word. -/
theorem checked_bind_congr (h : Fits n → f n = f' n) : (checked n >>= f) = (checked n >>= f') := by
  by_cases hn : Fits n
  · rw [checked_of_fits hn, Result.ok_bind, Result.ok_bind, h hn]
  · rw [checked_of_not_fits hn, Result.error_bind, Result.error_bind]

end Steps

/-! ## Values and overflows -/

/-- There is a value, or a number that was checked is no word. -/
def Settled (x : Result ArithmeticError α) : Prop := (∃ a, x = .ok a) ∨ x = .error .overflow

namespace Settled

variable {β : Type} {x : Result ArithmeticError α} {f : α → Result ArithmeticError β}

theorem ok (a : α) : Settled (.ok a) := .inl ⟨a, rfl⟩

theorem overflow : Settled (.error .overflow : Result ArithmeticError α) := .inr rfl

theorem ite {p : Prop} [Decidable p] (a : α) :
    Settled (if p then .ok a else .error .overflow : Result ArithmeticError α) := by
  split
  · exact ok a
  · exact overflow

theorem checked (n : Int) : Settled (Word.checked n) := ite n

theorem bind (h : Settled x) (hf : ∀ a, x = .ok a → Settled (f a)) : Settled (x >>= f) := by
  rcases h with ⟨a, rfl⟩ | rfl
  · exact hf a rfl
  · exact overflow

theorem map (h : Settled x) (f : α → β) : Settled (x.map f) := by
  rcases h with ⟨a, rfl⟩ | rfl
  · exact ok (f a)
  · exact overflow

theorem eq_overflow {err : ArithmeticError} (h : Settled x) (herr : x = .error err) :
    err = .overflow := by
  subst herr
  rcases h with ⟨a, ha⟩ | hover
  · cases ha
  · cases hover; rfl

theorem ne_trap (h : Settled x) : x ≠ .trap := by
  rcases h with ⟨a, rfl⟩ | rfl <;> simp

end Settled

/-- Two numbers that are looked at one after the other. -/
theorem word_both (f : Int → Int → Result ArithmeticError α) (n d : Int) :
    (do
      let n ← word guard n
      let d ← word guard d
      f n d) = if Fits n ∧ Fits d then f n d else guard.refuse := by
  unfold word
  by_cases hn : Fits n
  · by_cases hd : Fits d
    · rw [if_pos hn, if_pos hd, if_pos ⟨hn, hd⟩]
      rfl
    · rw [if_pos hn, if_neg hd, if_neg (mt And.right hd)]
      cases guard <;> rfl
  · rw [if_neg hn, if_neg (mt And.left hn)]
    cases guard <;> rfl

end LineCalc.Word
