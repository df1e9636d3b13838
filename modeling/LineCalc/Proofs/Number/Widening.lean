import LineCalc.Proofs.Binary64.Division
import LineCalc.Proofs.Number.Power

/-!
# Powers of widened numbers

A whole number may be widened to the fraction with denominator one. Promotion does nothing else to two
exact operands, and a power does not depend on it. An exact power is the number of its value, whether the
base is multiplied as a whole number or as a fraction, and any other power is taken of doubles, which
widening leaves as they are because a double divided by one is itself.
-/

namespace LineCalc.Number

variable {a a' b b' : Number}

/-- The same number, or a whole number and the fraction that it is. -/
inductive Widens : Number → Number → Prop
  | same (a : Number) : Widens a a
  | whole (n : Int) : Widens (.integer n) (.rational (.ofInt n))

namespace Widens

theorem wellFormed (h : Widens a a') (ha : a.WellFormed) : a'.WellFormed := by
  cases h with
  | same => exact ha
  | whole n => exact Fraction.ofInt_wellFormed ha

theorem value?_eq (h : Widens a a') : a'.value? = a.value? := by
  cases h with
  | same => rfl
  | whole n => exact congrArg some (Fraction.ofInt_value n)

theorem exactInteger?_eq (h : Widens a a') : a'.exactInteger? = a.exactInteger? := by
  cases h <;> rfl

theorem toFloat_eq (h : Widens a a') : a'.toFloat = a.toFloat := by
  cases h with
  | same => rfl
  | whole n => exact Binary64.div_one (Float.ofInt n)

end Widens

/-! ## Powers -/

/-- A power that is not exact is taken of doubles. -/
theorem power_of_doubles (h : a.value? = none ∨ b.exactInteger? = none) :
    power a b = .ok (.float (Float.pow a.toFloat b.toFloat)) := by
  cases a with
  | float x => rfl
  | integer m => simp only [power, h.resolve_left (Option.some_ne_none _)]
  | rational x => simp only [power, h.resolve_left (Option.some_ne_none _)]

theorem power_widens_base (h : Widens a a') (ha : a.WellFormed) : power a' b = power a b := by
  cases he : b.exactInteger? with
  | none => rw [power_of_doubles (.inr he), power_of_doubles (.inr he), h.toFloat_eq]
  | some e =>
      cases hp : a.value? with
      | none =>
          rw [power_of_doubles (.inl hp), power_of_doubles (.inl (h.value?_eq.trans hp)), h.toFloat_eq]
      | some p =>
          -- Both bases have the value `p`, and it alone decides on an exact power.
          have hp' := h.value?_eq.trans hp
          have ha' := h.wellFormed ha
          by_cases hzero : p = 0 → 0 ≤ e
          · rw [power_eq ha hp he hzero, power_eq ha' hp' he hzero]
          · obtain ⟨rfl, hneg⟩ : p = 0 ∧ e < 0 := by simpa using hzero
            rw [power_zero ha.reduced hp he hneg, power_zero ha'.reduced hp' he hneg]

theorem power_widens_exponent (h : Widens b b') : power a b' = power a b := by
  simp only [power, h.exactInteger?_eq, h.toFloat_eq]

theorem power_widens (hbase : Widens a a') (hexponent : Widens b b') (ha : a.WellFormed) :
    power a' b' = power a b := by
  rw [power_widens_exponent hexponent, power_widens_base hbase ha]

/-- Promotion takes the power of widened operands. -/
theorem scalar_pow_widens (a b : Number) :
    ∃ a' b', Widens a a' ∧ Widens b b' ∧ scalar .pow a b = power a' b' := by
  cases a with
  | integer m =>
      cases b with
      | integer n => exact ⟨_, _, .same _, .same _, rfl⟩
      | rational y => exact ⟨_, _, .whole m, .same _, rfl⟩
      | float y => exact ⟨_, _, .same _, .same _, rfl⟩
  | rational x =>
      cases b with
      | integer n => exact ⟨_, _, .same _, .whole n, rfl⟩
      | rational y => exact ⟨_, _, .same _, .same _, rfl⟩
      | float y => exact ⟨_, _, .same _, .same _, rfl⟩
  | float x => cases b <;> exact ⟨_, _, .same _, .same _, rfl⟩

theorem scalar_pow_eq_power (ha : a.WellFormed) : scalar .pow a b = power a b := by
  obtain ⟨a', b', hbase, hexponent, hscalar⟩ := scalar_pow_widens a b
  rw [hscalar, power_widens hbase hexponent ha]

/-- A power is the same whether its operands are promoted first or not, and whether a whole number among
them is given as such or as the fraction with denominator one. -/
theorem scalar_pow_eq_apply (hbase : Widens a a') (hexponent : Widens b b') (ha : a.WellFormed) :
    scalar .pow a b = apply .pow a b ∧ scalar .pow a' b' = scalar .pow a b ∧
      apply .pow a' b' = apply .pow a b := by
  have hscalar : scalar .pow a b = power a b := scalar_pow_eq_power ha
  have hwidened : scalar .pow a' b' = power a' b' := scalar_pow_eq_power (hbase.wellFormed ha)
  have hpower : power a' b' = power a b := power_widens hbase hexponent ha
  exact ⟨hscalar, by rw [hwidened, hpower, hscalar], hpower⟩

/-- The least word as a power, which neither loop gives up, and the root of a widened number. -/
theorem scalar_pow_eq_apply_least :
    scalar .pow (.integer (-2)) (.integer 63) = .ok (.integer Word.least) ∧
      scalar .pow (.rational (.ofInt (-2))) (.rational (.ofInt 63)) = .ok (.integer Word.least) ∧
      apply .pow (.rational (.ofInt (-2))) (.rational (.ofInt 63)) = .ok (.integer Word.least) ∧
      apply .pow (.rational (.ofInt 2)) (.rational ⟨1, 2⟩) =
        apply .pow (.integer 2) (.rational ⟨1, 2⟩) := by
  obtain ⟨hroutes, hscalar, hwidened⟩ :=
    scalar_pow_eq_apply (.whole (-2)) (.whole 63) (show Number.WellFormed (.integer (-2)) by decide)
  obtain ⟨-, -, hroot⟩ := scalar_pow_eq_apply (.whole 2) (.same (.rational ⟨1, 2⟩))
    (show Number.WellFormed (.integer 2) by decide)
  have hleast : apply .pow (.integer (-2)) (.integer 63) = .ok (.integer Word.least) := by
    decide +kernel
  exact ⟨hroutes.trans hleast, hscalar.trans (hroutes.trans hleast), hwidened.trans hleast, hroot⟩

end LineCalc.Number
