import LineCalc.Proofs.Number.Traps
import Mathlib

/-!
# Operands in either order

Sums and products do not depend on the order of the operands, and neither does their absence: the numbers
that are checked on the way to a result are the same in both orders, and only the order of the checks
changes.
-/

namespace LineCalc

/-! ## Doubles -/

namespace Binary64

open Float.Model Float.Model.UnpackedFloat

theorem sign_mul_comm (s t : Sign) : s * t = t * s := by
  cases s <;> cases t <;> rfl

theorem unpacked_add_comm (format : Format) (x y : UnpackedFloat) :
    UnpackedFloat.add format x y = UnpackedFloat.add format y x := by
  cases x with
  | notANumber => cases y <;> rfl
  | infinity s =>
      cases y with
      | infinity t => cases s <;> cases t <;> rfl
      | _ => rfl
  | zero s =>
      cases y with
      | zero t => cases s <;> cases t <;> rfl
      | _ => rfl
  | finite s m e hm =>
      cases y with
      | finite t n f hn => simp only [UnpackedFloat.add, min_comm f e, Int.add_comm (t.apply _)]
      | _ => rfl

theorem unpacked_mul_comm (format : Format) (x y : UnpackedFloat) :
    UnpackedFloat.mul format x y = UnpackedFloat.mul format y x := by
  cases x <;> cases y <;> simp only [UnpackedFloat.mul, sign_mul_comm, Nat.mul_comm, Int.add_comm]

theorem add_comm (x y : Float) : x + y = y + x := by
  change Float.ofModel (Float.Model.pack _) = Float.ofModel (Float.Model.pack _)
  rw [unpacked_add_comm]

theorem mul_comm (x y : Float) : x * y = y * x := by
  change Float.ofModel (Float.Model.pack _) = Float.ofModel (Float.Model.pack _)
  rw [unpacked_mul_comm]

end Binary64

/-! ## Fractions -/

namespace Fraction

variable {a b : Fraction}

theorem denominatorDivisor_comm (a b : Fraction) : denominatorDivisor a b = denominatorDivisor b a :=
  congrArg Nat.cast (Int.gcd_comm _ _)

/-- The least common denominator is formed by cancelling either denominator. -/
theorem commonDenominator_comm (a b : Fraction) : commonDenominator a b = commonDenominator b a := by
  have hleft : denominatorDivisor a b ∣ a.denominator := Int.gcd_dvd_left _ _
  have hright : denominatorDivisor a b ∣ b.denominator := Int.gcd_dvd_right _ _
  calc commonDenominator a b = b.denominator * a.denominator / denominatorDivisor a b := by
        rw [commonDenominator, Int.mul_comm, Int.mul_ediv_assoc _ hleft]
    _ = b.denominator / denominatorDivisor a b * a.denominator := by
        rw [Int.mul_comm, Int.mul_ediv_assoc _ hright, Int.mul_comm]
    _ = commonDenominator b a := by rw [commonDenominator, denominatorDivisor_comm]

theorem combine_comm {op : Int → Int → Int} (hop : ∀ m n, op m n = op n m) (ha : a.WellFormed)
    (hb : b.WellFormed) : combine op a b = combine op b a := by
  rw [combine_eq ha hb, combine_eq hb ha, commonDenominator_comm a b]
  refine Word.checked_bind_congr fun _ => ?_
  by_cases hleft : Word.Fits (numeratorOver (commonDenominator b a) a)
  · rw [Word.checked_of_fits hleft, Result.ok_bind]
    refine Word.checked_bind_congr fun _ => ?_
    rw [Result.ok_bind, hop]
  · rw [Word.checked_of_not_fits hleft, Result.error_bind]
    by_cases hright : Word.Fits (numeratorOver (commonDenominator b a) b)
    · rw [Word.checked_of_fits hright]
      rfl
    · rw [Word.checked_of_not_fits hright]
      rfl

theorem add_comm (ha : a.WellFormed) (hb : b.WellFormed) : a.add b = b.add a :=
  combine_comm Int.add_comm ha hb

theorem mul_comm (ha : a.WellFormed) (hb : b.WellFormed) : a.mul b = b.mul a := by
  have hproduct := cancelledProduct_reduced ha.reduced hb.reduced
  have hvalue := cancelledProduct_value ha.reduced.1 hb.reduced.1
  rw [mul_eq ha hb hproduct hvalue, mul_eq hb ha hproduct (hvalue.trans (Rat.mul_comm _ _))]

end Fraction

/-! ## Numbers -/

namespace Number

variable {op : Operator}

/-- The same number twice, or an overflow twice. -/
def SameOutcome (outcome other : Result ArithmeticError Number) : Prop :=
  (∃ v, outcome = .ok v ∧ other = .ok v) ∨
    (outcome = .error .overflow ∧ other = .error .overflow)

theorem SameOutcome.of_eq {outcome other : Result ArithmeticError Number} (h : outcome = other)
    (hsettled : Word.Settled outcome) : SameOutcome outcome other := by
  subst h
  exact hsettled.imp (fun ⟨v, hv⟩ => ⟨v, hv, hv⟩) fun hover => ⟨hover, hover⟩

theorem SameOutcome.eq {outcome other : Result ArithmeticError Number}
    (h : SameOutcome outcome other) : outcome = other := by
  rcases h with ⟨v, hv, hother⟩ | ⟨hover, hother⟩
  · exact hv.trans hother.symm
  · exact hover.trans hother.symm

/-- The operands meet in the same kind in both orders. -/
theorem sameOutcome_scalar (hinteger : ∀ m n, SameOutcome (integerOp op m n) (integerOp op n m))
    (hrational : ∀ x y : Fraction, x.WellFormed → y.WellFormed →
      SameOutcome (rationalOp op x y) (rationalOp op y x))
    (hfloat : ∀ x y, SameOutcome (floatOp op x y) (floatOp op y x)) {a b : Number}
    (ha : a.WellFormed) (hb : b.WellFormed) : SameOutcome (scalar op a b) (scalar op b a) := by
  cases a with
  | integer m =>
      cases b with
      | integer n => exact hinteger m n
      | rational y => exact hrational _ y (Fraction.ofInt_wellFormed ha) hb
      | float y => exact hfloat _ y
  | rational x =>
      cases b with
      | integer n => exact hrational x _ ha (Fraction.ofInt_wellFormed hb)
      | rational y => exact hrational x y ha hb
      | float y => exact hfloat _ y
  | float x => cases b <;> exact hfloat x _

theorem sameOutcome_add {a b : Number} (ha : a.WellFormed) (hb : b.WellFormed) :
    SameOutcome (scalar .add a b) (scalar .add b a) := by
  refine sameOutcome_scalar (fun m n => ?_) (fun x y hx hy => ?_) (fun x y => ?_) ha hb
  · exact .of_eq (by rw [integerOp, integerOp, Int.add_comm]) (.map (.checked _) _)
  · exact .of_eq (by rw [rationalOp, rationalOp, Fraction.add_comm hx hy])
      (rationalOp_settled (by decide) hx hy (by simp) (by simp))
  · exact .inl ⟨_, rfl, by rw [floatOp, Binary64.add_comm]⟩

theorem sameOutcome_mul {a b : Number} (ha : a.WellFormed) (hb : b.WellFormed) :
    SameOutcome (scalar .mul a b) (scalar .mul b a) := by
  refine sameOutcome_scalar (fun m n => ?_) (fun x y hx hy => ?_) (fun x y => ?_) ha hb
  · exact .of_eq (by rw [integerOp, integerOp, Int.mul_comm]) (.map (.checked _) _)
  · exact .of_eq (by rw [rationalOp, rationalOp, Fraction.mul_comm hx hy])
      (rationalOp_settled (by decide) hx hy (by simp) (by simp))
  · exact .inl ⟨_, rfl, by rw [floatOp, Binary64.mul_comm]⟩

/-- A sum or a product is the same number in both orders of the operands, or it is an overflow in both. -/
theorem apply_either_order {a b : Number} (hop : op = .add ∨ op = .mul) (ha : a.WellFormed)
    (hb : b.WellFormed) :
    (∃ v, apply op a b = .ok v ∧ apply op b a = .ok v) ∨
      (apply op a b = .error .overflow ∧ apply op b a = .error .overflow) := by
  rcases hop with rfl | rfl
  · exact sameOutcome_add ha hb
  · exact sameOutcome_mul ha hb

/-- A sum whose value is a sixth of the greatest word, and that has no words over the common denominator, a
product that is the least word, and a sum that is a double. -/
theorem apply_either_order_greatest :
    apply .add (.rational ⟨Word.greatest, 2⟩) (.rational ⟨-Word.greatest, 3⟩) = .error .overflow ∧
      apply .add (.rational ⟨-Word.greatest, 3⟩) (.rational ⟨Word.greatest, 2⟩) = .error .overflow ∧
      apply .mul (.rational ⟨-4611686018427387904, 3⟩) (.integer 6) = .ok (.integer Word.least) ∧
      apply .mul (.integer 6) (.rational ⟨-4611686018427387904, 3⟩) = .ok (.integer Word.least) ∧
      apply .add (.float (Float.ofInt 2)) (.integer 1) =
        .ok (.float (Float.ofInt 2 + Float.ofInt 1)) ∧
      apply .add (.integer 1) (.float (Float.ofInt 2)) =
        .ok (.float (Float.ofInt 2 + Float.ofInt 1)) := by
  have hhalf : Number.WellFormed (.rational ⟨Word.greatest, 2⟩) := by decide
  have hthird : Number.WellFormed (.rational ⟨-Word.greatest, 3⟩) := by decide
  have hbelow : Number.WellFormed (.rational ⟨-4611686018427387904, 3⟩) := by decide
  have hsix : Number.WellFormed (.integer 6) := by decide
  have hone : Number.WellFormed (.integer 1) := by decide
  have hsum : apply .add (.rational ⟨Word.greatest, 2⟩) (.rational ⟨-Word.greatest, 3⟩) =
      .error .overflow := by decide
  have hproduct : apply .mul (.rational ⟨-4611686018427387904, 3⟩) (.integer 6) =
      .ok (.integer Word.least) := by decide
  have hdouble : apply .add (.float (Float.ofInt 2)) (.integer 1) =
      .ok (.float (Float.ofInt 2 + Float.ofInt 1)) := rfl
  have hsum' := SameOutcome.eq (apply_either_order (.inl rfl) hhalf hthird)
  have hproduct' := SameOutcome.eq (apply_either_order (.inr rfl) hbelow hsix)
  have hdouble' := SameOutcome.eq
    (apply_either_order (.inl rfl) (show Number.WellFormed (.float (Float.ofInt 2)) from trivial) hone)
  exact ⟨hsum, hsum'.symm.trans hsum, hproduct, hproduct'.symm.trans hproduct, hdouble,
    hdouble'.symm.trans hdouble⟩

end Number

end LineCalc
