import LineCalc.Proofs.Number.Power

/-!
# Products and quotients of numbers that there are

Where an operand is a fraction and none is a double, a product is refused only if it is no number. A
quotient is refused besides if its numerator is the least word and the sign comes from the divisor,
unless the operands have one denominator, in which case nothing is multiplied. The quotient of zero by a
fraction with the least word above is a number too, and its computation traps.
-/

namespace LineCalc

theorem Fraction.exists_of_rat (r : ℚ) : ∃ f : Fraction, f.Reduced ∧ f.value = r :=
  ⟨⟨r.num, r.den⟩, ⟨Int.natCast_pos.mpr r.den_pos, r.reduced⟩, r.num_div_den⟩

namespace Number

variable {a b : Number} {p q : ℚ}

/-- A fraction among two exact operands makes fractions of both. -/
theorem exists_rationals (ha : a.WellFormed) (hb : b.WellFormed) (hp : a.value? = some p)
    (hq : b.value? = some q) (hrational : (∃ x, a = .rational x) ∨ ∃ y, b = .rational y) :
    ∃ x y : Fraction, a.promote b = .rationals x y ∧ x.WellFormed ∧ y.WellFormed ∧
      x.value = p ∧ y.value = q := by
  cases a with
  | integer m =>
      cases b with
      | integer n => simp at hrational
      | rational y =>
          cases hp
          cases hq
          exact ⟨_, y, rfl, Fraction.ofInt_wellFormed ha, hb, Fraction.ofInt_value m, rfl⟩
      | float y => cases hq
  | rational x =>
      cases hp
      cases b with
      | integer n =>
          cases hq
          exact ⟨x, _, rfl, ha, Fraction.ofInt_wellFormed hb, rfl, Fraction.ofInt_value n⟩
      | rational y => cases hq; exact ⟨x, y, rfl, ha, hb, rfl, rfl⟩
      | float y => cases hq
  | float x => cases hp

theorem apply_of_promote {op : Operator} (hop : op ≠ .pow) {x y : Fraction}
    (h : a.promote b = .rationals x y) : apply op a b = rationalOp op x y := by
  cases op with
  | pow => exact absurd rfl hop
  | _ => simp only [apply, scalar, h]

theorem rationalOp_mul {x y : Fraction} (hx : x.WellFormed) (hy : y.WellFormed) :
    rationalOp .mul x y = ofRat (x.value * y.value) := by
  obtain ⟨f, hf, hv⟩ := Fraction.exists_of_rat (x.value * y.value)
  rw [rationalOp, Fraction.mul_eq hx hy hf hv, ite_bind_ofFraction hf, hv]

theorem rationalOp_div_trap {x y : Fraction} (hx : x.WellFormed) (h : x.ZeroByLeast y) :
    rationalOp .div x y = .trap := by
  have hne : y.numerator ≠ 0 := by
    rw [h.2.1]
    decide
  rw [rationalOp, if_neg hne, Fraction.div_trap hx h]
  rfl

theorem rationalOp_div {x y : Fraction} (hx : x.WellFormed) (hy : y.WellFormed)
    (hne : y.numerator ≠ 0) (h : ¬ x.ZeroByLeast y) :
    rationalOp .div x y =
      if (x.value / y.value).num = Word.least ∧ y.numerator < 0 ∧ x.denominator ≠ y.denominator then
        .error .overflow
      else ofRat (x.value / y.value) := by
  obtain ⟨f, hf, hv⟩ := Fraction.exists_of_rat (x.value / y.value)
  rw [rationalOp, if_neg hne, Fraction.div_eq hx hy hne hf hv h, ← hv, hf.num_value,
    ← ite_bind_ofFraction hf]
  by_cases hleast : f.numerator = Word.least ∧ y.numerator < 0 ∧ x.denominator ≠ y.denominator
  · rw [if_pos hleast, if_neg fun h => h.2 hleast]
    rfl
  · rw [if_neg hleast, if_congr (and_iff_left hleast) rfl rfl]

/-- Whether zero is divided by the least word over something can be told from the values. -/
theorem zeroByLeast_iff {x y : Fraction} (hx : x.Reduced) (hy : y.Reduced) :
    x.ZeroByLeast y ↔ x.value = 0 ∧ y.value.num = Word.least ∧ y.value.den ≠ 1 := by
  rw [Fraction.ZeroByLeast, Fraction.value_eq_zero_iff hx, hy.num_value, ← hy.den_value, ne_eq,
    Nat.cast_eq_one]

/-- Products and quotients of fractions, or of fractions and whole numbers, are refused only where they
are no numbers, apart from quotients that have the least word above and a sign from below. One quotient
traps although it is zero, that of zero by a fraction with the least word above. Operands are in lowest
terms, so that their parts are those of their values. -/
theorem apply_mul_div_eq_ofRat (ha : a.WellFormed) (hb : b.WellFormed) (hp : a.value? = some p)
    (hq : b.value? = some q) (hrational : (∃ x, a = .rational x) ∨ ∃ y, b = .rational y) :
    apply .mul a b = ofRat (p * q) ∧
    (q ≠ 0 → apply .div a b =
      if p = 0 ∧ q.num = Word.least ∧ q.den ≠ 1 then .trap
      else if (p / q).num = Word.least ∧ q.num < 0 ∧ p.den ≠ q.den then .error .overflow
      else ofRat (p / q)) := by
  obtain ⟨x, y, hpromote, hx, hy, rfl, rfl⟩ := exists_rationals ha hb hp hq hrational
  rw [apply_of_promote (by decide) hpromote, apply_of_promote (by decide) hpromote]
  refine ⟨rationalOp_mul hx hy, fun hne => ?_⟩
  split
  · rename_i htrap
    exact rationalOp_div_trap hx ((zeroByLeast_iff hx.reduced hy.reduced).mpr htrap)
  · rename_i htrap
    rw [rationalOp_div hx hy (mt (Fraction.value_eq_zero_iff hy.reduced).mpr hne)
        (mt (zeroByLeast_iff hx.reduced hy.reduced).mp htrap),
      ← hy.reduced.num_value, ← hx.reduced.den_value, ← hy.reduced.den_value]
    simp only [ne_eq, Nat.cast_inj]

/-- A third of the least word, as a product, as a quotient by a half, and as a quotient by minus a half,
which is refused, and zero divided by it. -/
theorem apply_mul_div_eq_ofRat_least :
    apply .mul (.rational ⟨-4611686018427387904, 3⟩) (.integer 2) =
        .ok (.rational ⟨Word.least, 3⟩) ∧
      apply .div (.rational ⟨-4611686018427387904, 3⟩) (.rational ⟨1, 2⟩) =
        .ok (.rational ⟨Word.least, 3⟩) ∧
      apply .div (.rational ⟨4611686018427387904, 3⟩) (.rational ⟨-1, 2⟩) = .error .overflow ∧
      apply .div (.integer 0) (.rational ⟨Word.least, 3⟩) = .trap := by
  have hbelow : Number.WellFormed (.rational ⟨-4611686018427387904, 3⟩) := by decide
  have habove : Number.WellFormed (.rational ⟨4611686018427387904, 3⟩) := by decide
  have htwo : Number.WellFormed (.integer 2) := by decide
  have hhalf : Number.WellFormed (.rational ⟨1, 2⟩) := by decide
  have hminus : Number.WellFormed (.rational ⟨-1, 2⟩) := by decide
  have hzero : Number.WellFormed (.integer 0) := by decide
  have hleast : Number.WellFormed (.rational ⟨Word.least, 3⟩) := by decide
  obtain ⟨hmul, -⟩ := apply_mul_div_eq_ofRat hbelow htwo rfl rfl (.inl ⟨_, rfl⟩)
  obtain ⟨-, hdiv⟩ := apply_mul_div_eq_ofRat hbelow hhalf rfl rfl (.inl ⟨_, rfl⟩)
  obtain ⟨-, hrefused⟩ := apply_mul_div_eq_ofRat habove hminus rfl rfl (.inl ⟨_, rfl⟩)
  obtain ⟨-, htrap⟩ := apply_mul_div_eq_ofRat hzero hleast rfl rfl (.inr ⟨_, rfl⟩)
  refine ⟨hmul.trans ?_, (hdiv ?_).trans ?_, (hrefused ?_).trans ?_, (htrap ?_).trans ?_⟩
  · decide +kernel
  · decide +kernel
  · decide +kernel
  · decide +kernel
  · decide +kernel
  · decide +kernel
  · exact if_pos (by decide +kernel)

/-- So it is not true that a quotient is refused only where it is no number or has the least word above:
zero by a third of the least word is zero. -/
theorem apply_div_ne_ofRat :
    Number.WellFormed (.integer 0) ∧ Number.WellFormed (.rational ⟨Word.least, 3⟩) ∧
      apply .div (.integer 0) (.rational ⟨Word.least, 3⟩) = .trap ∧
      ofRat (0 / (Word.least / 3)) = .ok (.integer 0) ∧
      ¬ ∀ (a b : Number) (p q : ℚ), a.WellFormed → b.WellFormed → a.value? = some p →
        b.value? = some q → ((∃ x, a = .rational x) ∨ ∃ y, b = .rational y) → q ≠ 0 →
        apply .div a b =
          if (p / q).num = Word.least ∧ q.num < 0 ∧ p.den ≠ q.den then .error .overflow
          else ofRat (p / q) := by
  have hzero : Number.WellFormed (.integer 0) := by decide
  have hleast : Number.WellFormed (.rational ⟨Word.least, 3⟩) := by decide
  have htrap : apply .div (.integer 0) (.rational ⟨Word.least, 3⟩) = .trap := by decide
  refine ⟨hzero, hleast, htrap, by decide +kernel, fun h => ?_⟩
  have hsame := h (.integer 0) (.rational ⟨Word.least, 3⟩) 0 (Word.least / 3) hzero hleast rfl rfl
    (.inr ⟨_, rfl⟩) (by decide +kernel)
  rw [htrap, if_neg (by decide +kernel)] at hsame
  exact absurd hsame (by decide +kernel)

end Number

end LineCalc
