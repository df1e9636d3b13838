import LineCalc.Proofs.Number.Product

/-!
# Where arithmetic traps

Of all that is computed of well-formed numbers without a check, one number is no word: the divisor of the
numerators where zero is divided by a fraction with the least word above. Every other computation goes
through to a number or to an error.
-/

namespace LineCalc.Number

variable {a b : Number} {op : Operator} {m n : Int} {x y : Fraction} {p q r : ℚ}

/-- Zero is divided by a fraction that has the least word above. -/
def Traps (op : Operator) (a b : Number) : Prop :=
  op = .div ∧ a.value? = some 0 ∧
    ∃ q : Fraction, b = .rational q ∧ q.numerator = Word.least ∧ q.denominator ≠ 1

/-! ## Numbers of literals and negations -/

theorem ratio_settled (hm : Word.Fits m) (hn : Word.Fits n) (hne : n ≠ 0) :
    Word.Settled (ratio m n) := by
  by_cases hleast : m = Word.least ∨ n = Word.least
  · rw [ratio, if_neg hne, if_pos hleast]
    exact .overflow
  · rw [ratio_eq hm hn hne hleast]
    exact .ok _

theorem ratio_ne_trap (hm : Word.Fits m) (hn : Word.Fits n) : ratio m n ≠ .trap := by
  by_cases hne : n = 0
  · rw [ratio, if_pos hne]
    simp
  · exact (ratio_settled hm hn hne).ne_trap

theorem ofLiteral_ne_trap {l : Literal} (hl : l.Fits) : ofLiteral l ≠ .trap := by
  cases l with
  | integer n => simp [ofLiteral]
  | float x => simp [ofLiteral]
  | ratio n d => exact ratio_ne_trap hl.1 hl.2

theorem negate_settled (ha : a.WellFormed) : Word.Settled a.negate := by
  cases a with
  | integer n => exact .map (.checked _) _
  | rational q =>
      by_cases hleast : q.numerator = Word.least
      · rw [negate, if_pos hleast]
        exact .overflow
      · rw [negate, if_neg hleast, Word.unchecked_of_fits (ha.1.neg hleast)]
        exact .ok _
  | float x => exact .ok _

/-! ## Powers -/

theorem powerBase_ne_trap (hx : x.WellFormed) (e : Int) : powerBase x e ≠ .trap := by
  unfold powerBase
  split
  · split
    · simp
    split
    · simp
    · rw [Fraction.reciprocal_eq hx ‹_› ‹_›]
      simp
  · simp

theorem power_settled {e : Int} (ha : a.WellFormed) (hp : a.value? = some p)
    (he : b.exactInteger? = some e) (hzero : p = 0 → 0 ≤ e) : Word.Settled (power a b) := by
  rw [power_eq ha hp he hzero]
  exact .ite _

theorem power_ne_trap (ha : a.WellFormed) : power a b ≠ .trap := by
  cases he : b.exactInteger? with
  | none => cases a <;> simp [power, he]
  | some e =>
      cases hp : a.value? with
      | none => cases a <;> simp [power, value?] at hp ⊢
      | some p =>
          by_cases hzero : p = 0 → 0 ≤ e
          · exact (power_settled ha hp he hzero).ne_trap
          · obtain ⟨rfl, hneg⟩ : p = 0 ∧ e < 0 := by simpa using hzero
            rw [power_zero ha.reduced hp he hneg]
            simp

/-! ## The other operators -/

theorem integerOp_settled (hop : op ≠ .pow) (hm : Word.Fits m) (hn : Word.Fits n)
    (hne : op = .div → n ≠ 0) : Word.Settled (integerOp op m n) := by
  cases op with
  | add => exact .map (.checked _) _
  | sub => exact .map (.checked _) _
  | mul => exact .map (.checked _) _
  | div =>
      rw [integerOp, if_neg (hne rfl)]
      split
      · exact .map (.checked _) _
      · exact ratio_settled hm hn (hne rfl)
  | pow => exact absurd rfl hop

/-- A result in lowest terms is a number. -/
theorem settled_of_bind {result : Result ArithmeticError Fraction} (h : Word.Settled result)
    (hresult : ∀ c, result = .ok c → c.WellFormed) : Word.Settled (result >>= ofFraction) :=
  h.bind fun c hc => by
    rw [ofFraction_eq (hresult c hc).1]
    exact .ok _

theorem rationalOp_settled (hop : op ≠ .pow) (hx : x.WellFormed) (hy : y.WellFormed)
    (hne : op = .div → y.numerator ≠ 0) (h : op = .div → ¬ x.ZeroByLeast y) :
    Word.Settled (rationalOp op x y) := by
  have hx' := hx.reduced.1
  have hy' := hy.reduced.1
  cases op with
  | add =>
      exact settled_of_bind (Fraction.combine_settled hx hy)
        fun c hc => (Fraction.add_spec hx' hy' hc).1
  | sub =>
      exact settled_of_bind (Fraction.combine_settled hx hy)
        fun c hc => (Fraction.sub_spec hx' hy' hc).1
  | mul =>
      exact settled_of_bind (Fraction.mul_settled hx hy)
        fun c hc => (Fraction.mul_spec hx' hy' hc).1
  | div =>
      rw [rationalOp, if_neg (hne rfl)]
      exact settled_of_bind (Fraction.div_settled hx hy (hne rfl) (h rfl))
        fun c hc => (Fraction.div_spec hx' hy' (hne rfl) hc).1
  | pow => exact absurd rfl hop

theorem integerOp_ne_trap (hm : Word.Fits m) (hn : Word.Fits n) : integerOp op m n ≠ .trap := by
  by_cases hop : op = .pow
  · subst hop
    exact power_ne_trap (a := .integer m) (b := .integer n) hm
  by_cases hzero : op = .div ∧ n = 0
  · obtain ⟨rfl, rfl⟩ := hzero
    simp [integerOp]
  · exact (integerOp_settled hop hm hn (not_and.mp hzero)).ne_trap

theorem rationalOp_ne_trap (hx : x.WellFormed) (hy : y.WellFormed)
    (h : op = .div → ¬ x.ZeroByLeast y) : rationalOp op x y ≠ .trap := by
  by_cases hop : op = .pow
  · subst hop
    exact power_ne_trap (a := .rational x) (b := .rational y) hx
  by_cases hzero : op = .div ∧ y.numerator = 0
  · obtain ⟨rfl, hzero⟩ := hzero
    simp [rationalOp, hzero]
  · exact (rationalOp_settled hop hx hy (not_and.mp hzero) h).ne_trap

theorem floatOp_ne_trap (s t : Float) : floatOp op s t ≠ .trap := by
  cases op with
  | div =>
      rw [floatOp]
      split <;> simp
  | _ => simp [floatOp]

/-! ## Operators on numbers -/

/-- Well-formed operands meet as words, as well-formed fractions or as doubles, and an operator traps at
them just if they are fractions at which division does. -/
theorem promote_cases (ha : a.WellFormed) (hb : b.WellFormed) :
    (∃ m n, a.promote b = .integers m n ∧ Word.Fits m ∧ Word.Fits n ∧ b.value? = some (n : ℚ) ∧
      ∀ op, ¬ Traps op a b) ∨
    (∃ x y, a.promote b = .rationals x y ∧ x.WellFormed ∧ y.WellFormed ∧ b.value? = some y.value ∧
      ∀ op, Traps op a b ↔ op = .div ∧ x.ZeroByLeast y) ∨
    ∃ s t, a.promote b = .floats s t ∧ (a.value? = none ∨ b.value? = none) ∧
      ∀ op, ¬ Traps op a b := by
  cases a with
  | integer m =>
      cases b with
      | integer n =>
          refine .inl ⟨m, n, rfl, ha, hb, rfl, fun op h => ?_⟩
          obtain ⟨-, -, y, hy, -⟩ := h
          cases hy
      | rational y =>
          refine .inr (.inl ⟨_, y, rfl, Fraction.ofInt_wellFormed ha, hb, rfl, fun op => ?_⟩)
          simp [Traps, Fraction.ZeroByLeast, Fraction.ofInt, value?]
      | float t => exact .inr (.inr ⟨_, t, rfl, .inr rfl, fun op h => by simp [Traps] at h⟩)
  | rational x =>
      cases b with
      | integer n =>
          refine .inr (.inl ⟨x, _, rfl, ha, Fraction.ofInt_wellFormed hb,
            congrArg some (Fraction.ofInt_value n).symm, fun op => ?_⟩)
          -- A whole number has denominator one, the least word included.
          simp [Traps, Fraction.ZeroByLeast, Fraction.ofInt]
      | rational y =>
          refine .inr (.inl ⟨x, y, rfl, ha, hb, rfl, fun op => ?_⟩)
          simp [Traps, Fraction.ZeroByLeast, value?, Fraction.value_eq_zero_iff ha.reduced]
      | float t => exact .inr (.inr ⟨_, t, rfl, .inr rfl, fun op h => by simp [Traps] at h⟩)
  | float s => exact .inr (.inr ⟨s, b.toFloat, by cases b <;> rfl, .inl rfl, fun op h => by
      simp [Traps, value?] at h⟩)

/-- An operator on well-formed numbers traps in one case only. -/
theorem scalar_eq_trap_iff (ha : a.WellFormed) (hb : b.WellFormed) :
    scalar op a b = .trap ↔ Traps op a b := by
  rcases promote_cases ha hb with ⟨m, n, hpromote, hm, hn, -, hnot⟩ |
    ⟨x, y, hpromote, hx, hy, -, htraps⟩ | ⟨s, t, hpromote, -, hnot⟩
  · rw [scalar, hpromote]
    exact iff_of_false (integerOp_ne_trap hm hn) (hnot op)
  · rw [scalar, hpromote, htraps]
    by_cases hzero : op = .div ∧ x.ZeroByLeast y
    · obtain ⟨rfl, hzero⟩ := hzero
      exact iff_of_true (rationalOp_div_trap hx hzero) ⟨rfl, hzero⟩
    · exact iff_of_false (rationalOp_ne_trap hx hy (not_and.mp hzero)) hzero
  · rw [scalar, hpromote]
    exact iff_of_false (floatOp_ne_trap s t) (hnot op)

theorem apply_eq_trap_iff (ha : a.WellFormed) (hb : b.WellFormed) :
    apply op a b = .trap ↔ Traps op a b := by
  cases op with
  | pow => exact iff_of_false (power_ne_trap ha) fun h => absurd h.1 (by decide)
  | _ => exact scalar_eq_trap_iff ha hb

/-- Of exact operands an operator makes a number or an overflow unless it traps, or divides by zero. -/
theorem scalar_settled (hop : op ≠ .pow) (ha : a.WellFormed) (hb : b.WellFormed)
    (hp : a.value? = some p) (hq : b.value? = some q) (hne : op = .div → q ≠ 0)
    (h : ¬ Traps op a b) : Word.Settled (scalar op a b) := by
  rcases promote_cases ha hb with ⟨m, n, hpromote, hm, hn, hvalue, -⟩ |
    ⟨x, y, hpromote, hx, hy, hvalue, htraps⟩ | ⟨s, t, -, hnone, -⟩
  · cases hvalue.symm.trans hq
    rw [scalar, hpromote]
    exact integerOp_settled hop hm hn fun hdiv => Int.cast_ne_zero.mp (hne hdiv)
  · cases hvalue.symm.trans hq
    rw [htraps, not_and] at h
    rw [scalar, hpromote]
    exact rationalOp_settled hop hx hy
      (fun hdiv => mt (Fraction.value_eq_zero_iff hy.reduced).mpr (hne hdiv)) h
  · rw [hp, hq] at hnone
    simp at hnone

/-- Where an operator denotes something, it makes a number or an overflow unless it traps. -/
theorem apply_settled (ha : a.WellFormed) (hb : b.WellFormed) (hp : a.value? = some p)
    (hq : b.value? = some q) (hr : op.denote p q = some r) (h : ¬ Traps op a b) :
    Word.Settled (apply op a b) := by
  cases op with
  | pow =>
      simp only [Operator.denote, Option.ite_none_right_eq_some] at hr
      obtain ⟨⟨hden, hzero⟩, -⟩ := hr
      have he : b.exactInteger? = some q.num := by rw [exactInteger?_eq hb.reduced hq, if_pos hden]
      exact power_settled ha hp he fun hp => Rat.num_nonneg.mpr (hzero hp)
  | div =>
      simp only [Operator.denote, Option.ite_none_left_eq_some] at hr
      exact scalar_settled (by decide) ha hb hp hq (fun _ => hr.1) h
  | _ => exact scalar_settled (by decide) ha hb hp hq (by simp) h

/-- Arithmetic on well-formed numbers and on words traps in one case only. That covers every number that is
not checked on the way: the common divisors, the quotients by them and the changes of sign in literals,
negations, reciprocals, and the results and operands of operators. -/
theorem trap_only_at_zero_by_least (ha : a.WellFormed) (hb : b.WellFormed) (hx : x.WellFormed)
    (hm : Word.Fits m) (hn : Word.Fits n) (op : Operator) :
    ratio m n ≠ .trap ∧ a.negate ≠ .trap ∧ ofFraction x ≠ .trap ∧ (∀ e, powerBase x e ≠ .trap) ∧
      (scalar op a b = .trap ↔ Traps op a b) ∧ (apply op a b = .trap ↔ Traps op a b) := by
  refine ⟨ratio_ne_trap hm hn, (negate_settled ha).ne_trap, ?_, powerBase_ne_trap hx,
    scalar_eq_trap_iff ha hb, apply_eq_trap_iff ha hb⟩
  rw [ofFraction_eq hx.1]
  simp

/-- The difference that has the least word above, and the quotient of zero by it. -/
theorem trap_only_at_zero_by_least_third :
    apply .sub (.rational ⟨-9223372036854775807, 3⟩) (.rational ⟨1, 3⟩) =
        .ok (.rational ⟨Word.least, 3⟩) ∧
      apply .div (.integer 0) (.rational ⟨Word.least, 3⟩) = .trap ∧
      apply .div (.integer 0) (.integer Word.least) ≠ .trap ∧
      negate (.rational ⟨Word.least, 3⟩) = .error .overflow ∧
      negate (.rational ⟨Word.least, 3⟩) ≠ .trap := by
  have hzero : Number.WellFormed (.integer 0) := by decide
  have hleast : Number.WellFormed (.integer Word.least) := by decide
  have hthird : Number.WellFormed (.rational ⟨Word.least, 3⟩) := by decide
  have hfraction : Fraction.WellFormed ⟨Word.least, 3⟩ := by decide
  have hgreatest : Word.Fits Word.greatest := by decide
  obtain ⟨-, -, -, -, -, hquotient⟩ :=
    trap_only_at_zero_by_least hzero hthird hfraction hgreatest hgreatest .div
  obtain ⟨-, -, -, -, -, hwhole⟩ :=
    trap_only_at_zero_by_least hzero hleast hfraction hgreatest hgreatest .div
  obtain ⟨-, hnegate, -, -, -, -⟩ :=
    trap_only_at_zero_by_least hthird hleast hfraction hgreatest hgreatest .div
  refine ⟨by decide, hquotient.mpr ⟨rfl, rfl, _, rfl, rfl, by decide⟩, fun h => ?_,
    by decide, hnegate⟩
  obtain ⟨-, -, y, hy, -⟩ := hwhole.mp h
  cases hy

/-- The divisor of zero and the least word is computed without a check and is no word. -/
theorem zero_by_least_traps :
    Number.WellFormed (.integer 0) ∧ Number.WellFormed (.rational ⟨Word.least, 3⟩) ∧
      ¬ Word.Fits (Int.gcd 0 Word.least) ∧ Word.divisor 0 Word.least = .trap ∧
      apply .div (.integer 0) (.rational ⟨Word.least, 3⟩) = .trap := by
  refine ⟨?_, ?_, ?_, ?_, ?_⟩ <;> decide

end LineCalc.Number
