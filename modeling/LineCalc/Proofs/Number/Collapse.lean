import LineCalc.Proofs.Number.Tiers

/-!
# What exact operands make

An operator makes a double of a double. Of exact operands it makes what `collapse` makes of a fraction, a
whole number if it can be, and a double only as a power whose exponent is a fraction that is not whole.
-/

namespace LineCalc.Number

variable {a b v : Number} {op : Operator}

theorem not_isExact_iff : ¬ v.IsExact ↔ v.value? = none := by
  cases v <;> simp [IsExact, value?]

theorem not_isExact_iff_exists : ¬ v.IsExact ↔ ∃ x, v = .float x := by
  cases v <;> simp [IsExact]

theorem ratio_isExact {n d : Int} (h : ratio n d = .ok v) : v.IsExact := by
  obtain ⟨-, rfl, -⟩ := ratio_eq_ok h
  trivial

/-! ## Results of exact arithmetic -/

/-- The number is made of a fraction and is whole if it can be. -/
def Collapsed (v : Number) : Prop := ∃ q : Fraction, v = collapse q

theorem Collapsed.isExact (h : v.Collapsed) : v.IsExact := by
  obtain ⟨q, rfl⟩ := h
  unfold collapse
  split <;> trivial

theorem Collapsed.not_isWhole {q : Fraction} (h : (rational q).Collapsed) : ¬ q.IsWhole := by
  obtain ⟨p, hp⟩ := h
  unfold collapse at hp
  split at hp
  · cases hp
  · cases hp
    assumption

theorem integer_collapsed (n : Int) : (integer n).Collapsed := ⟨.ofInt n, (collapse_ofInt n).symm⟩

theorem collapsed_of_map {result : Result ArithmeticError Int} (h : result.map .integer = .ok v) :
    v.Collapsed := by
  obtain ⟨n, -, rfl⟩ := Result.map_eq_ok_iff.mp h
  exact integer_collapsed n

theorem collapsed_of_bind {result : Result ArithmeticError Fraction}
    (h : (result >>= ofFraction) = .ok v) : v.Collapsed := by
  obtain ⟨c, -, rfl⟩ := exists_of_bind_ofFraction h
  exact ⟨c, rfl⟩

theorem power_collapsed {e : Int} (ha : a.IsExact) (hb : b.exactInteger? = some e)
    (h : power a b = .ok v) : v.Collapsed := by
  have hexact : ∀ q, exactPower q e = .ok v → v.Collapsed := fun q hq => by
    obtain ⟨base, -, hq⟩ := Result.bind_eq_ok_iff.mp hq
    exact collapsed_of_bind hq
  cases a with
  | integer n =>
      simp only [power, hb] at h
      split at h
      · exact hexact _ h
      · exact collapsed_of_map h
  | rational q =>
      simp only [power, hb] at h
      exact hexact q h
  | float x => exact ha.elim

theorem integerOp_collapsed (hop : op ≠ .pow) {m n : Int} (h : integerOp op m n = .ok v) :
    v.Collapsed := by
  cases op with
  | add => exact collapsed_of_map h
  | sub => exact collapsed_of_map h
  | mul => exact collapsed_of_map h
  | div =>
      simp only [integerOp] at h
      split at h
      · cases h
      split at h
      · exact collapsed_of_map h
      -- The quotient leaves a remainder, so its lowest terms are not whole.
      · rename_i hne hrem
        obtain ⟨-, rfl, -⟩ := ratio_eq_ok h
        exact ⟨_, (collapse_lowest hne fun hdvd => hrem (Int.tmod_eq_zero_of_dvd hdvd)).symm⟩
  | pow => exact absurd rfl hop

theorem rationalOp_collapsed (hop : op ≠ .pow) {p q : Fraction} (h : rationalOp op p q = .ok v) :
    v.Collapsed := by
  cases op with
  | add => exact collapsed_of_bind h
  | sub => exact collapsed_of_bind h
  | mul => exact collapsed_of_bind h
  | div =>
      simp only [rationalOp] at h
      split at h
      · cases h
      · exact collapsed_of_bind h
  | pow => exact absurd rfl hop

theorem scalar_collapsed (hop : op ≠ .pow) (ha : a.IsExact) (hb : b.IsExact)
    (h : scalar op a b = .ok v) : v.Collapsed := by
  cases a with
  | integer m =>
      cases b with
      | integer n => exact integerOp_collapsed hop h
      | rational q => exact rationalOp_collapsed hop h
      | float y => exact hb.elim
  | rational p =>
      cases b with
      | integer n => exact rationalOp_collapsed hop h
      | rational q => exact rationalOp_collapsed hop h
      | float y => exact hb.elim
  | float x => exact ha.elim

/-- Among exact numbers only the fractions that are not whole are no whole numbers. -/
theorem exactInteger?_eq_none_iff (hb : b.Reduced) (hexact : b.IsExact) :
    b.exactInteger? = none ↔ ∃ q, b = .rational q ∧ 1 < q.denominator := by
  cases b with
  | integer n => simp [exactInteger?]
  | rational q =>
      have hpos : 0 < q.denominator := hb.1
      have hlarge : 1 < q.denominator ↔ ¬ q.IsWhole := by
        rw [Fraction.IsWhole]
        omega
      simp [exactInteger?, hlarge]
  | float x => exact hexact.elim

/-! ## Exact results -/

theorem negate_isExact_iff (h : a.negate = .ok v) : v.IsExact ↔ a.IsExact := by
  cases a with
  | integer n => exact iff_of_true (collapsed_of_map h).isExact trivial
  | rational q =>
      obtain ⟨-, rfl⟩ := negate_rational_eq_ok h
      exact Iff.rfl
  | float x => cases h; exact Iff.rfl

theorem scalar_not_isExact (hab : ¬ a.IsExact ∨ ¬ b.IsExact) (h : scalar op a b = .ok v) :
    ¬ v.IsExact := by
  rw [not_isExact_iff] at hab ⊢
  rw [not_isExact_iff] at hab
  exact scalar_float hab h

theorem apply_not_isExact (hab : ¬ a.IsExact ∨ ¬ b.IsExact) (h : apply op a b = .ok v) :
    ¬ v.IsExact := by
  rw [not_isExact_iff] at hab ⊢
  rw [not_isExact_iff] at hab
  exact apply_float hab h

/-- Every exact result of an operator is collapsed. -/
theorem apply_collapsed (h : apply op a b = .ok v) (hv : v.IsExact) : v.Collapsed := by
  have ha : a.IsExact := by_contra fun ha => apply_not_isExact (.inl ha) h hv
  have hb : b.IsExact := by_contra fun hb => apply_not_isExact (.inr hb) h hv
  cases op with
  | pow =>
      cases he : b.exactInteger? with
      | none => exact absurd hv (not_isExact_iff.mpr (power_float (.inr he) h))
      | some e => exact power_collapsed ha he h
  | _ => exact scalar_collapsed (by decide) ha hb h

/-- An operator makes a double of a double, and a power also of a fraction as the exponent. -/
theorem apply_not_isExact_iff (hb : b.Reduced) (h : apply op a b = .ok v) :
    ¬ v.IsExact ↔ (¬ a.IsExact ∨ ¬ b.IsExact) ∨
      (op = .pow ∧ ∃ q, b = .rational q ∧ 1 < q.denominator) := by
  by_cases hab : ¬ a.IsExact ∨ ¬ b.IsExact
  · exact iff_of_true (apply_not_isExact hab h) (.inl hab)
  obtain ⟨ha', hb'⟩ := not_or.mp hab
  have ha' := not_not.mp ha'
  have hb' := not_not.mp hb'
  rw [or_iff_right hab]
  by_cases hop : op = .pow
  · subst hop
    rw [← exactInteger?_eq_none_iff hb hb', and_iff_right rfl]
    cases hexact : b.exactInteger? with
    | none => exact iff_of_true (not_isExact_iff.mpr (power_float (.inr hexact) h)) rfl
    | some e => exact iff_of_false (not_not.mpr (power_collapsed ha' hexact h).isExact) nofun
  · have hscalar : scalar op a b = .ok v := by
      cases op with
      | pow => exact absurd rfl hop
      | _ => exact h
    exact iff_of_false (not_not.mpr (scalar_collapsed hop ha' hb' hscalar).isExact)
      fun hpow => hop hpow.1

end LineCalc.Number
