import LineCalc.Expr.Evaluation
import LineCalc.Proofs.Fraction.Arithmetic
import LineCalc.Proofs.Power

/-!
# What the operators on numbers yield

What an operator yields of exact operands is the rational number that it denotes. Where it denotes
nothing, it yields a double or fails, and so it does when an operand is a double. The operands need
be in lowest terms and no more.
-/

namespace LineCalc.Number

/-- A fraction is in lowest terms. -/
def Reduced : Number → Prop
  | .rational q => q.Reduced
  | _ => True

/-- A number in lowest terms of this value. -/
def Writes (v : Number) (q : ℚ) : Prop := v.Reduced ∧ v.value? = some q

theorem isExact_iff {v : Number} : v.IsExact ↔ ∃ q, v.value? = some q := by
  cases v <;> simp [IsExact, value?]

/-! ## Fractions and whole numbers -/

/-- The number that a fraction is: whole if it can be. -/
def collapse (q : Fraction) : Number := if q.IsWhole then .integer q.numerator else .rational q

theorem collapse_writes {q : Fraction} (h : q.Reduced) : (collapse q).Writes q.value := by
  unfold collapse
  split
  · rename_i hwhole
    exact ⟨trivial, by simp [value?, Fraction.value, show q.denominator = 1 from hwhole]⟩
  · exact ⟨h, rfl⟩

theorem ofFraction_eq_ok {q : Fraction} {v : Number} (h : ofFraction q = .ok v) : v = collapse q := by
  unfold ofFraction at h
  unfold collapse
  split at h
  · rename_i hwhole
    obtain ⟨n, hn, rfl⟩ := Result.map_eq_ok_iff.mp h
    obtain ⟨-, rfl⟩ := Word.quotient_eq_ok_of_dvd (hwhole ▸ Int.one_dvd _) hn
    rw [if_pos hwhole, show q.denominator = 1 from hwhole, Int.ediv_one]
  · rw [if_neg ‹_›]
    exact (Result.ok.inj h).symm

theorem ofFraction_eq {q : Fraction} (h : Word.Fits q.numerator) :
    ofFraction q = .ok (collapse q) := by
  unfold ofFraction collapse
  split
  · rename_i hwhole
    rw [show q.denominator = 1 from hwhole,
      Word.quotient_of_dvd h Int.one_pos (Int.one_dvd _), Int.ediv_one]
    rfl
  · rfl

/-- A number that is made of a fraction is that of the fraction. -/
theorem exists_of_bind_ofFraction {result : Result ArithmeticError Fraction} {v : Number}
    (h : (result >>= ofFraction) = .ok v) : ∃ c, result = .ok c ∧ v = collapse c := by
  obtain ⟨c, hc, hv⟩ := Result.bind_eq_ok_iff.mp h
  exact ⟨c, hc, ofFraction_eq_ok hv⟩

theorem writes_of_bind_ofFraction {result : Result ArithmeticError Fraction} {q : ℚ} {v : Number}
    (hresult : ∀ c, result = .ok c → c.Reduced ∧ c.value = q)
    (h : (result >>= ofFraction) = .ok v) : v.Writes q := by
  obtain ⟨c, hc, rfl⟩ := exists_of_bind_ofFraction h
  obtain ⟨hred, rfl⟩ := hresult c hc
  exact collapse_writes hred

theorem writes_of_checked {n : Int} {q : ℚ} {v : Number} (hn : (n : ℚ) = q)
    (h : (Word.checked n).map .integer = .ok v) : v.Writes q := by
  obtain ⟨m, hm, rfl⟩ := Result.map_eq_ok_iff.mp h
  obtain ⟨-, rfl⟩ := Word.checked_eq_ok_iff.mp hm
  exact ⟨trivial, congrArg some hn⟩

theorem ratio_eq_ok {n d : Int} {v : Number} (h : ratio n d = .ok v) :
    d ≠ 0 ∧ v = .rational (.lowest n d) ∧ (Fraction.lowest n d).WellFormed := by
  unfold ratio at h
  split at h
  · cases h
  split at h
  · cases h
  obtain ⟨q, hq, rfl⟩ := Result.map_eq_ok_iff.mp h
  obtain ⟨hd, rfl, hwf⟩ := Fraction.reduce_eq_ok hq
  exact ⟨hd, rfl, hwf⟩

theorem ratio_writes {n d : Int} {v : Number} (h : ratio n d = .ok v) : v.Writes (n / d) := by
  obtain ⟨hd, rfl, hwf⟩ := ratio_eq_ok h
  exact ⟨hwf.reduced, congrArg some (Fraction.lowest_value hd)⟩

/-- The negation of a fraction has another sign and is the same otherwise. -/
theorem negate_rational_eq_ok {q : Fraction} {v : Number} (h : negate (.rational q) = .ok v) :
    q.numerator ≠ Word.least ∧ v = .rational ⟨-q.numerator, q.denominator⟩ := by
  simp only [negate] at h
  split at h
  · cases h
  rename_i hleast
  obtain ⟨n, hn, rfl⟩ := Result.map_eq_ok_iff.mp h
  obtain ⟨-, rfl⟩ := Word.unchecked_eq_ok_iff.mp hn
  exact ⟨hleast, rfl⟩

theorem negate_writes {a v : Number} {p : ℚ} (ha : a.Reduced) (hp : a.value? = some p)
    (h : a.negate = .ok v) : v.Writes (-p) := by
  cases a with
  | integer n =>
      cases hp
      exact writes_of_checked (Int.cast_neg n) h
  | rational q =>
      cases hp
      obtain ⟨-, rfl⟩ := negate_rational_eq_ok h
      exact ⟨Fraction.neg_numerator_reduced ha, congrArg some (Fraction.neg_numerator_value q)⟩
  | float x => cases hp

/-- Of an exact number the value tells whether it is whole. -/
theorem exactInteger?_eq {a : Number} {p : ℚ} (ha : a.Reduced) (hp : a.value? = some p) :
    a.exactInteger? = if p.den = 1 then some p.num else none := by
  cases a with
  | integer n => cases hp; simp [exactInteger?]
  | rational q =>
      cases hp
      have hq : q.Reduced := ha
      have hwhole : q.value.den = 1 ↔ q.IsWhole := by
        rw [Fraction.IsWhole, ← hq.den_value]
        exact Int.natCast_inj.symm
      simp only [exactInteger?, hwhole, hq.num_value]
  | float x => cases hp

/-! ## Sums, differences, products and quotients -/

theorem integerOp_writes {op : Operator} (hop : op ≠ .pow) {m n : Int} {r : ℚ} {v : Number}
    (hr : op.denote m n = some r) (h : integerOp op m n = .ok v) : v.Writes r := by
  cases op with
  | add => cases hr; exact writes_of_checked (Int.cast_add m n) h
  | sub => cases hr; exact writes_of_checked (Int.cast_sub m n) h
  | mul => cases hr; exact writes_of_checked (Int.cast_mul m n) h
  | div =>
      simp only [Operator.denote, Int.cast_eq_zero, Option.ite_none_left_eq_some,
        Option.some.injEq] at hr
      obtain ⟨hn, rfl⟩ := hr
      simp only [integerOp, if_neg hn] at h
      split at h
      · rename_i hrem
        have hdvd : n ∣ m := Int.dvd_of_tmod_eq_zero hrem
        refine writes_of_checked ?_ h
        rw [Int.tdiv_eq_ediv_of_dvd hdvd, Int.cast_div hdvd (Int.cast_ne_zero.mpr hn)]
      · exact ratio_writes h
  | pow => exact absurd rfl hop

theorem rationalOp_writes {op : Operator} (hop : op ≠ .pow) {a b : Fraction} {r : ℚ} {v : Number}
    (ha : a.Reduced) (hb : b.Reduced) (hr : op.denote a.value b.value = some r)
    (h : rationalOp op a b = .ok v) : v.Writes r := by
  cases op with
  | add =>
      cases hr
      exact writes_of_bind_ofFraction (fun c hc => (Fraction.add_spec ha.1 hb.1 hc).imp_left
        Fraction.WellFormed.reduced) h
  | sub =>
      cases hr
      exact writes_of_bind_ofFraction (fun c hc => (Fraction.sub_spec ha.1 hb.1 hc).imp_left
        Fraction.WellFormed.reduced) h
  | mul =>
      cases hr
      exact writes_of_bind_ofFraction (fun c hc => (Fraction.mul_spec ha.1 hb.1 hc).imp_left
        Fraction.WellFormed.reduced) h
  | div =>
      simp only [Operator.denote, Fraction.value_eq_zero_iff hb, Option.ite_none_left_eq_some,
        Option.some.injEq] at hr
      obtain ⟨hn, rfl⟩ := hr
      simp only [rationalOp, if_neg hn] at h
      exact writes_of_bind_ofFraction (fun c hc => (Fraction.div_spec ha.1 hb.1 hn hc).imp_left
        Fraction.WellFormed.reduced) h
  | pow => exact absurd rfl hop

theorem scalar_writes {op : Operator} (hop : op ≠ .pow) {a b v : Number} {p q r : ℚ}
    (ha : a.Reduced) (hb : b.Reduced) (hp : a.value? = some p) (hq : b.value? = some q)
    (hr : op.denote p q = some r) (h : scalar op a b = .ok v) : v.Writes r := by
  cases a with
  | integer m =>
      cases hp
      cases b with
      | integer n => cases hq; exact integerOp_writes hop hr h
      | rational y =>
          cases hq
          exact rationalOp_writes hop (Fraction.ofInt_reduced m) hb
            (by rwa [Fraction.ofInt_value]) h
      | float y => cases hq
  | rational x =>
      cases hp
      cases b with
      | integer n =>
          cases hq
          exact rationalOp_writes hop ha (Fraction.ofInt_reduced n)
            (by rwa [Fraction.ofInt_value]) h
      | rational y => cases hq; exact rationalOp_writes hop ha hb hr h
      | float y => cases hq
  | float x => cases hp

/-! ## Powers -/

theorem mulWords_spec {a b c : Int} (h : mulWords a b = .ok c) :
    Word.Fits c ∧ (c : ℚ) = a * b := by
  obtain ⟨hc, rfl⟩ := Word.checked_eq_ok_iff.mp h
  exact ⟨hc, Int.cast_mul a b⟩

theorem zpow_eq_pow_natAbs (p : ℚ) {e : Int} (he : 0 ≤ e) : p ^ e = p ^ e.natAbs := by
  rw [← zpow_natCast, Int.natAbs_of_nonneg he]

theorem zpow_eq_inv_pow_natAbs (p : ℚ) {e : Int} (he : e < 0) : p ^ e = p⁻¹ ^ e.natAbs := by
  rw [← zpow_natCast, Int.ofNat_natAbs_of_nonpos he.le, inv_zpow', neg_neg]

theorem powerBase_cases {base c : Fraction} {e : Int} (h : powerBase base e = .ok c) :
    (0 ≤ e ∧ c = base) ∨
      (e < 0 ∧ base.numerator ≠ 0 ∧ base.numerator ≠ Word.least ∧ c = base.inverse) := by
  unfold powerBase at h
  split at h
  · split at h
    · cases h
    split at h
    · cases h
    · exact .inr ⟨‹_›, ‹_›, ‹_›, (Fraction.reciprocal_eq_ok h).2⟩
  · cases h; exact .inl ⟨by omega, rfl⟩

theorem powerBase_value {base c : Fraction} {e : Int} (hb : base.Reduced)
    (h : powerBase base e = .ok c) : c.Reduced ∧ c.value ^ e.natAbs = base.value ^ e := by
  rcases powerBase_cases h with ⟨he, rfl⟩ | ⟨he, hne, -, rfl⟩
  · exact ⟨hb, (zpow_eq_pow_natAbs _ he).symm⟩
  · rw [Fraction.inverse_value]
    exact ⟨hb.inverse hne, (zpow_eq_inv_pow_natAbs _ he).symm⟩

theorem exactPower_writes {base : Fraction} {e : Int} {v : Number} (hb : base.Reduced)
    (h : exactPower base e = .ok v) : v.Writes (base.value ^ e) := by
  obtain ⟨c, hbase, h⟩ := Result.bind_eq_ok_iff.mp h
  obtain ⟨hc, hv⟩ := powerBase_value hb hbase
  refine writes_of_bind_ofFraction (fun r hr => ?_) h
  rw [← hv]
  exact Power.raise_spec Fraction.Reduced Fraction.value
    (fun a b c ha hb h => (Fraction.mul_spec ha.1 hb.1 h).imp_left Fraction.WellFormed.reduced)
    ⟨Fraction.ofInt_reduced 1, by simp⟩ hc hr

theorem integerPower_writes {b e : Int} {v : Number} (he : 0 ≤ e)
    (h : (Power.raise mulWords 1 b e.natAbs).map .integer = .ok v) : v.Writes ((b : ℚ) ^ e) := by
  obtain ⟨c, hc, rfl⟩ := Result.map_eq_ok_iff.mp h
  have hspec := Power.raise_spec (fun _ => True) (fun n : Int => (n : ℚ))
    (fun _ _ _ _ _ h => ⟨trivial, (mulWords_spec h).2⟩) ⟨trivial, Int.cast_one⟩ trivial hc
  refine ⟨trivial, ?_⟩
  rw [zpow_eq_pow_natAbs _ he, ← hspec.2]
  rfl

theorem power_writes {a b v : Number} {p q r : ℚ} (ha : a.Reduced) (hb : b.Reduced)
    (hp : a.value? = some p) (hq : b.value? = some q) (hr : Operator.pow.denote p q = some r)
    (h : power a b = .ok v) : v.Writes r := by
  simp only [Operator.denote, Option.ite_none_right_eq_some, Option.some.injEq] at hr
  obtain ⟨⟨hden, -⟩, rfl⟩ := hr
  have hexact : b.exactInteger? = some q.num := by rw [exactInteger?_eq hb hq, if_pos hden]
  cases a with
  | integer n =>
      cases hp
      simp only [power, hexact] at h
      split at h
      · have hpow := exactPower_writes (Fraction.ofInt_reduced n) h
        rwa [Fraction.ofInt_value] at hpow
      · exact integerPower_writes (by omega) h
  | rational x =>
      cases hp
      simp only [power, hexact] at h
      exact exactPower_writes ha h
  | float x => cases hp

/-! ## The operators together -/

theorem apply_writes {op : Operator} {a b v : Number} {p q r : ℚ} (ha : a.Reduced)
    (hb : b.Reduced) (hp : a.value? = some p) (hq : b.value? = some q)
    (hr : op.denote p q = some r) (h : apply op a b = .ok v) : v.Writes r := by
  cases op with
  | pow => exact power_writes ha hb hp hq hr h
  | _ => exact scalar_writes (by decide) ha hb hp hq hr h

theorem scalar_float {op : Operator} {a b v : Number} (hab : a.value? = none ∨ b.value? = none)
    (h : scalar op a b = .ok v) : v.value? = none := by
  have hpromote : ∃ x y, a.promote b = .floats x y := by
    rcases hab with hab | hab
    · cases a <;> simp [value?] at hab
      exact ⟨_, _, rfl⟩
    · cases b <;> simp [value?] at hab
      cases a <;> exact ⟨_, _, rfl⟩
  obtain ⟨x, y, hxy⟩ := hpromote
  simp only [scalar, hxy] at h
  cases op with
  | div =>
      simp only [floatOp] at h
      split at h
      · cases h
      · cases h; rfl
  | _ => cases h; rfl

theorem power_float {a b v : Number} (hab : a.value? = none ∨ b.exactInteger? = none)
    (h : power a b = .ok v) : v.value? = none := by
  unfold power at h
  split at h
  · simp_all [value?]
  · simp_all [value?]
  · cases h; rfl

/-- A double as an operand makes the result a double. -/
theorem apply_float {op : Operator} {a b v : Number} (hab : a.value? = none ∨ b.value? = none)
    (h : apply op a b = .ok v) : v.value? = none := by
  cases op with
  | pow =>
      -- A power takes the integer path on exact operands only.
      refine power_float (hab.imp_right fun hb => ?_) h
      cases b <;> simp_all [value?, exactInteger?]
  | _ => exact scalar_float hab h

/-! ## Where nothing is denoted -/

theorem scalar_div_zero {a b : Number} {p : ℚ} (hb : b.Reduced) (hp : a.value? = some p)
    (hq : b.value? = some 0) : scalar .div a b = .error .divisionByZero := by
  cases b with
  | integer n =>
      have hn : n = 0 := Int.cast_eq_zero.mp (Option.some.inj hq)
      subst hn
      cases a with
      | integer m => rfl
      | rational x => rfl
      | float x => cases hp
  | rational y =>
      have hy : y.numerator = 0 := (Fraction.value_eq_zero_iff hb).mp (Option.some.inj hq)
      cases a with
      | integer m => exact if_pos hy
      | rational x => exact if_pos hy
      | float x => cases hp
  | float y => cases hq

theorem exactPower_zero {base : Fraction} {e : Int} (hbase : base.numerator = 0) (he : e < 0) :
    exactPower base e = .error .divisionByZero := by
  unfold exactPower powerBase
  rw [if_pos he, if_pos hbase]
  rfl

theorem power_zero {a b : Number} {e : Int} (ha : a.Reduced) (hp : a.value? = some 0)
    (hb : b.exactInteger? = some e) (he : e < 0) : power a b = .error .divisionByZero := by
  cases a with
  | integer n =>
      have hn : n = 0 := Int.cast_eq_zero.mp (Option.some.inj hp)
      simp only [power, hb, if_pos he]
      exact exactPower_zero hn he
  | rational x =>
      simp only [power, hb]
      exact exactPower_zero ((Fraction.value_eq_zero_iff ha).mp (Option.some.inj hp)) he
  | float x => cases hp

/-- Only a power whose exponent is not whole goes through where nothing is denoted. -/
theorem apply_undefined {op : Operator} {a b v : Number} {p q : ℚ} (ha : a.Reduced)
    (hb : b.Reduced) (hp : a.value? = some p) (hq : b.value? = some q)
    (hr : op.denote p q = none) (h : apply op a b = .ok v) : v.value? = none := by
  cases op with
  | add => cases hr
  | sub => cases hr
  | mul => cases hr
  | div =>
      simp only [Operator.denote, ite_eq_left_iff, reduceCtorEq, imp_false, not_not] at hr
      subst hr
      cases (scalar_div_zero hb hp hq).symm.trans h
  | pow =>
      simp only [Operator.denote, ite_eq_right_iff, reduceCtorEq, imp_false, not_and] at hr
      have hexact := exactInteger?_eq hb hq
      by_cases hden : q.den = 1
      · have hzero := hr hden
        push Not at hzero
        obtain ⟨rfl, hneg⟩ := hzero
        rw [if_pos hden] at hexact
        cases (power_zero ha hp hexact (Rat.num_neg.mpr hneg)).symm.trans h
      · exact power_float (.inr (by rw [hexact, if_neg hden])) h

end LineCalc.Number
