import LineCalc.Proofs.Number.Value

/-!
# Operators keep numbers well formed

Whatever makes a number of well-formed numbers, or of words, makes a well-formed one: literals,
negation, the reciprocal under a negative exponent, and the five operators.
-/

namespace LineCalc

namespace Fraction

theorem ofInt_wellFormed {n : Int} (h : Word.Fits n) : (ofInt n).WellFormed :=
  (ofInt_reduced n).wellFormed h (show Word.Fits 1 by decide)

theorem ofInt_wellFormed_iff {n : Int} : (ofInt n).WellFormed ↔ Word.Fits n :=
  ⟨And.left, ofInt_wellFormed⟩

theorem lowest_wellFormed_of_ne_least {n d : Int} (hn : Word.Fits n) (hd : Word.Fits d)
    (hn' : n ≠ Word.least) (hd' : d ≠ Word.least) (hne : d ≠ 0) : (lowest n d).WellFormed := by
  -- With the signs of both parts changed beforehand, no sign is left to move.
  rcases lt_or_gt_of_ne hne with hneg | hpos
  · rw [← lowest_neg_neg hne]
    exact lowest_wellFormed (hn.neg hn') (hd.neg hd') (by omega)
  · exact lowest_wellFormed hn hd hpos

theorem raise_wellFormed {base c : Fraction} {n : Nat} (hb : base.WellFormed)
    (h : Power.raise mul (ofInt 1) base n = .ok c) : c.WellFormed :=
  (Power.raise_spec WellFormed value
    (fun _ _ _ ha hb h => mul_spec ha.reduced.1 hb.reduced.1 h)
    ⟨ofInt_wellFormed (by decide), by simp⟩ hb h).1

end Fraction

namespace Number

theorem WellFormed.reduced {v : Number} (h : v.WellFormed) : v.Reduced := by
  cases v with
  | rational q => exact Fraction.WellFormed.reduced h
  | _ => trivial

variable {a b v : Number}

theorem checked_wellFormed {n : Int} (h : (Word.checked n).map .integer = .ok v) :
    v.WellFormed := by
  obtain ⟨m, hm, rfl⟩ := Result.map_eq_ok_iff.mp h
  obtain ⟨hfits, rfl⟩ := Word.checked_eq_ok_iff.mp hm
  exact hfits

theorem collapse_wellFormed {q : Fraction} (h : q.WellFormed) : (collapse q).WellFormed := by
  unfold collapse
  split
  · exact h.1
  · exact h

theorem fraction_wellFormed {result : Result ArithmeticError Fraction}
    (hresult : ∀ c, result = .ok c → c.WellFormed)
    (h : (result >>= ofFraction) = .ok v) : v.WellFormed := by
  obtain ⟨c, hc, rfl⟩ := exists_of_bind_ofFraction h
  exact collapse_wellFormed (hresult c hc)

theorem ratio_wellFormed {n d : Int} (h : ratio n d = .ok v) : v.WellFormed := by
  obtain ⟨-, rfl, hwf⟩ := ratio_eq_ok h
  exact hwf

theorem ofLiteral_wellFormed {l : Literal} (hl : l.Fits) (h : ofLiteral l = .ok v) :
    v.WellFormed := by
  cases l with
  | integer n => cases h; exact hl
  | float x => cases h; trivial
  | ratio n d => exact ratio_wellFormed h

theorem negate_wellFormed (ha : a.WellFormed) (h : a.negate = .ok v) : v.WellFormed := by
  cases a with
  | integer n => exact checked_wellFormed h
  | rational q =>
      obtain ⟨hleast, rfl⟩ := negate_rational_eq_ok h
      exact (Fraction.neg_numerator_reduced ha.reduced).wellFormed (ha.1.neg hleast) ha.2.1
  | float x => cases h; trivial

/-! ## Powers -/

theorem powerBase_wellFormed {base c : Fraction} {e : Int} (hb : base.WellFormed)
    (h : powerBase base e = .ok c) : c.WellFormed := by
  rcases powerBase_cases h with ⟨-, rfl⟩ | ⟨-, hzero, hleast, rfl⟩
  · exact hb
  · exact Fraction.inverse_wellFormed hb hzero hleast

theorem exactPower_wellFormed {base : Fraction} {e : Int} (hb : base.WellFormed)
    (h : exactPower base e = .ok v) : v.WellFormed := by
  obtain ⟨c, hc, h⟩ := Result.bind_eq_ok_iff.mp h
  exact fraction_wellFormed (fun r => Fraction.raise_wellFormed (powerBase_wellFormed hb hc)) h

theorem integerPower_wellFormed {b : Int} {n : Nat} (hb : Word.Fits b)
    (h : (Power.raise mulWords 1 b n).map .integer = .ok v) : v.WellFormed := by
  obtain ⟨c, hc, rfl⟩ := Result.map_eq_ok_iff.mp h
  exact (Power.raise_spec Word.Fits (fun n : Int => (n : ℚ))
    (fun _ _ _ _ _ h => mulWords_spec h) ⟨by decide, Int.cast_one⟩ hb hc).1

theorem power_wellFormed (ha : a.WellFormed) (h : power a b = .ok v) : v.WellFormed := by
  unfold power at h
  split at h
  · split at h
    · exact exactPower_wellFormed (Fraction.ofInt_wellFormed ha) h
    · exact integerPower_wellFormed ha h
  · exact exactPower_wellFormed ha h
  · cases h; trivial

/-! ## The other operators -/

theorem integerOp_wellFormed {op : Operator} {m n : Int} (hm : Word.Fits m)
    (h : integerOp op m n = .ok v) : v.WellFormed := by
  cases op with
  | add => exact checked_wellFormed h
  | sub => exact checked_wellFormed h
  | mul => exact checked_wellFormed h
  | div =>
      simp only [integerOp] at h
      split at h
      · cases h
      split at h
      · exact checked_wellFormed h
      · exact ratio_wellFormed h
  | pow => exact power_wellFormed (a := .integer m) (b := .integer n) hm h

theorem rationalOp_wellFormed {op : Operator} {p q : Fraction} (hp : p.WellFormed)
    (hq : q.WellFormed) (h : rationalOp op p q = .ok v) : v.WellFormed := by
  have hp' := hp.reduced.1
  have hq' := hq.reduced.1
  cases op with
  | add => exact fraction_wellFormed (fun c hc => (Fraction.add_spec hp' hq' hc).1) h
  | sub => exact fraction_wellFormed (fun c hc => (Fraction.sub_spec hp' hq' hc).1) h
  | mul => exact fraction_wellFormed (fun c hc => (Fraction.mul_spec hp' hq' hc).1) h
  | div =>
      simp only [rationalOp] at h
      split at h
      · cases h
      · exact fraction_wellFormed (fun c hc => (Fraction.div_spec hp' hq' ‹_› hc).1) h
  | pow => exact power_wellFormed (a := .rational p) (b := .rational q) hp h

theorem floatOp_wellFormed {op : Operator} {x y : Float} (h : floatOp op x y = .ok v) :
    v.WellFormed := by
  cases op with
  | div =>
      simp only [floatOp] at h
      split at h
      · cases h
      · cases h; trivial
  | _ => cases h; trivial

theorem scalar_wellFormed {op : Operator} (ha : a.WellFormed) (hb : b.WellFormed)
    (h : scalar op a b = .ok v) : v.WellFormed := by
  unfold scalar promote at h
  split at h <;> rename_i hpromote <;> split at hpromote <;> cases hpromote
  · exact integerOp_wellFormed ha h
  · exact rationalOp_wellFormed (Fraction.ofInt_wellFormed ha) hb h
  · exact rationalOp_wellFormed ha (Fraction.ofInt_wellFormed hb) h
  · exact rationalOp_wellFormed ha hb h
  · exact floatOp_wellFormed h

theorem apply_wellFormed {op : Operator} (ha : a.WellFormed) (hb : b.WellFormed)
    (h : apply op a b = .ok v) : v.WellFormed := by
  cases op with
  | pow => exact power_wellFormed ha h
  | _ => exact scalar_wellFormed ha hb h

end Number

end LineCalc
