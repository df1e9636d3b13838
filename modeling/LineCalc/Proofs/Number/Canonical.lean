import LineCalc.Proofs.Number.Collapse
import LineCalc.Proofs.Number.Text
import Mathlib

/-!
# One number for each value

A fraction that is written may be whole, and one that is negated stays what it is. But no operator leaves
a fraction that is whole, so the exact results of two operators are the same number, and are written
alike, just if they have the same value. So numbers satisfy what rational numbers do, such as the laws of
sums and products, as far as all the results exist.
-/

namespace LineCalc.Number

variable {a b c v w : Number} {op : Operator} {p q r : ℚ}

/-! ## Canonical numbers -/

/-- A fraction is in lowest terms and not whole. -/
def Canonical : Number → Prop
  | .rational q => q.Reduced ∧ ¬ q.IsWhole
  | _ => True

theorem Canonical.of_apply (ha : a.WellFormed) (hb : b.WellFormed) (h : apply op a b = .ok v) :
    v.Canonical := by
  cases v with
  | rational f => exact ⟨(apply_wellFormed ha hb h).reduced, (apply_collapsed h trivial).not_isWhole⟩
  | _ => trivial

theorem isWhole_of_value_eq {f : Fraction} {n : Int} (hf : f.Reduced) (h : f.value = n) :
    f.IsWhole := by
  obtain rfl : f = .ofInt n :=
    hf.eq_of_value (Fraction.ofInt_reduced n) (h.trans (Fraction.ofInt_value n).symm)
  rfl

theorem Canonical.exists_integer_iff (hv : v.Canonical) :
    (∃ n, v = .integer n) ↔ ∃ n : Int, v.value? = some (n : ℚ) := by
  constructor
  · rintro ⟨n, rfl⟩
    exact ⟨n, rfl⟩
  · rintro ⟨n, hn⟩
    cases v with
    | integer m => exact ⟨m, rfl⟩
    | rational f => exact absurd (isWhole_of_value_eq hv.1 (Option.some.inj hn)) hv.2
    | float x => cases hn

theorem Canonical.eq_of_value? (hv : v.Canonical) (hw : w.Canonical) (hp : v.value? = some p)
    (hq : w.value? = some p) : v = w := by
  cases v with
  | integer m =>
      obtain ⟨n, rfl⟩ := hw.exists_integer_iff.mpr ⟨m, hq.trans hp.symm⟩
      exact congrArg integer (Int.cast_injective (Option.some.inj (hp.trans hq.symm)))
  | rational f =>
      cases w with
      | integer n =>
          obtain ⟨m, hm⟩ := hv.exists_integer_iff.mpr ⟨n, hp.trans hq.symm⟩
          cases hm
      | rational g =>
          exact congrArg rational (hv.1.eq_of_value hw.1 (Option.some.inj (hp.trans hq.symm)))
      | float y => cases hq
  | float x => cases hp

/-! ## Texts -/

theorem backslash_not_mem_toString (n : Int) : '\\' ∉ (toString n).toList := by
  have hdigits : ∀ m : Nat, '\\' ∉ Nat.toDigits 10 m := fun m hmem =>
    absurd (Nat.isDigit_of_mem_toDigits (by decide) (by decide) hmem) (by decide)
  rcases lt_or_ge n 0 with hn | hn
  · rw [toString_of_neg hn, String.toList_append, toList_toString_of_nonneg (by omega)]
    exact List.not_mem_cons_of_ne_of_not_mem (by decide) (hdigits _)
  · rw [toList_toString_of_nonneg hn]
    exact hdigits _

theorem toString_injective {m n : Int} (h : toString m = toString n) : m = n := by
  rw [Int.toString_eq_repr, Int.toString_eq_repr] at h
  exact Int.repr_injective h

theorem toList_text_rational (f : Fraction) :
    (text (.rational f)).toList =
      (toString f.numerator).toList ++ '\\' :: (toString f.denominator).toList := by
  simp [text]

/-- Exact numbers that are written alike are the same. -/
theorem text_eq_iff (hv : v.IsExact) (hw : w.IsExact) : v.text = w.text ↔ v = w := by
  refine ⟨fun h => ?_, congrArg text⟩
  have hlist : v.text.toList = w.text.toList := congrArg String.toList h
  cases v with
  | integer m =>
      cases w with
      | integer n => exact congrArg integer (toString_injective h)
      | rational g =>
          rw [toList_text_rational] at hlist
          exact absurd (hlist ▸ List.mem_append_right _ List.mem_cons_self)
            (backslash_not_mem_toString m)
      | float y => exact hw.elim
  | rational f =>
      rw [toList_text_rational] at hlist
      cases w with
      | integer n =>
          exact absurd (hlist ▸ List.mem_append_right _ List.mem_cons_self)
            (backslash_not_mem_toString n)
      | rational g =>
          rw [toList_text_rational, List.append_cons_inj_of_notMem (backslash_not_mem_toString _)
            (backslash_not_mem_toString _), String.toList_inj, String.toList_inj] at hlist
          obtain ⟨hn, -, hd⟩ := hlist
          cases f
          cases g
          exact congrArg rational (congrArg₂ Fraction.mk (toString_injective hn) (toString_injective hd))
      | float y => exact hw.elim
  | float x => exact hv.elim

/-! ## Chains of operators -/

/-- If there is a result, it is the canonical number of this value. -/
def Yields (outcome : Result ArithmeticError Number) (q : ℚ) : Prop :=
  ∀ v, outcome = .ok v → v.WellFormed ∧ v.Canonical ∧ v.value? = some q

theorem Yields.of_apply (ha : a.WellFormed) (hb : b.WellFormed) (hp : a.value? = some p)
    (hq : b.value? = some q) (hr : op.denote p q = some r) : Yields (apply op a b) r := by
  intro v hv
  obtain ⟨-, hvalue⟩ := apply_writes ha.reduced hb.reduced hp hq hr hv
  exact ⟨apply_wellFormed ha hb hv, .of_apply ha hb hv, hvalue⟩

theorem Yields.bind {outcome : Result ArithmeticError Number}
    {f : Number → Result ArithmeticError Number} (h : Yields outcome p)
    (hf : ∀ v, v.WellFormed → v.value? = some p → Yields (f v) q) : Yields (outcome >>= f) q := by
  intro v hv
  obtain ⟨s, hs, hv⟩ := Result.bind_eq_ok_iff.mp hv
  obtain ⟨hwf, -, hvalue⟩ := h s hs
  exact hf s hwf hvalue v hv

/-- The results of two chains become operands. -/
theorem Yields.both {outcome other : Result ArithmeticError Number} (h : Yields outcome p)
    (h' : Yields other q) (hr : op.denote p q = some r) :
    Yields (do let x ← outcome; let y ← other; apply op x y) r :=
  h.bind fun _ hx hp => h'.bind fun _ hy hq => .of_apply hx hy hp hq hr

theorem Yields.unique {outcome other : Result ArithmeticError Number} (h : Yields outcome p)
    (h' : Yields other q) (hpq : p = q) (hv : outcome = .ok v) (hw : other = .ok w) : v = w := by
  obtain ⟨-, hcanonical, hvalue⟩ := h v hv
  obtain ⟨-, hcanonical', hvalue'⟩ := h' w hw
  exact hcanonical.eq_of_value? hcanonical' hvalue (hpq ▸ hvalue')

/-- Both ways to put parentheses. -/
theorem associative_of_denote {op : Operator} {f : ℚ → ℚ → ℚ} (hf : ∀ x y z, f (f x y) z = f x (f y z))
    (hop : ∀ x y, op.denote x y = some (f x y)) (ha : a.WellFormed) (hb : b.WellFormed)
    (hc : c.WellFormed) (hp : a.value? = some p) (hq : b.value? = some q) (hr : c.value? = some r)
    (hv : (do let x ← apply op a b; apply op x c) = .ok v)
    (hw : (do let x ← apply op b c; apply op a x) = .ok w) : v = w :=
  have hleft := (Yields.of_apply ha hb hp hq (hop p q)).bind fun _ hx hs =>
    .of_apply hx hc hs hr (hop (f p q) r)
  have hright := (Yields.of_apply hb hc hq hr (hop q r)).bind fun _ hx hs =>
    .of_apply ha hx hp hs (hop p (f q r))
  hleft.unique hright (hf p q r) hv hw

/-- Exact results of operators are the same number, and are written alike, just if they have the same
value, and they are whole numbers just if their values are. So sums and products are associative and
products distribute over sums on either side, as far as all the results exist. -/
theorem apply_same_iff_same_value :
    (∀ (op op' : Operator) (a b c d v w : Number),
      a.WellFormed → b.WellFormed → c.WellFormed → d.WellFormed →
      apply op a b = .ok v → apply op' c d = .ok w → v.IsExact → w.IsExact →
      (v = w ↔ v.value? = w.value?) ∧ (v.text = w.text ↔ v.value? = w.value?) ∧
        ((∃ n, v = .integer n) ↔ ∃ n : Int, v.value? = some (n : ℚ))) ∧
    ∀ a b c v w : Number, a.WellFormed → b.WellFormed → c.WellFormed →
      a.IsExact → b.IsExact → c.IsExact →
      (∀ op, op = .add ∨ op = .mul →
        (do let x ← apply op a b; apply op x c) = .ok v →
        (do let x ← apply op b c; apply op a x) = .ok w → v = w) ∧
      ((do let x ← apply .add b c; apply .mul a x) = .ok v →
        (do let x ← apply .mul a b; let y ← apply .mul a c; apply .add x y) = .ok w → v = w) ∧
      ((do let x ← apply .add a b; apply .mul x c) = .ok v →
        (do let x ← apply .mul a c; let y ← apply .mul b c; apply .add x y) = .ok w → v = w) := by
  constructor
  · intro op op' a b c d v w ha hb hc hd hv hw hvexact hwexact
    have hvc : v.Canonical := .of_apply ha hb hv
    have hwc : w.Canonical := .of_apply hc hd hw
    obtain ⟨p, hp⟩ := isExact_iff.mp hvexact
    have hsame : v = w ↔ v.value? = w.value? :=
      ⟨congrArg value?, fun h => hvc.eq_of_value? hwc hp (h ▸ hp)⟩
    exact ⟨hsame, (text_eq_iff hvexact hwexact).trans hsame, hvc.exists_integer_iff⟩
  · intro a b c v w ha hb hc haexact hbexact hcexact
    obtain ⟨p, hp⟩ := isExact_iff.mp haexact
    obtain ⟨q, hq⟩ := isExact_iff.mp hbexact
    obtain ⟨r, hr⟩ := isExact_iff.mp hcexact
    refine ⟨fun op hop => ?_, ?_, ?_⟩
    · rcases hop with rfl | rfl
      · exact associative_of_denote add_assoc (fun _ _ => rfl) ha hb hc hp hq hr
      · exact associative_of_denote mul_assoc (fun _ _ => rfl) ha hb hc hp hq hr
    · have hsum : Yields (do let x ← apply .add b c; apply .mul a x) (p * (q + r)) :=
        (Yields.of_apply hb hc hq hr rfl).bind fun _ hx hs => .of_apply ha hx hp hs rfl
      have hproducts : Yields
          (do let x ← apply .mul a b; let y ← apply .mul a c; apply .add x y) (p * q + p * r) :=
        (Yields.of_apply ha hb hp hq rfl).both (.of_apply ha hc hp hr rfl) rfl
      exact hsum.unique hproducts (mul_add p q r)
    · have hsum : Yields (do let x ← apply .add a b; apply .mul x c) ((p + q) * r) :=
        (Yields.of_apply ha hb hp hq rfl).bind fun _ hx hs => .of_apply hx hc hs hr rfl
      have hproducts : Yields
          (do let x ← apply .mul a c; let y ← apply .mul b c; apply .add x y) (p * r + q * r) :=
        (Yields.of_apply ha hc hp hr rfl).both (.of_apply hb hc hq hr rfl) rfl
      exact hsum.unique hproducts (add_mul p q r)

/-- Two as a quotient and as a power, and three halves, which is written otherwise. A half, a third and a
sixth add up to one in both ways, and a half of the last two is a quarter in both ways. -/
theorem apply_same_iff_same_value_half :
    let half : Number := .rational ⟨1, 2⟩
    let third : Number := .rational ⟨1, 3⟩
    let sixth : Number := .rational ⟨1, 6⟩
    half.WellFormed ∧ third.WellFormed ∧ sixth.WellFormed ∧
      apply .div (.integer 6) (.integer 3) = .ok (.integer 2) ∧
      apply .pow half (.integer (-1)) = .ok (.integer 2) ∧
      apply .div (.integer 3) (.integer 2) = .ok (.rational ⟨3, 2⟩) ∧
      (integer 2).text ≠ (rational ⟨3, 2⟩).text ∧
      (do let x ← apply .add half third; apply .add x sixth) = .ok (.integer 1) ∧
      (do let x ← apply .add third sixth; apply .add half x) = .ok (.integer 1) ∧
      (do let x ← apply .add third sixth; apply .mul half x) = .ok (.rational ⟨1, 4⟩) ∧
      (do let x ← apply .mul half third; let y ← apply .mul half sixth; apply .add x y) =
        .ok (.rational ⟨1, 4⟩) := by
  intro half third sixth
  have hhalf : half.WellFormed := by decide
  have hthird : third.WellFormed := by decide
  have hsixth : sixth.WellFormed := by decide
  have hwhole : apply .div (.integer 6) (.integer 3) = .ok (.integer 2) := by decide +kernel
  have hpower : apply .pow half (.integer (-1)) = .ok (.integer 2) := by decide +kernel
  have hhalves : apply .div (.integer 3) (.integer 2) = .ok (.rational ⟨3, 2⟩) := by decide +kernel
  have hsum : (do let x ← apply .add half third; apply .add x sixth) = .ok (.integer 1) := by
    decide +kernel
  have hproduct : (do let x ← apply .add third sixth; apply .mul half x) =
      .ok (.rational ⟨1, 4⟩) := by decide +kernel
  obtain ⟨hsame, hlaws⟩ := apply_same_iff_same_value
  obtain ⟨-, htext, -⟩ := hsame .pow .div half (.integer (-1)) (.integer 3) (.integer 2) _ _ hhalf
    (by decide) (by decide) (by decide) hpower hhalves trivial trivial
  -- The other ways have results too, which are the same.
  obtain ⟨v, hv⟩ : ∃ v, (do let x ← apply .add third sixth; apply .add half x) = .ok v := ⟨_, rfl⟩
  obtain ⟨w, hw⟩ : ∃ w, (do
      let x ← apply .mul half third
      let y ← apply .mul half sixth
      apply .add x y) = .ok w := ⟨_, rfl⟩
  obtain ⟨hassoc, -, -⟩ := hlaws half third sixth _ v hhalf hthird hsixth trivial trivial trivial
  obtain ⟨-, hdistrib, -⟩ := hlaws half third sixth _ w hhalf hthird hsixth trivial trivial trivial
  have hone : .integer 1 = v := hassoc .add (.inl rfl) hsum hv
  have hquarter : .rational ⟨1, 4⟩ = w := hdistrib hproduct hw
  refine ⟨hhalf, hthird, hsixth, hwhole, hpower, hhalves, ?_, hsum, hone ▸ hv, hproduct,
    hquarter ▸ hw⟩
  exact fun h => absurd (htext.mp h) (by decide +kernel)

end LineCalc.Number
