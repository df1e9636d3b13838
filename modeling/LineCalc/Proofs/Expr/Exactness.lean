import LineCalc.Proofs.Number.Traps
import LineCalc.Proofs.SymbolTable

/-!
# Evaluation is exact

An evaluation ends with a value, an error or a trap. A value is the rational number that the expression
denotes, or a double if it denotes none. Where it denotes one, the only error is an overflow. A trap
comes of an operator in the expression that traps at the values of its operands.
-/

namespace LineCalc

/-- Every fraction in the table is in lowest terms. -/
def SymbolTable.Reduced (t : SymbolTable) : Prop := ∀ b ∈ t.entries, b.2.Reduced

theorem SymbolTable.WellFormed.reduced {t : SymbolTable} (ht : t.WellFormed) : t.Reduced :=
  fun b hb => (ht b hb).reduced

namespace Number

variable {a b v : Number}

theorem reduced_of_value?_eq_none (h : v.value? = none) : v.Reduced := by
  cases v with
  | float x => trivial
  | _ => cases h

theorem ofLiteral_value? {l : Literal} (h : ofLiteral l = .ok v) :
    v.Reduced ∧ v.value? = l.value? := by
  cases l with
  | integer n => cases h; exact ⟨trivial, rfl⟩
  | float x => cases h; exact ⟨trivial, rfl⟩
  | ratio n d => rw [Literal.value?, if_neg (ratio_eq_ok h).1]; exact ratio_writes h

theorem negate_value? (ha : a.Reduced) (h : a.negate = .ok v) :
    v.Reduced ∧ v.value? = a.value?.map (- ·) := by
  cases hp : a.value? with
  | none =>
      cases a with
      | float x => cases h; exact ⟨trivial, rfl⟩
      | _ => cases hp
  | some p => exact negate_writes ha hp h

theorem apply_value? {op : Operator} (ha : a.Reduced) (hb : b.Reduced)
    (h : apply op a b = .ok v) :
    v.Reduced ∧ v.value? = a.value?.bind fun p => b.value?.bind fun q => op.denote p q := by
  have hnone (hv : v.value? = none) : v.Reduced ∧ v.value? = none :=
    ⟨reduced_of_value?_eq_none hv, hv⟩
  cases hp : a.value? with
  | none => exact hnone (apply_float (.inl hp) h)
  | some p =>
      cases hq : b.value? with
      | none => exact hnone (apply_float (.inr hq) h)
      | some q =>
          simp only [Option.bind_some]
          cases hr : op.denote p q with
          | none => exact hnone (apply_undefined ha hb hp hq hr h)
          | some r => exact apply_writes ha hb hp hq hr h

/-- Where an operator denotes something, it is refused only for a number that is too large. -/
theorem apply_eq_error {op : Operator} {p q r : ℚ} {err : ArithmeticError} (ha : a.WellFormed)
    (hb : b.WellFormed) (hp : a.value? = some p) (hq : b.value? = some q)
    (hr : op.denote p q = some r) (h : apply op a b = .error err) : err = .overflow := by
  have htraps : ¬ Traps op a b := fun htraps => by
    rw [(apply_eq_trap_iff ha hb).mpr htraps] at h
    cases h
  exact (apply_settled ha hb hp hq hr htraps).eq_overflow h

end Number

namespace Expr

variable {table : SymbolTable} {e : Expr} {v : Number}

/-! ## Values -/

theorem eval_value? (ht : table.Reduced) (h : e.eval table = .ok v) :
    v.Reduced ∧ v.value? = e.denote table := by
  induction e generalizing v with
  | literal l => exact Number.ofLiteral_value? (Result.mapError_eq_ok_iff.mp h)
  | var name =>
      simp only [eval] at h
      split at h
      · rename_i value hvalue
        cases h
        exact ⟨ht _ (SymbolTable.mem_of_get? hvalue), by rw [denote, hvalue]; rfl⟩
      · cases h
  | negate e ih =>
      obtain ⟨a, ha, h⟩ := Result.bind_eq_ok_iff.mp h
      obtain ⟨hred, hvalue⟩ := ih ha
      rw [denote, ← hvalue]
      exact Number.negate_value? hred (Result.mapError_eq_ok_iff.mp h)
  | group e ih => exact ih h
  | binary op l r ihl ihr =>
      obtain ⟨a, ha, h⟩ := Result.bind_eq_ok_iff.mp h
      obtain ⟨b, hb, h⟩ := Result.bind_eq_ok_iff.mp h
      obtain ⟨hreda, hvaluea⟩ := ihl ha
      obtain ⟨hredb, hvalueb⟩ := ihr hb
      rw [denote, ← hvaluea, ← hvalueb]
      exact Number.apply_value? hreda hredb (Result.mapError_eq_ok_iff.mp h)

/-! ## Well-formed values -/

/-- The literals in the expression are made of words. -/
def LiteralsFit (e : Expr) : Prop := ∀ l, .literal l ∈ e.tokens → l.Fits

namespace LiteralsFit

variable {op : Operator} {l r : Expr}

theorem negate (h : e.negate.LiteralsFit) : e.LiteralsFit :=
  fun x hx => h x (List.mem_cons_of_mem _ hx)

theorem group (h : e.group.LiteralsFit) : e.LiteralsFit :=
  fun x hx => h x (List.mem_cons_of_mem _ (List.mem_append_left _ hx))

theorem left (h : (binary op l r).LiteralsFit) : l.LiteralsFit :=
  fun x hx => h x (List.mem_append_left _ hx)

theorem right (h : (binary op l r).LiteralsFit) : r.LiteralsFit :=
  fun x hx => h x (List.mem_append_right _ (List.mem_cons_of_mem _ hx))

end LiteralsFit

theorem eval_wellFormed (ht : table.WellFormed) (he : e.LiteralsFit) (h : e.eval table = .ok v) :
    v.WellFormed := by
  induction e generalizing v with
  | literal l =>
      exact Number.ofLiteral_wellFormed (he l List.mem_cons_self) (Result.mapError_eq_ok_iff.mp h)
  | var name =>
      simp only [eval] at h
      split at h
      · rename_i value hvalue
        cases h
        exact ht _ (SymbolTable.mem_of_get? hvalue)
      · cases h
  | negate e ih =>
      obtain ⟨a, ha, h⟩ := Result.bind_eq_ok_iff.mp h
      exact Number.negate_wellFormed (ih he.negate ha) (Result.mapError_eq_ok_iff.mp h)
  | group e ih => exact ih he.group h
  | binary op l r ihl ihr =>
      obtain ⟨a, ha, h⟩ := Result.bind_eq_ok_iff.mp h
      obtain ⟨b, hb, h⟩ := Result.bind_eq_ok_iff.mp h
      exact Number.apply_wellFormed (ihl he.left ha) (ihr he.right hb)
        (Result.mapError_eq_ok_iff.mp h)

/-! ## Errors and traps -/

theorem overflow_of_settled {result : Result ArithmeticError Number} {err : EvalError}
    (h : Word.Settled result) (herr : result.mapError EvalError.arithmetic = .error err) :
    err = .arithmetic .overflow := by
  obtain ⟨e, he, rfl⟩ := Result.mapError_eq_error_iff.mp herr
  rw [h.eq_overflow he]

/-- Where something is denoted, nothing fails but for a number that is too large. -/
theorem overflow_of_denote {q : ℚ} {err : EvalError} (ht : table.WellFormed) (he : e.LiteralsFit)
    (hq : e.denote table = some q) (h : e.eval table = .error err) :
    err = .arithmetic .overflow := by
  induction e generalizing q with
  | literal l =>
      refine overflow_of_settled ?_ h
      cases l with
      | integer n => exact .ok _
      | float x => cases hq
      | ratio n d =>
          simp only [denote, Literal.value?, Option.ite_none_left_eq_some] at hq
          obtain ⟨hn, hd⟩ := he _ List.mem_cons_self
          exact Number.ratio_settled hn hd hq.1
  | var name =>
      obtain ⟨v, hv, -⟩ := Option.bind_eq_some_iff.mp hq
      simp only [eval, hv] at h
      cases h
  | negate e ih =>
      obtain ⟨p, hp, -⟩ := Option.map_eq_some_iff.mp hq
      rcases Result.bind_eq_error_iff.mp h with h | ⟨a, ha, h⟩
      · exact ih he.negate hp h
      · exact overflow_of_settled (Number.negate_settled (eval_wellFormed ht he.negate ha)) h
  | group e ih => exact ih he.group hq h
  | binary op l r ihl ihr =>
      obtain ⟨p, hp, hq⟩ := Option.bind_eq_some_iff.mp hq
      obtain ⟨q, hq, hr⟩ := Option.bind_eq_some_iff.mp hq
      rcases Result.bind_eq_error_iff.mp h with h | ⟨a, ha, h⟩
      · exact ihl he.left hp h
      rcases Result.bind_eq_error_iff.mp h with h | ⟨b, hb, h⟩
      · exact ihr he.right hq h
      have hpa := (eval_value? ht.reduced ha).2.trans hp
      have hqb := (eval_value? ht.reduced hb).2.trans hq
      obtain ⟨err, herr, rfl⟩ := Result.mapError_eq_error_iff.mp h
      rw [Number.apply_eq_error (eval_wellFormed ht he.left ha) (eval_wellFormed ht he.right hb)
        hpa hqb hr herr]

/-- An operator in the expression has operands at which it traps. -/
def TrapsIn (table : SymbolTable) (e : Expr) : Prop :=
  ∃ op l r x y, .binary op l r ∈ e.subexpressions ∧ l.eval table = .ok x ∧ r.eval table = .ok y ∧
    Number.Traps op x y

theorem TrapsIn.of_subset {e' : Expr} (h : e.TrapsIn table)
    (hsub : e.subexpressions ⊆ e'.subexpressions) : e'.TrapsIn table := by
  obtain ⟨op, l, r, x, y, hmem, htraps⟩ := h
  exact ⟨op, l, r, x, y, hsub hmem, htraps⟩

theorem trapsIn_of_eval_eq_trap (ht : table.WellFormed) (he : e.LiteralsFit)
    (h : e.eval table = .trap) : e.TrapsIn table := by
  induction e with
  | literal l =>
      exact absurd (Result.mapError_eq_trap_iff.mp h)
        (Number.ofLiteral_ne_trap (he l List.mem_cons_self))
  | var name =>
      simp only [eval] at h
      split at h <;> cases h
  | negate e ih =>
      rcases Result.bind_eq_trap_iff.mp h with h | ⟨a, ha, h⟩
      · exact (ih he.negate h).of_subset (List.subset_append_left _ _)
      · exact absurd (Result.mapError_eq_trap_iff.mp h)
          (Number.negate_settled (eval_wellFormed ht he.negate ha)).ne_trap
  | group e ih => exact (ih he.group h).of_subset (List.subset_append_left _ _)
  | binary op l r ihl ihr =>
      rcases Result.bind_eq_trap_iff.mp h with h | ⟨a, ha, h⟩
      · exact (ihl he.left h).of_subset fun s hs =>
          List.mem_append_left _ (List.mem_append_left _ hs)
      rcases Result.bind_eq_trap_iff.mp h with h | ⟨b, hb, h⟩
      · exact (ihr he.right h).of_subset fun s hs =>
          List.mem_append_left _ (List.mem_append_right _ hs)
      have htraps := (Number.apply_eq_trap_iff (eval_wellFormed ht he.left ha)
        (eval_wellFormed ht he.right hb)).mp (Result.mapError_eq_trap_iff.mp h)
      exact ⟨op, l, r, a, b, List.mem_append_right _ List.mem_cons_self, ha, hb, htraps⟩

/-! ## Whole expressions -/

/-- Where the expression denotes a rational number, evaluation yields this number, or it overflows, or it
traps at a quotient of zero by a fraction with the least word above. And an exact number that it yields
is the one that the expression denotes. -/
theorem eval_exact (ht : table.WellFormed) (he : e.LiteralsFit) :
    (∀ q, e.denote table = some q →
      (∃ v, e.eval table = .ok v ∧ v.IsExact ∧ v.value? = some q) ∨
        e.eval table = .error (.arithmetic .overflow) ∨
        e.eval table = .trap ∧ e.TrapsIn table) ∧
    (∀ v, e.eval table = .ok v → v.IsExact →
      ∃ q, e.denote table = some q ∧ v.value? = some q) := by
  constructor
  · intro q hq
    cases h : e.eval table with
    | ok v =>
        have hv := (eval_value? ht.reduced h).2.trans hq
        exact .inl ⟨v, rfl, Number.isExact_iff.mpr ⟨q, hv⟩, hv⟩
    | error err =>
        cases overflow_of_denote ht he hq h
        exact .inr (.inl rfl)
    | trap => exact .inr (.inr ⟨rfl, trapsIn_of_eval_eq_trap ht he h⟩)
  · intro v h hexact
    obtain ⟨q, hq⟩ := Number.isExact_iff.mp hexact
    exact ⟨q, (eval_value? ht.reduced h).2.symm.trans hq, hq⟩

/-- A negative fraction to a negative exponent. -/
theorem eval_exact_reciprocal_cube :
    let table : SymbolTable := ⟨[("x", .rational ⟨-2, 3⟩)]⟩
    let e : Expr := .binary .pow (.var "x") (.negate (.literal (.integer 3)))
    table.WellFormed ∧ e.LiteralsFit ∧ e.denote table = some (-27 / 8) ∧
      e.eval table = .ok (.rational ⟨-27, 8⟩) ∧
      ((∃ v, e.eval table = .ok v ∧ v.IsExact ∧ v.value? = some (-27 / 8)) ∨
        e.eval table = .error (.arithmetic .overflow) ∨
        e.eval table = .trap ∧ e.TrapsIn table) := by
  intro table e
  have ht : table.WellFormed := by decide
  have he : e.LiteralsFit := by
    intro l hl
    have hthree : l = .integer 3 := by simpa [e, tokens] using hl
    subst hthree
    exact (by decide : Word.Fits 3)
  have hd : e.denote table = some (-27 / 8) := by decide +kernel
  exact ⟨ht, he, hd, by decide +kernel, (eval_exact ht he).1 _ hd⟩

/-- A difference of two fractions has the least word above, and zero divided by it is zero. -/
theorem eval_traps_at_zero :
    let third (n : Int) : Expr := .literal (.ratio n 3)
    let least : Expr := .binary .sub (.negate (third 9223372036854775807)) (third 1)
    let e : Expr := .binary .div (.literal (.integer 0)) (.group least)
    let table : SymbolTable := ∅
    least.eval table = .ok (.rational ⟨Word.least, 3⟩) ∧ e.denote table = some 0 ∧
      e.eval table = .trap ∧
      ¬ ((∃ v, e.eval table = .ok v ∧ v.IsExact ∧ v.value? = some 0) ∨
        e.eval table = .error (.arithmetic .overflow)) := by
  intro third least e table
  have htrap : e.eval table = .trap := by decide
  refine ⟨by decide, by decide +kernel, htrap, ?_⟩
  simp [htrap]

end Expr

end LineCalc
