import LineCalc.Proofs.Expr.Exactness
import LineCalc.Proofs.Number.Collapse

/-!
# Where doubles come from

A double makes a double of whatever is computed from it. The other way round, a value that is a double
has its origin in the expression: a decimal, a name that is bound to a double, or a power whose exponent
is a fraction that is not whole.
-/

namespace LineCalc

namespace Expr

variable {table : SymbolTable} {e : Expr} {v : Number}

/-- A node at which a double comes in: a decimal, a name that is bound to a double, or a power whose
exponent is a fraction that is not whole. -/
def BringsDouble (table : SymbolTable) : Expr → Prop
  | .literal (.float _) => True
  | .var name => ∃ x, table.get? name = some (.float x)
  | .binary .pow _ exponent => ∃ q, exponent.eval table = .ok (.rational q) ∧ 1 < q.denominator
  | _ => False

/-- The expression has a node at which a double comes in. -/
def HasDouble (table : SymbolTable) (e : Expr) : Prop :=
  ∃ node ∈ e.subexpressions, node.BringsDouble table

theorem hasDouble_negate_iff : e.negate.HasDouble table ↔ e.HasDouble table := by
  simp [HasDouble, subexpressions, BringsDouble, or_and_right, exists_or]

theorem hasDouble_group_iff : e.group.HasDouble table ↔ e.HasDouble table := by
  simp [HasDouble, subexpressions, BringsDouble, or_and_right, exists_or]

theorem hasDouble_binary_iff {op : Operator} {l r : Expr} :
    (binary op l r).HasDouble table ↔
      (l.HasDouble table ∨ r.HasDouble table) ∨ (binary op l r).BringsDouble table := by
  simp [HasDouble, subexpressions, or_and_right, exists_or, or_assoc]

/-! ## Whole expressions -/

theorem eval_not_isExact_iff (ht : table.Reduced) (h : e.eval table = .ok v) :
    ¬ v.IsExact ↔ e.HasDouble table := by
  induction e generalizing v with
  | literal l =>
      simp only [HasDouble, subexpressions, List.mem_singleton, exists_eq_left]
      replace h := Result.mapError_eq_ok_iff.mp h
      cases l with
      | integer n => cases h; simp [BringsDouble, Number.IsExact]
      | float x => cases h; simp [BringsDouble, Number.IsExact]
      | ratio n d => simp [BringsDouble, Number.ratio_isExact h]
  | var name =>
      simp only [HasDouble, subexpressions, List.mem_singleton, exists_eq_left, BringsDouble]
      simp only [eval] at h
      split at h
      · rename_i hvalue
        cases h
        rw [hvalue]
        cases v <;> simp [Number.IsExact]
      · cases h
  | negate e ih =>
      obtain ⟨a, ha, h⟩ := Result.bind_eq_ok_iff.mp h
      rw [Number.negate_isExact_iff (Result.mapError_eq_ok_iff.mp h), ih ha, hasDouble_negate_iff]
  | group e ih => rw [ih h, hasDouble_group_iff]
  | binary op l r ihl ihr =>
      obtain ⟨a, ha, h⟩ := Result.bind_eq_ok_iff.mp h
      obtain ⟨b, hb, h⟩ := Result.bind_eq_ok_iff.mp h
      rw [Number.apply_not_isExact_iff (eval_value? ht hb).1 (Result.mapError_eq_ok_iff.mp h), ihl ha,
        ihr hb, hasDouble_binary_iff]
      cases op <;> simp [BringsDouble, hb]

/-- A value is a double just if a double comes in at some node, and whatever an operator makes of a
double is a double. -/
theorem eval_isDouble_iff (ht : table.Reduced) :
    (∀ (e : Expr) (v : Number), e.eval table = .ok v →
      ((∃ x, v = .float x) ↔ ∃ node ∈ e.subexpressions, node.BringsDouble table) ∧
        (v.IsExact ↔ ¬ ∃ node ∈ e.subexpressions, node.BringsDouble table)) ∧
    (∀ (op : Operator) (a b v : Number), ¬ a.IsExact ∨ ¬ b.IsExact →
      Number.apply op a b = .ok v ∨ Number.scalar op a b = .ok v → ¬ v.IsExact) ∧
    (∀ a v : Number, ¬ a.IsExact → a.negate = .ok v → ¬ v.IsExact) := by
  refine ⟨fun e v h => ?_, fun op a b v hab h => ?_, fun a v ha h => ?_⟩
  · have hdouble := eval_not_isExact_iff ht h
    refine ⟨?_, (not_iff_comm.mp hdouble).symm⟩
    rw [← Number.not_isExact_iff_exists]
    exact hdouble
  · exact h.elim (Number.apply_not_isExact hab) (Number.scalar_not_isExact hab)
  · rwa [Number.negate_isExact_iff h]

/-- With `x` a half, the root of four is a double, which comes in at the power, and four times `x` is
exact. -/
theorem eval_isDouble_iff_root :
    let table : SymbolTable := ⟨[("x", .rational ⟨1, 2⟩)]⟩
    let root : Expr := .binary .pow (.literal (.integer 4)) (.var "x")
    let double : Expr := .binary .mul (.literal (.integer 4)) (.var "x")
    table.Reduced ∧
      root.eval table = .ok (.float (Float.pow (Float.ofInt 4) (Float.ofInt 1 / Float.ofInt 2))) ∧
      (∃ node ∈ root.subexpressions, node.BringsDouble table) ∧
      double.eval table = .ok (.integer 2) ∧
      ¬ ∃ node ∈ double.subexpressions, node.BringsDouble table := by
  intro table root double
  have ht : table.Reduced := by
    intro b hb
    cases List.mem_singleton.mp hb
    exact ⟨by decide, by decide⟩
  have hroot : root.eval table =
      .ok (.float (Float.pow (Float.ofInt 4) (Float.ofInt 1 / Float.ofInt 2))) := rfl
  have hdouble : double.eval table = .ok (.integer 2) := by decide
  obtain ⟨horigin, -⟩ := eval_isDouble_iff ht
  exact ⟨ht, hroot, (horigin root _ hroot).1.mp ⟨_, rfl⟩, hdouble,
    (horigin double _ hdouble).2.mp trivial⟩

end Expr

end LineCalc
