import LineCalc.Expr.Basic

/-!
# Levels and operators

The levels of the grammar in order, the level of what an operator makes, and the levels of its
operands. The grammar derives a tree at every level looser than one at which it derives it.
-/

namespace LineCalc

open LineCalc.Expr (Level Shaped)

namespace Expr.Level

/-- How loosely the trees of a level hold together. -/
def looseness : Level → Nat
  | .atom => 0
  | .operand => 1
  | .power => 2
  | .term => 3
  | .sum => 4

instance : LE Level := ⟨fun a b => a.looseness ≤ b.looseness⟩

instance (a b : Level) : Decidable (a ≤ b) := inferInstanceAs (Decidable (_ ≤ (_ : Nat)))

theorem le_sum (a : Level) : a ≤ .sum := by cases a <;> decide

/-- The next looser level, if there is one. -/
def next : Level → Level
  | .atom => .operand
  | .operand => .power
  | .power => .term
  | .term | .sum => .sum

theorem looseness_inj {a b : Level} (h : b.looseness = a.looseness) : a = b := by
  cases a <;> cases b <;> simp [looseness] at h ⊢

theorem looseness_next {a b : Level} (h : a.looseness < b.looseness) :
    a.next.looseness = a.looseness + 1 := by
  cases a with
  | sum => exact absurd (le_sum b) (Nat.not_le.mpr h)
  | _ => rfl

theorem le_refl (a : Level) : a ≤ a := Nat.le_refl _

theorem le_trans {a b c : Level} (h : a ≤ b) (h' : b ≤ c) : a ≤ c := Nat.le_trans h h'

theorem atom_le (a : Level) : .atom ≤ a := Nat.zero_le _

end Expr.Level

namespace Operator

/-- The level of what an operator makes. -/
def level : Operator → Level
  | .add | .sub => .sum
  | .mul | .div => .term
  | .pow => .power

/-- The level of the left operand. -/
def leftLevel : Operator → Level
  | .add | .sub => .sum
  | .mul | .div => .term
  | .pow => .operand

/-- The level of the right operand. -/
def rightLevel : Operator → Level
  | .add | .sub => .term
  | .mul | .div | .pow => .power

theorem operand_le_leftLevel (op : Operator) : .operand ≤ op.leftLevel := by cases op <;> decide

theorem leftLevel_le_level (op : Operator) : op.leftLevel ≤ op.level := by cases op <;> decide

theorem rightLevel_le_level (op : Operator) : op.rightLevel ≤ op.level := by cases op <;> decide

theorem not_sum_le_rightLevel (op : Operator) : ¬ .sum ≤ op.rightLevel := by cases op <;> decide

theorem operand_le_rightLevel (op : Operator) : .operand ≤ op.rightLevel := by cases op <;> decide

/-- An operator is settled before another one exactly if what it makes is a left operand of the
other, and otherwise what the other makes is its right operand. -/
theorem groupsBefore_iff (op next : Operator) :
    op.groupsBefore next = true ↔ op.level ≤ next.leftLevel := by
  cases op <;> cases next <;> decide

theorem not_groupsBefore_iff (op next : Operator) :
    op.groupsBefore next = false ↔ next.level ≤ op.rightLevel := by
  cases op <;> cases next <;> decide

end Operator

namespace Expr.Shaped

theorem binary {op : Operator} {l r : Expr} (hl : Shaped op.leftLevel l)
    (hr : Shaped op.rightLevel r) : Shaped op.level (.binary op l r) := by
  cases op with
  | add => exact .add hl hr
  | sub => exact .sub hl hr
  | mul => exact .mul hl hr
  | div => exact .div hl hr
  | pow => exact .pow hl hr

theorem loosen {a : Level} {e : Expr} (h : Shaped a e) : Shaped a.next e := by
  cases a with
  | atom => exact .atom h
  | operand => exact .operand h
  | power => exact .power h
  | term => exact .term h
  | sum => exact h

theorem mono {a b : Level} {e : Expr} (h : Shaped a e) (hab : a ≤ b) : Shaped b e := by
  -- By the number of levels in between, since a single rule loosens by one level only.
  obtain ⟨n, hn⟩ := Nat.exists_eq_add_of_le hab
  induction n generalizing a with
  | zero => exact Level.looseness_inj hn ▸ h
  | succ n ih =>
      have hlt : a.looseness < b.looseness := by omega
      have hnext := Level.looseness_next hlt
      refine ih h.loosen ?_ (by omega)
      show a.next.looseness ≤ b.looseness
      omega

end Expr.Shaped

end LineCalc
