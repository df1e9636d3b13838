/-!
# Operators

The five binary operators, their signs, and how they group. `groupsBefore` is the whole of
precedence and associativity: in `a op b next c` it tells whether `a op b` is an operand of `next`.
-/

namespace LineCalc

/-- A binary operator. -/
inductive Operator where
  | add
  | sub
  | mul
  | div
  | pow
deriving DecidableEq, Repr

namespace Operator

/-- The character an operator is written with. -/
def sign : Operator → Char
  | .add => '+'
  | .sub => '-'
  | .mul => '*'
  | .div => '/'
  | .pow => '^'

/-- The operator that a character writes. -/
def ofSign? : Char → Option Operator
  | '+' => some .add
  | '-' => some .sub
  | '*' => some .mul
  | '/' => some .div
  | '^' => some .pow
  | _ => none

@[simp] theorem ofSign?_sign (op : Operator) : ofSign? op.sign = some op := by
  cases op <;> rfl

theorem sign_of_ofSign? {c : Char} {op : Operator} (h : ofSign? c = some op) : op.sign = c := by
  unfold ofSign? at h
  split at h <;> cases h <;> rfl

/-- How tightly an operator holds its operands. -/
def rank : Operator → Nat
  | .add | .sub => 1
  | .mul | .div => 2
  | .pow => 3

/-- In `a op b next c`, the part `a op b` is the left operand of `next`: the tighter operator goes
first, and of two equally tight ones the left, except for powers. -/
def groupsBefore (op next : Operator) : Bool :=
  next.rank < op.rank || (next.rank == op.rank && next != .pow)

end Operator

end LineCalc
