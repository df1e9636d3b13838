import LineCalc.Expr.Basic
import LineCalc.Number.Arithmetic
import LineCalc.SymbolTable.Basic

/-!
# Evaluating an expression

The value of an expression over the bindings of a table. Operands are evaluated from left to right,
and the first error is the error of the whole; a trap ends the evaluation as an error does.

What an expression denotes is its meaning in ordinary arithmetic, with no bound on size. Doubles have no
meaning there, and neither have names that are not bound to exact numbers, quotients by zero, powers of
zero with a negative exponent, and powers whose exponent is not whole.
-/

namespace LineCalc

/-- Why an expression has no value. -/
inductive EvalError where
  | unbound (name : String)
  | arithmetic (e : ArithmeticError)
deriving DecidableEq, Repr

def EvalError.message : EvalError → String
  | .unbound name => s!"Unbound variable '{name}'."
  | .arithmetic .divisionByZero => "Division by zero."
  | .arithmetic .overflow => "Integer overflow while trying to compute result."

/-- The value of an expression. -/
def Expr.eval (table : SymbolTable) : Expr → Result EvalError Number
  | .literal l => (Number.ofLiteral l).mapError .arithmetic
  | .var name =>
    match table.get? name with
    | some value => .ok value
    | none => .error (.unbound name)
  | .negate e => do
    let value ← e.eval table
    value.negate.mapError .arithmetic
  | .group e => e.eval table
  | .binary op l r => do
    let left ← l.eval table
    let right ← r.eval table
    (Number.apply op left right).mapError .arithmetic

/-! ## The rational number that an expression denotes -/

def Literal.value? : Literal → Option Rat
  | .integer n => some n
  | .float _ => none
  | .ratio n d => if d = 0 then none else some (n / d)

def Operator.denote : Operator → Rat → Rat → Option Rat
  | .add, p, q => some (p + q)
  | .sub, p, q => some (p - q)
  | .mul, p, q => some (p * q)
  | .div, p, q => if q = 0 then none else some (p / q)
  | .pow, p, q => if q.den = 1 ∧ (p = 0 → 0 ≤ q) then some (p ^ q.num) else none

/-- The meaning of an expression over the exact bindings of a table. -/
def Expr.denote (table : SymbolTable) : Expr → Option Rat
  | .literal l => l.value?
  | .var name => (table.get? name).bind Number.value?
  | .negate e => (e.denote table).map (- ·)
  | .group e => e.denote table
  | .binary op l r => do
    let p ← l.denote table
    let q ← r.denote table
    op.denote p q

end LineCalc
