import LineCalc.Number.Basic

/-!
# Arithmetic on numbers

`apply` is what an operator does. Sums, differences, products and quotients are formed in the kind
that the operands are promoted to. A power is exact when the base is exact and the exponent is a
whole number of either exact kind; every other power is a double.

Powers are formed by squaring: `Power.raise mul one base n` multiplies `n` copies of `base`. Only
products that the result needs are formed, so it fails only when one of those does.
-/

namespace LineCalc

/-! ## Powers by squaring -/

namespace Power

variable {ε α : Type}

/-- `acc` times the greatest even power of `base` up to the `n`th. -/
def accumulate (mul : α → α → Result ε α) (acc base : α) (n : Nat) : Result ε α :=
  if n ≤ 1 then .ok acc
  else do
    let square ← mul base base
    let next ← if n / 2 % 2 = 1 then mul acc square else .ok acc
    accumulate mul next square (n / 2)
termination_by n

/-- `base ^ n`: the base is squared while the exponent is even, and then once for each further bit. -/
def raise (mul : α → α → Result ε α) (one base : α) (n : Nat) : Result ε α :=
  if n = 0 then .ok one
  else if n % 2 = 0 then do
    let square ← mul base base
    raise mul one square (n / 2)
  else accumulate mul base base n
termination_by n

end Power

namespace Number

/-- The number below zero, or above, in the same kind. -/
def negate : Number → Result ArithmeticError Number
  | .integer n => (Word.checked (-n)).map .integer
  | .rational q =>
    if q.numerator = Word.least then .error .overflow
    else (Word.unchecked (-q.numerator)).map fun n => .rational ⟨n, q.denominator⟩
  | .float x => .ok (.float (-x))

/-! ## Powers -/

def mulWords (a b : Int) : Result ArithmeticError Int := Word.checked (a * b)

/-- What is multiplied to form a power: the base, or one over it for a negative exponent. -/
def powerBase (base : Fraction) (exponent : Int) : Result ArithmeticError Fraction :=
  if exponent < 0 then
    if base.numerator = 0 then .error .divisionByZero
    else if base.numerator = Word.least then .error .overflow
    else base.reciprocal
  else .ok base

def exactPower (base : Fraction) (exponent : Int) : Result ArithmeticError Number := do
  let base ← powerBase base exponent
  let power ← Power.raise Fraction.mul (.ofInt 1) base exponent.natAbs
  ofFraction power

/-- A power. A whole number to an exponent that is not negative stays whole throughout. -/
def power (base exponent : Number) : Result ArithmeticError Number :=
  match base, exponent.exactInteger? with
  | .integer b, some e =>
    if e < 0 then exactPower (.ofInt b) e
    else (Power.raise mulWords 1 b e.natAbs).map .integer
  | .rational q, some e => exactPower q e
  | _, _ => .ok (.float (Float.pow base.toFloat exponent.toFloat))

/-! ## The other operators -/

/-- An operator on whole numbers. A quotient that leaves a remainder is a fraction. -/
def integerOp : Operator → Int → Int → Result ArithmeticError Number
  | .add, a, b => (Word.checked (a + b)).map .integer
  | .sub, a, b => (Word.checked (a - b)).map .integer
  | .mul, a, b => (Word.checked (a * b)).map .integer
  | .div, a, b =>
    if b = 0 then .error .divisionByZero
    else if a.tmod b = 0 then (Word.checked (a.tdiv b)).map .integer
    else ratio a b
  | .pow, a, b => power (.integer a) (.integer b)

/-- An operator on fractions. -/
def rationalOp : Operator → Fraction → Fraction → Result ArithmeticError Number
  | .add, a, b => a.add b >>= ofFraction
  | .sub, a, b => a.sub b >>= ofFraction
  | .mul, a, b => a.mul b >>= ofFraction
  | .div, a, b => if b.numerator = 0 then .error .divisionByZero else a.div b >>= ofFraction
  | .pow, a, b => power (.rational a) (.rational b)

/-- An operator on doubles. Division by either zero is an error. -/
def floatOp : Operator → Float → Float → Result ArithmeticError Number
  | .add, x, y => .ok (.float (x + y))
  | .sub, x, y => .ok (.float (x - y))
  | .mul, x, y => .ok (.float (x * y))
  | .div, x, y => if y == 0.0 then .error .divisionByZero else .ok (.float (x / y))
  | .pow, x, y => .ok (.float (Float.pow x y))

/-- An operator on two numbers that are promoted first, powers included. -/
def scalar (op : Operator) (a b : Number) : Result ArithmeticError Number :=
  match a.promote b with
  | .integers m n => integerOp op m n
  | .rationals p q => rationalOp op p q
  | .floats x y => floatOp op x y

/-- What an operator does: a power looks at its operands as they are, and every other operator
promotes them. -/
def apply (op : Operator) (a b : Number) : Result ArithmeticError Number :=
  match op with
  | .pow => power a b
  | op => scalar op a b

end Number

end LineCalc
