import LineCalc.Word

/-!
# Fractions

A fraction is a numerator over a denominator. It is well formed when both are words, the denominator
is positive and nothing divides both. `lowest` brings any quotient with a denominator other than zero
into that form, words aside.

The operations are those of a machine that has nothing but words. Products, the common denominator
and what is made of the numerators over it are checked; divisors, quotients by them and signs that are
moved are not, but for the signs in a division. Sums go over the least common denominator, products
and quotients cancel before they multiply.
-/

namespace LineCalc

/-- A numerator over a denominator. -/
structure Fraction where
  numerator : Int
  denominator : Int
deriving DecidableEq, Repr

namespace Fraction

open Word

/-- Both parts are words, in lowest terms, with the sign in the numerator. -/
def WellFormed (q : Fraction) : Prop :=
  Fits q.numerator ∧ Fits q.denominator ∧ 0 < q.denominator ∧
    Int.gcd q.numerator q.denominator = 1

instance (q : Fraction) : Decidable q.WellFormed := inferInstanceAs (Decidable (_ ∧ _))

/-- The rational number that a fraction is. -/
def value (q : Fraction) : Rat := q.numerator / q.denominator

def ofInt (n : Int) : Fraction := ⟨n, 1⟩

def IsWhole (q : Fraction) : Prop := q.denominator = 1

instance (q : Fraction) : Decidable q.IsWhole := inferInstanceAs (Decidable (_ = _))

/-! ## Lowest terms -/

/-- The fraction in lowest terms that is `numerator / denominator`, whatever its size. -/
def lowest (numerator denominator : Int) : Fraction :=
  let divisor : Int := Int.gcd numerator denominator
  if denominator < 0 then ⟨-(numerator / divisor), -(denominator / divisor)⟩
  else ⟨numerator / divisor, denominator / divisor⟩

/-- The fraction in lowest terms on a machine, where `guard` is about the signs that are moved. -/
def reduce (guard : Guard) (numerator denominator : Int) : Result ArithmeticError Fraction :=
  if denominator = 0 then .trap
  else if numerator = 0 then .ok ⟨0, 1⟩
  else if numerator = denominator then .ok ⟨1, 1⟩
  else do
    let g ← divisor numerator denominator
    let n ← quotient numerator g
    let d ← quotient denominator g
    if d < 0 then return ⟨← word guard (-n), ← word guard (-d)⟩
    else return ⟨n, d⟩

/-- One over a fraction, with the sign in the numerator. -/
def reciprocal (q : Fraction) : Result ArithmeticError Fraction :=
  if q.numerator = 0 then .trap
  else if q.numerator < 0 then do
    return ⟨← unchecked (-q.denominator), ← unchecked (-q.numerator)⟩
  else .ok ⟨q.denominator, q.numerator⟩

/-! ## Sums and differences -/

/-- The fraction whose numerator `op` makes of the two numerators over the least common denominator. -/
def combine (op : Int → Int → Int) (a b : Fraction) : Result ArithmeticError Fraction := do
  let g ← divisor a.denominator b.denominator
  let denominator ← checked ((← quotient a.denominator g) * b.denominator)
  let left ← checked ((← quotient denominator a.denominator) * a.numerator)
  let right ← checked ((← quotient denominator b.denominator) * b.numerator)
  let numerator ← checked (op left right)
  reduce .unchecked numerator denominator

def add : Fraction → Fraction → Result ArithmeticError Fraction := combine (· + ·)

def sub : Fraction → Fraction → Result ArithmeticError Fraction := combine (· - ·)

/-! ## Products and quotients -/

/-- The product: each numerator is cancelled against the other denominator first. -/
def mul (a b : Fraction) : Result ArithmeticError Fraction := do
  let g ← divisor a.numerator b.denominator
  let h ← divisor a.denominator b.numerator
  let numerator ← checked ((← quotient a.numerator g) * (← quotient b.numerator h))
  let denominator ← checked ((← quotient a.denominator h) * (← quotient b.denominator g))
  reduce .unchecked numerator denominator

/-- The parts of the quotient before it is brought to lowest terms: numerators are cancelled
against each other and denominators too, and equal ones are dropped. -/
def quotientParts (a b : Fraction) : Result ArithmeticError (Int × Int) :=
  if a.denominator = b.denominator then .ok (a.numerator, b.numerator)
  else if a.numerator = b.numerator then .ok (b.denominator, a.denominator)
  else do
    let g ← divisor a.numerator b.numerator
    let h ← divisor a.denominator b.denominator
    let numerator ← checked ((← quotient a.numerator g) * (← quotient b.denominator h))
    let denominator ← checked ((← quotient a.denominator h) * (← quotient b.numerator g))
    return (numerator, denominator)

/-- The quotient. -/
def div (a b : Fraction) : Result ArithmeticError Fraction := do
  let (numerator, denominator) ← quotientParts a b
  if denominator = 0 then .error .overflow else reduce .checked numerator denominator

end Fraction

end LineCalc
