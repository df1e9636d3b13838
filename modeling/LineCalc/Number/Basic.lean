import LineCalc.Fraction
import LineCalc.Token.Basic

/-!
# Numbers

A number is a whole number, a fraction or a double. The first two are exact. A written ratio stays a
fraction even if its denominator reduces to one; only the results of arithmetic become whole numbers
again (`ofFraction`).

Two operands meet in the widest of their kinds (`promote`): whole numbers, then fractions, then doubles.
-/

namespace LineCalc

/-- A number of one of three kinds. -/
inductive Number where
  | integer (n : Int)
  | rational (q : Fraction)
  | float (x : Float)
deriving DecidableEq

namespace Number

/-- A whole number is a word and a fraction is well formed. -/
def WellFormed : Number → Prop
  | .integer n => Word.Fits n
  | .rational q => q.WellFormed
  | .float _ => True

instance : (v : Number) → Decidable v.WellFormed
  | .integer n => inferInstanceAs (Decidable (Word.Fits n))
  | .rational q => inferInstanceAs (Decidable q.WellFormed)
  | .float _ => inferInstanceAs (Decidable True)

def IsExact : Number → Prop
  | .float _ => False
  | _ => True

/-- The rational number that an exact number is. -/
def value? : Number → Option Rat
  | .integer n => some n
  | .rational q => some q.value
  | .float _ => none

/-- The fraction `numerator / denominator`. The least word may be in neither part, because its
sign cannot be changed. -/
def ratio (numerator denominator : Int) : Result ArithmeticError Number :=
  if denominator = 0 then .error .divisionByZero
  else if numerator = Word.least ∨ denominator = Word.least then .error .overflow
  else (Fraction.reduce .unchecked numerator denominator).map .rational

def ofLiteral : Literal → Result ArithmeticError Number
  | .integer n => .ok (.integer n)
  | .float x => .ok (.float x)
  | .ratio n d => ratio n d

/-- The number that a result of exact arithmetic is: whole if it can be. -/
def ofFraction (q : Fraction) : Result ArithmeticError Number :=
  if q.IsWhole then (Word.quotient q.numerator q.denominator).map .integer else .ok (.rational q)

/-- The double nearest to a whole number; for a fraction, the quotient of two such doubles. -/
def toFloat : Number → Float
  | .integer n => Float.ofInt n
  | .rational q => Float.ofInt q.numerator / Float.ofInt q.denominator
  | .float x => x

/-- The whole number that an exact number is. -/
def exactInteger? : Number → Option Int
  | .integer n => some n
  | .rational q => if q.IsWhole then some q.numerator else none
  | .float _ => none

def typeName : Number → String
  | .integer _ => "Integer"
  | .rational _ => "Rational"
  | .float _ => "Floating Point"

/-- A number in digits: a whole number, a fraction with a backslash, or a decimal. -/
def text : Number → String
  | .integer n => toString n
  | .rational q => toString q.numerator ++ "\\" ++ toString q.denominator
  | .float x => Binary64.text x

/-- Equality within a kind. Doubles are compared by value: zero equals zero with either sign, and a
NaN differs from itself. -/
def equals : Number → Number → Bool
  | .integer a, .integer b => a == b
  | .rational p, .rational q => p == q
  | .float x, .float y => x == y
  | _, _ => false

end Number

/-! ## Promotion -/

/-- Two operands of one kind. -/
inductive Promoted where
  | integers (a b : Int)
  | rationals (a b : Fraction)
  | floats (a b : Float)
deriving DecidableEq

/-- Both operands in the wider of their kinds. -/
def Number.promote : Number → Number → Promoted
  | .integer a, .integer b => .integers a b
  | .integer a, .rational b => .rationals (.ofInt a) b
  | .rational a, .integer b => .rationals a (.ofInt b)
  | .rational a, .rational b => .rationals a b
  | a, b => .floats a.toFloat b.toFloat

end LineCalc
