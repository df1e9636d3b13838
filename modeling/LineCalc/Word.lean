import LineCalc.Result

/-!
# Machine words

The exact parts of a number are signed words of 64 bits, held as integers. Every number on the way to
a result has to be a word. Where it is checked whether it is one, arithmetic overflows if it is not;
where nobody checks it, the machine traps.
-/

namespace LineCalc

/-- Why arithmetic has no result. -/
inductive ArithmeticError where
  | divisionByZero
  | overflow
deriving DecidableEq, Repr

namespace Word

/-- The least word, `-2 ^ 63`. -/
def least : Int := -9223372036854775808

/-- The greatest word, `2 ^ 63 - 1`. -/
def greatest : Int := 9223372036854775807

/-- The integer is a word. -/
def Fits (n : Int) : Prop := least ≤ n ∧ n ≤ greatest

instance (n : Int) : Decidable (Fits n) := inferInstanceAs (Decidable (_ ∧ _))

/-- The integer, unless it is no word. -/
def check? (n : Int) : Option Int := if Fits n then some n else none

theorem check?_eq_some_iff {n m : Int} : check? n = some m ↔ Fits n ∧ m = n := by
  unfold check?
  split <;> simp_all [eq_comm]

theorem check?_eq_none_iff {n : Int} : check? n = none ↔ ¬ Fits n := by
  unfold check?
  split <;> simp_all

/-! ## Steps of arithmetic -/

/-- Whether a number is looked at before it is taken for a word. -/
inductive Guard where
  | checked
  | unchecked
deriving DecidableEq, Repr

/-- What becomes of a number that is no word. -/
def Guard.refuse {α : Type} : Guard → Result ArithmeticError α
  | .checked => .error .overflow
  | .unchecked => .trap

/-- The integer, if it is a word. -/
def word (guard : Guard) (n : Int) : Result ArithmeticError Int :=
  if Fits n then .ok n else guard.refuse

def checked (n : Int) : Result ArithmeticError Int := word .checked n

def unchecked (n : Int) : Result ArithmeticError Int := word .unchecked n

/-- The greatest common divisor, which for the least word and zero is one above the greatest word. -/
def divisor (a b : Int) : Result ArithmeticError Int := unchecked (Int.gcd a b)

/-- The quotient, rounded toward zero. -/
def quotient (a b : Int) : Result ArithmeticError Int :=
  if b = 0 then .trap else unchecked (a.tdiv b)

theorem word_eq_ok_iff {guard : Guard} {n m : Int} : word guard n = .ok m ↔ Fits n ∧ m = n := by
  unfold word
  cases guard <;> split <;> simp_all [Guard.refuse, eq_comm]

theorem checked_eq_ok_iff {n m : Int} : checked n = .ok m ↔ Fits n ∧ m = n := word_eq_ok_iff

theorem unchecked_eq_ok_iff {n m : Int} : unchecked n = .ok m ↔ Fits n ∧ m = n := word_eq_ok_iff

theorem divisor_eq_ok_iff {a b g : Int} :
    divisor a b = .ok g ↔ Fits (Int.gcd a b) ∧ g = Int.gcd a b := unchecked_eq_ok_iff

theorem quotient_eq_ok_iff {a b q : Int} :
    quotient a b = .ok q ↔ b ≠ 0 ∧ Fits (a.tdiv b) ∧ q = a.tdiv b := by
  unfold quotient
  split <;> simp_all [unchecked_eq_ok_iff]

end Word

end LineCalc
