/-!
# Decimals and doubles

A decimal is a whole number of some power of ten. `text` writes it by position: no exponent, no
zeros after the last digit of the fraction, and no point without a fraction.

Of all decimals that round to `mantissa * 2 ^ exponent`, `shortest` takes one with the fewest
digits, and of those the nearest; a tie goes up. It tries the grids of one digit, of two digits and
so on, and on each grid only the two neighbours of the number, in exact arithmetic: when any point
of a grid rounds to the number, one of the neighbours does.

A double is read from a decimal by rounding to nearest, ties to even, and written as the shortest
decimal that is read back as it. Infinities and NaN are written as words, and zero keeps its sign.

`fma x y z` is `x * y + z` rounded once: the product of two finite doubles enters the sum with all
its digits. Where no rounding is at stake, with a NaN, an infinity or a zero among the factors, the
product is the ordinary one.
-/

namespace LineCalc

/-- The number `significand * 10 ^ exponent`. -/
structure Decimal where
  significand : Nat
  exponent : Int
deriving DecidableEq, Repr

namespace Decimal

/-- The decimal whose digits are `whole`, a point and `fraction`. -/
def ofDigits (whole fraction : List Char) : Decimal where
  significand := Nat.ofDigitChars 10 (whole ++ fraction) 0
  exponent := -fraction.length

/-- The digits without the zeros at their end. -/
def trimZeros (digits : List Char) : List Char :=
  (digits.reverse.dropWhile (· == '0')).reverse

/-- The digits after the point when there are `places` of them, less the zeros at the end. -/
def fractionDigits (significand places : Nat) : List Char :=
  trimZeros (List.leftpad places '0' (Nat.toDigits 10 (significand % Nat.pow 10 places)))

/-- The digits before the point, and the point and the fraction if there is one. -/
def digits (d : Decimal) : List Char :=
  match d.exponent with
  | .ofNat zeros => Nat.toDigits 10 (d.significand * Nat.pow 10 zeros)
  | .negSucc n =>
    let places := n + 1
    let whole := Nat.toDigits 10 (d.significand / Nat.pow 10 places)
    match fractionDigits d.significand places with
    | [] => whole
    | fraction => whole ++ '.' :: fraction

/-- The decimal written by position. -/
def text (d : Decimal) : String := String.ofList d.digits

/-! ## The shortest decimal of a binary number -/

/-- The reals that round to a binary number, as multiples of one over `unit`. -/
structure RoundingInterval where
  lower : Nat
  value : Nat
  upper : Nat
  unit : Nat
  /-- The bounds themselves round to the number. -/
  closed : Bool
deriving Repr

namespace RoundingInterval

/-- The interval of `mantissa * 2 ^ exponent` among the binary numbers of `precision` bits whose
exponent is at least `leastExponent`. It reaches half a step up and half a step down, but only a
quarter step down where the steps below are half as wide. -/
def ofBinary (precision : Nat) (leastExponent : Int) (mantissa : Nat) (exponent : Int) :
    RoundingInterval :=
  let below := if mantissa = Nat.pow 2 (precision - 1) ∧ leastExponent < exponent then 1 else 2
  let scale := Nat.pow 2 (exponent - 2).toNat
  { lower := (4 * mantissa - below) * scale
    value := 4 * mantissa * scale
    upper := (4 * mantissa + 2) * scale
    unit := Nat.pow 2 (2 - exponent).toNat
    closed := mantissa % 2 == 0 }

/-- The place of the first digit: the number is below `10 ^ magnitude` and no less than a tenth of
that. -/
def magnitude (i : RoundingInterval) : Int :=
  if i.unit ≤ i.value then (Nat.toDigits 10 (i.value / i.unit)).length
  else 1 - (Nat.toDigits 10 ((i.unit - 1) / i.value)).length

/-- The decimal lies in the interval. -/
def contains (i : RoundingInterval) (d : Decimal) : Bool :=
  let point := d.significand * Nat.pow 10 d.exponent.toNat * i.unit
  let scale := Nat.pow 10 (-d.exponent).toNat
  if i.closed then i.lower * scale ≤ point && point ≤ i.upper * scale
  else i.lower * scale < point && point < i.upper * scale

/-- The point of the grid of multiples of `10 ^ exponent` that stands for the number: the neighbour
that lies in the interval, and if both do the nearer one, which is the upper one in a tie. -/
def onGrid? (i : RoundingInterval) (exponent : Int) : Option Decimal :=
  let scaled := i.value * Nat.pow 10 (-exponent).toNat
  let step := i.unit * Nat.pow 10 exponent.toNat
  let floor : Decimal := ⟨scaled / step, exponent⟩
  let ceiling : Decimal := ⟨scaled / step + 1, exponent⟩
  let nearer := if 2 * (scaled % step) < step then floor else ceiling
  [nearer, floor, ceiling].find? i.contains

end RoundingInterval

/-- The whole number `mantissa * 2 ^ exponent`, or the fraction with all its digits. -/
def ofBinary (mantissa : Nat) : Int → Decimal
  | .ofNat n => ⟨mantissa * Nat.pow 2 n, 0⟩
  | .negSucc n => ⟨mantissa * Nat.pow 5 (n + 1), .negSucc n⟩

/-- The nearest of the shortest decimals that round to `mantissa * 2 ^ exponent` in double
precision. Seventeen digits always suffice. -/
def shortest (mantissa : Nat) (exponent : Int) : Decimal :=
  let interval := RoundingInterval.ofBinary 53 (-1074) mantissa exponent
  let magnitude := interval.magnitude
  ((List.range 17).findSome? fun n : Nat => interval.onGrid? (magnitude - (n + 1))).getD
    (ofBinary mantissa exponent)

end Decimal

namespace Binary64

open Float.Model

/-! ## Doubles in digits -/

/-- The double nearest to a decimal. -/
def ofDecimal (d : Decimal) : Float :=
  match d.exponent with
  | .ofNat n => Float.ofScientific d.significand false n
  | .negSucc n => Float.ofScientific d.significand true (n + 1)

/-- What stands before the digits of a double. -/
def signText : UnpackedFloat.Sign → String
  | .positive => ""
  | .negative => "-"

/-- The shortest decimal that is read back as the double. -/
def text (x : Float) : String :=
  match x.toModel.unpack with
  | .notANumber => "NaN"
  | .infinity s => signText s ++ "inf"
  | .zero s => signText s ++ "0"
  | .finite s mantissa exponent _ => signText s ++ (Decimal.shortest mantissa exponent).text

/-! ## Fused multiplication and addition -/

/-- The product, with all its digits when both factors are finite. -/
def exactProduct : UnpackedFloat → UnpackedFloat → UnpackedFloat
  | .finite s m e hm, .finite t n f hn => .finite (s * t) (m * n) (e + f) (Nat.mul_pos hm hn)
  | x, y => x.mul .binary64 y

/-- The sum of an exact product and a double, rounded once. -/
def roundedSum : UnpackedFloat → UnpackedFloat → UnpackedFloat
  | .finite s m e _, .zero _ => .round .binary64 s m e
  | product, z => product.add .binary64 z

/-- `x * y + z` with a single rounding. -/
def fma (x y z : Float) : Float :=
  .ofModel (.pack (roundedSum (exactProduct x.toModel.unpack y.toModel.unpack) z.toModel.unpack))

end Binary64

end LineCalc
