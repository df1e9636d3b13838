import LineCalc.Proofs.Number.Tiers
import LineCalc.Proofs.Token.Reading

/-!
# Reading the text of a number

The text of an exact number is a literal, after a minus sign if the number is below zero. The literal
has the parts of the number, so it makes the number itself, or its opposite under the minus sign.
-/

namespace LineCalc

theorem toList_toString_of_nonneg {n : Int} (hn : 0 ≤ n) :
    (toString n).toList = Nat.toDigits 10 n.toNat := by
  rw [Int.toString_eq_repr, Int.repr_eq_if, if_pos hn, Nat.repr_eq_ofList_toDigits,
    String.toList_ofList]

theorem toString_of_neg {n : Int} (hn : n < 0) : toString n = "-" ++ toString (-n) := by
  rw [Int.toString_eq_repr, Int.repr_eq_if, if_neg (by omega), Int.toString_eq_repr,
    Int.repr_eq_if, if_pos (by omega)]

namespace Lexeme

theorem isDigits_toDigits (n : Nat) : IsDigits (Nat.toDigits 10 n) :=
  ⟨Nat.toDigits_ne_nil, fun _ => Nat.isDigit_of_mem_toDigits (by decide) (by decide)⟩

theorem value_toDigits {n : Int} (hn : 0 ≤ n) : value (Nat.toDigits 10 n.toNat) = n := by
  rw [value, Nat.ofDigitChars_ten_toDigits, Int.toNat_of_nonneg hn]

theorem not_greatest_lt_value {n : Int} (hn : 0 ≤ n) (hfits : Word.Fits n) :
    ¬ Word.greatest < value (Nat.toDigits 10 n.toNat) := by
  rw [value_toDigits hn]
  exact not_lt.mpr hfits.2

end Lexeme

namespace Number

/-- The whole number or the numerator is the least word. -/
def HasLeast : Number → Prop
  | .integer n => n = Word.least
  | .rational q => q.numerator = Word.least
  | .float _ => False

/-- The number is exact and below zero. -/
def IsNegative : Number → Prop
  | .integer n => n < 0
  | .rational q => q.numerator < 0
  | .float _ => False

instance : (v : Number) → Decidable v.HasLeast
  | .integer n => inferInstanceAs (Decidable (n = Word.least))
  | .rational q => inferInstanceAs (Decidable (q.numerator = Word.least))
  | .float _ => inferInstanceAs (Decidable False)

variable {v : Number}

theorem reads_literal {l : Lexeme} (hl : l.Patterned) (hlarge : ¬ l.TooLarge) :
    Token.Reads l.text [l.meaning] := by
  have h := Token.Reads.done.lexeme hl (Lexeme.token?_eq_meaning hlarge) l.endsBefore_nil
  rwa [List.append_nil] at h

theorem exists_literal (hwf : v.WellFormed) (hexact : v.IsExact) (hsign : ¬ v.IsNegative) :
    ∃ l, Token.Reads v.text.toList [.literal l] ∧ ofLiteral l = .ok v := by
  cases v with
  | integer n =>
      have hn : 0 ≤ n := Int.not_lt.mp hsign
      refine ⟨.integer n, ?_, rfl⟩
      have hreads := reads_literal (l := .whole (Nat.toDigits 10 n.toNat))
        (Lexeme.isDigits_toDigits _) (Lexeme.not_greatest_lt_value hn hwf)
      rwa [Lexeme.meaning, Lexeme.value_toDigits hn, Lexeme.text,
        ← toList_toString_of_nonneg hn] at hreads
  | rational q =>
      have hn : 0 ≤ q.numerator := Int.not_lt.mp hsign
      have hd : 0 < q.denominator := hwf.reduced.1
      refine ⟨.ratio q.numerator q.denominator, ?_, ?_⟩
      · have hreads := reads_literal
          (l := .ratio (Nat.toDigits 10 q.numerator.toNat) (Nat.toDigits 10 q.denominator.toNat))
          ⟨Lexeme.isDigits_toDigits _, Lexeme.isDigits_toDigits _⟩
          (not_or.mpr ⟨Lexeme.not_greatest_lt_value hn hwf.1,
            Lexeme.not_greatest_lt_value hd.le hwf.2.1⟩)
        rw [Lexeme.meaning, Lexeme.value_toDigits hn, Lexeme.value_toDigits hd.le, Lexeme.text,
          ← toList_toString_of_nonneg hn, ← toList_toString_of_nonneg hd.le] at hreads
        simpa [text] using hreads
      · have hparts : ¬ (q.numerator = Word.least ∨ q.denominator = Word.least) := by
          simp only [Word.least]
          omega
        rw [ofLiteral, ratio_eq hwf.1 hwf.2.1 hd.ne' hparts, Fraction.lowest_of_reduced hwf.reduced]
  | float x => exact hexact.elim

/-- A number below zero is written as its opposite after a minus sign. -/
theorem exists_opposite (hwf : v.WellFormed) (hleast : ¬ v.HasLeast) (hsign : v.IsNegative) :
    ∃ w : Number, w.WellFormed ∧ w.IsExact ∧ ¬ w.IsNegative ∧
      v.text.toList = '-' :: w.text.toList ∧ w.negate = .ok v := by
  cases v with
  | integer n =>
      have hn : n < 0 := hsign
      refine ⟨.integer (-n), Word.Fits.neg hwf hleast, trivial, ?_, ?_, ?_⟩
      · exact Int.not_lt.mpr (by omega)
      · rw [text, toString_of_neg hn, String.toList_append]
        rfl
      · rw [negate, Int.neg_neg, Word.checked_of_fits hwf]
        rfl
  | rational q =>
      have hn : q.numerator < 0 := hsign
      refine ⟨.rational ⟨-q.numerator, q.denominator⟩,
        (Fraction.neg_numerator_reduced hwf.reduced).wellFormed (hwf.1.neg hleast) hwf.2.1, trivial,
        ?_, ?_, ?_⟩
      · exact Int.not_lt.mpr (show 0 ≤ -q.numerator by omega)
      · rw [text, toString_of_neg hn, String.append_assoc, String.append_assoc,
          String.toList_append, text, ← String.append_assoc]
        rfl
      · have hpos : -q.numerator ≠ Word.least := Word.ne_least_of_pos (by omega)
        rw [negate, if_neg hpos, Int.neg_neg, Word.unchecked_of_fits hwf.1]
        rfl
  | float x => exact hsign.elim

end Number

end LineCalc
