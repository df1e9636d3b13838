import LineCalc.Token.Lexer

/-!
# Maximal munch

What it means to split a line, without a word on how it is done. Where the text goes on with a blank,
the blank is skipped. Otherwise the longest prefix that has the pattern of a lexeme is one token. The
first number that is too large ends this, and so does the first place where no prefix has a pattern.
-/

namespace LineCalc

namespace Lexeme

/-- One digit or more. -/
def IsDigits (cs : List Char) : Prop := cs ≠ [] ∧ ∀ c ∈ cs, c.isDigit

/-- The parts of a lexeme are what its pattern asks for. -/
def Patterned : Lexeme → Prop
  | .whole ds => IsDigits ds
  | .ratio n d => IsDigits n ∧ IsDigits d
  | .decimal w f => (w ≠ [] ∨ f ≠ []) ∧ (∀ c ∈ w, c.isDigit) ∧ ∀ c ∈ f, c.isDigit
  | .letters cs => cs ≠ [] ∧ ∀ c ∈ cs, c.isAlpha
  | .symbol _ => True

/-- The text starts with the lexeme, and with no longer one. -/
structure Longest (l : Lexeme) (cs rest : List Char) : Prop where
  patterned : l.Patterned
  text_append : l.text ++ rest = cs
  length_le : ∀ m : Lexeme, m.Patterned → m.text <+: cs → m.text.length ≤ l.text.length

/-- The number that digits write. -/
def value (digits : List Char) : Int := Nat.ofDigitChars 10 digits 0

/-- A whole number, or a part of a ratio, is greater than every word. -/
def TooLarge : Lexeme → Prop
  | .whole ds => Word.greatest < value ds
  | .ratio n d => Word.greatest < value n ∨ Word.greatest < value d
  | _ => False

/-- What a lexeme means, however large its parts are. -/
def meaning : Lexeme → Token
  | .whole ds => .literal (.integer (value ds))
  | .ratio n d => .literal (.ratio (value n) (value d))
  | .decimal w f => .literal (.float (Binary64.ofDecimal (Decimal.ofDigits w f)))
  | .letters cs => .name (String.ofList cs)
  | .symbol s => .symbol s

end Lexeme

namespace Token

/-- Splitting the text, which starts at the byte offset `position`, has the outcome. -/
inductive Munch : Nat → List Char → Except LexError (List Located) → Prop
  | done {position : Nat} : Munch position [] (.ok [])
  | blank {position : Nat} {c : Char} {cs : List Char} {outcome : Except LexError (List Located)} :
      isBlank c = true → Munch (position + c.utf8Size) cs outcome → Munch position (c :: cs) outcome
  | token {position : Nat} {cs rest : List Char} {l : Lexeme}
      {outcome : Except LexError (List Located)} :
      l.Longest cs rest → ¬ l.TooLarge → Munch (position + l.byteLength) rest outcome →
      Munch position cs (outcome.map (⟨l.meaning, position⟩ :: ·))
  | literalOutOfRange {position : Nat} {cs rest : List Char} {l : Lexeme} :
      l.Longest cs rest → l.TooLarge →
      Munch position cs (.error (.literalOutOfRange (String.ofList l.text) position))
  | unexpectedCharacter {position : Nat} {c : Char} {cs : List Char} :
      isBlank c = false → (∀ l : Lexeme, l.Patterned → ¬ l.text <+: c :: cs) →
      Munch position (c :: cs) (.error (.unexpectedCharacter c position))

/-- The text is the lexemes of the tokens at their positions, with blanks in between. -/
inductive Layout : Nat → List Char → List Located → Prop
  | done {position : Nat} : Layout position [] []
  | blank {position : Nat} {c : Char} {cs : List Char} {ts : List Located} :
      isBlank c = true → Layout (position + c.utf8Size) cs ts → Layout position (c :: cs) ts
  | token {position : Nat} {rest : List Char} {l : Lexeme} {ts : List Located} :
      l.Patterned → Layout (position + l.byteLength) rest ts →
      Layout position (l.text ++ rest) (⟨l.meaning, position⟩ :: ts)

end Token

end LineCalc
