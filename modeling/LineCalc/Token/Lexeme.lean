import LineCalc.Token.Basic
import LineCalc.Word

/-!
# Lexemes

A lexeme is the text of one token, cut into the parts that its pattern names. `read?` takes the
longest lexeme at the start of a text. The text is always the lexeme followed by the rest
(`read?_text`) and no lexeme is empty (`text_ne_nil`), so reading on comes to an end.
-/

namespace LineCalc

/-- The text of a token, in its parts. -/
inductive Lexeme where
  /-- Digits. -/
  | whole (digits : List Char)
  /-- Digits, a backslash and digits. -/
  | ratio (numerator denominator : List Char)
  /-- Digits, a point and digits; there may be none on one side of the point. -/
  | decimal (whole fraction : List Char)
  /-- Letters. -/
  | letters (name : List Char)
  /-- A single character. -/
  | symbol (s : Symbol)
deriving DecidableEq, Repr

namespace Lexeme

def text : Lexeme → List Char
  | .whole ds => ds
  | .ratio n d => n ++ '\\' :: d
  | .decimal w f => w ++ '.' :: f
  | .letters cs => cs
  | .symbol s => [s.char]

def byteLength (l : Lexeme) : Nat := (String.ofList l.text).utf8ByteSize

/-- The value of digits, unless it is greater than every word. -/
def word? (digits : List Char) : Option Int :=
  Word.check? (Nat.ofDigitChars 10 digits 0)

/-- The token of a lexeme. Whole numbers and the parts of a ratio have to be words. -/
def token? : Lexeme → Option Token
  | .whole ds => (word? ds).map fun n => .literal (.integer n)
  | .ratio n d => do
    let numerator ← word? n
    let denominator ← word? d
    return .literal (.ratio numerator denominator)
  | .decimal w f => some (.literal (.float (Binary64.ofDecimal (Decimal.ofDigits w f))))
  | .letters cs => some (.name (String.ofList cs))
  | .symbol s => some (.symbol s)

/-- The longest lexeme that starts with the digits `ds`, given the text after them. -/
def afterDigits (ds : List Char) : List Char → Lexeme × List Char
  | '.' :: cs => (.decimal ds (cs.takeWhile Char.isDigit), cs.dropWhile Char.isDigit)
  | '\\' :: cs =>
    match cs.takeWhile Char.isDigit with
    | [] => (.whole ds, '\\' :: cs)
    | d => (.ratio ds d, cs.dropWhile Char.isDigit)
  | cs => (.whole ds, cs)

/-- The longest lexeme at the start of a text, and the text after it. -/
def read? : List Char → Option (Lexeme × List Char)
  | [] => none
  | c :: cs =>
    if c.isDigit then some (afterDigits (c :: cs.takeWhile Char.isDigit) (cs.dropWhile Char.isDigit))
    else if c.isAlpha then some (.letters (c :: cs.takeWhile Char.isAlpha), cs.dropWhile Char.isAlpha)
    else if c = '.' then
      match cs.takeWhile Char.isDigit with
      | [] => none
      | fraction => some (.decimal [] fraction, cs.dropWhile Char.isDigit)
    else (Symbol.ofChar? c).map fun s => (.symbol s, cs)

theorem afterDigits_text (ds cs : List Char) :
    (afterDigits ds cs).1.text ++ (afterDigits ds cs).2 = ds ++ cs := by
  fun_cases afterDigits ds cs <;> simp_all [text, List.takeWhile_append_dropWhile]

theorem read?_text {cs rest : List Char} {l : Lexeme} (h : read? cs = some (l, rest)) :
    l.text ++ rest = cs := by
  revert h
  fun_cases read? cs with
  | case1 => simp
  | case2 c cs =>
    intro h
    have := afterDigits_text (c :: cs.takeWhile Char.isDigit) (cs.dropWhile Char.isDigit)
    simp_all [List.takeWhile_append_dropWhile]
  | case3 c cs =>
    intro h
    cases h
    simp [text, List.takeWhile_append_dropWhile]
  | case4 => simp
  | case5 cs =>
    intro h
    cases h
    simp_all [text, List.takeWhile_append_dropWhile]
  | case6 c cs =>
    intro h
    obtain ⟨s, hs, he⟩ := Option.map_eq_some_iff.1 h
    cases he
    simp [text, Symbol.char_of_ofChar? hs]

theorem afterDigits_text_ne_nil {ds : List Char} (h : ds ≠ []) (cs : List Char) :
    (afterDigits ds cs).1.text ≠ [] := by
  fun_cases afterDigits ds cs <;> simp_all [text]

theorem text_ne_nil {cs rest : List Char} {l : Lexeme} (h : read? cs = some (l, rest)) :
    l.text ≠ [] := by
  revert h
  fun_cases read? cs with
  | case1 => simp
  | case2 c cs =>
    intro h
    have := afterDigits_text_ne_nil (List.cons_ne_nil c (cs.takeWhile Char.isDigit))
      (cs.dropWhile Char.isDigit)
    simp_all
  | case3 => intro h; cases h; simp [text]
  | case4 => simp
  | case5 => intro h; cases h; simp [text]
  | case6 =>
    intro h
    obtain ⟨s, _, he⟩ := Option.map_eq_some_iff.1 h
    cases he
    simp [text]

theorem length_lt_of_read? {cs rest : List Char} {l : Lexeme} (h : read? cs = some (l, rest)) :
    rest.length < cs.length := by
  have := List.length_pos_iff.2 (text_ne_nil h)
  rw [← read?_text h, List.length_append]
  omega

end Lexeme

end LineCalc
