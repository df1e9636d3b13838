import LineCalc.Binary64
import LineCalc.Operator
import LineCalc.Word

/-!
# Tokens

A line is a sequence of tokens, each with the byte offset at which it starts. `text` writes a token
in its plainest form, whatever the spelling it was read from; messages show it in quotes.

A literal keeps the parts that were written. A ratio is neither reduced nor checked here, so its
denominator may be zero; it becomes a number only when it is evaluated.
-/

namespace LineCalc

/-- A number as it is written. -/
inductive Literal where
  | integer (n : Int)
  | float (x : Float)
  | ratio (numerator denominator : Int)
deriving DecidableEq

/-- A literal with its digits in full and without superfluous zeros. -/
def Literal.text : Literal → String
  | .integer n => toString n
  | .float x => Binary64.text x
  | .ratio n d => toString n ++ "\\" ++ toString d

/-- The whole parts of a literal are words. -/
def Literal.Fits : Literal → Prop
  | .integer n => Word.Fits n
  | .float _ => True
  | .ratio n d => Word.Fits n ∧ Word.Fits d

/-- A token that is a single character. -/
inductive Symbol where
  | operator (op : Operator)
  | opening
  | closing
  | equals
deriving DecidableEq, Repr

namespace Symbol

def char : Symbol → Char
  | .operator op => op.sign
  | .opening => '('
  | .closing => ')'
  | .equals => '='

def ofChar? : Char → Option Symbol
  | '(' => some .opening
  | ')' => some .closing
  | '=' => some .equals
  | c => (Operator.ofSign? c).map .operator

@[simp] theorem ofChar?_char (s : Symbol) : ofChar? s.char = some s := by
  rcases s with (_ | _ | _ | _ | _) | _ | _ | _ <;> rfl

theorem char_of_ofChar? {c : Char} {s : Symbol} (h : ofChar? c = some s) : s.char = c := by
  unfold ofChar? at h
  split at h
  · cases h; rfl
  · cases h; rfl
  · cases h; rfl
  · obtain ⟨op, hop, rfl⟩ := Option.map_eq_some_iff.1 h
    exact Operator.sign_of_ofSign? hop

end Symbol

/-- What a line is made of. -/
inductive Token where
  | literal (l : Literal)
  | name (n : String)
  | symbol (s : Symbol)
deriving DecidableEq

namespace Token

/-- The plain form of a token. -/
def text : Token → String
  | .literal l => l.text
  | .name n => n
  | .symbol s => s.char.toString

/-- The plain form in quotes. -/
def quoted (t : Token) : String := "'" ++ t.text ++ "'"

def operator? : Token → Option Operator
  | .symbol (.operator op) => some op
  | _ => none

end Token

/-- A token and the byte offset of its first character in the line. -/
structure Located where
  token : Token
  position : Nat
deriving DecidableEq

/-- The token at another place. -/
def Located.moved (f : Nat → Nat) (t : Located) : Located := ⟨t.token, f t.position⟩

end LineCalc
