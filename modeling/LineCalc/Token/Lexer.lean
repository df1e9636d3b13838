import LineCalc.Token.Lexeme

/-!
# Splitting a line into tokens

Blanks separate lexemes and mean nothing else. A line is split as a whole or not at all: the first
character that starts no lexeme, or the first number that is too large, is the error.
-/

namespace LineCalc

/-- Why a line cannot be split. -/
inductive LexError where
  /-- No lexeme starts with this character. -/
  | unexpectedCharacter (found : Char) (position : Nat)
  /-- A whole number, or a part of a ratio, is greater than every word. -/
  | literalOutOfRange (literal : String) (position : Nat)
deriving DecidableEq, Repr

namespace LexError

def message : LexError → String
  | .unexpectedCharacter found position =>
    s!"Lexer error: unexpected '{found}' at position {position}."
  | .literalOutOfRange literal position =>
    s!"Lexer error: literal '{literal}' at position {position} does not fit in a 64-bit integer."

/-- The error of a line in which places have moved. -/
def moved (f : Nat → Nat) : LexError → LexError
  | .unexpectedCharacter found position => .unexpectedCharacter found (f position)
  | .literalOutOfRange literal position => .literalOutOfRange literal (f position)

end LexError

namespace Token

/-- Space, tab, line feed, carriage return and form feed. -/
def isBlank (c : Char) : Bool :=
  c == ' ' || c == '\t' || c == '\n' || c == '\r' || c == '\x0c'

/-- The tokens of a text that starts at the byte offset `position`. -/
def scan (position : Nat) : List Char → Except LexError (List Located)
  | [] => .ok []
  | c :: cs =>
    if isBlank c then scan (position + c.utf8Size) cs
    else
      match h : Lexeme.read? (c :: cs) with
      | none => .error (.unexpectedCharacter c position)
      | some (lexeme, rest) =>
        have : rest.length < (c :: cs).length := Lexeme.length_lt_of_read? h
        match lexeme.token? with
        | none => .error (.literalOutOfRange (String.ofList lexeme.text) position)
        | some token =>
          (scan (position + lexeme.byteLength) rest).map (⟨token, position⟩ :: ·)
termination_by cs => cs.length
decreasing_by
  · exact Nat.lt_succ_self cs.length
  · exact this

def ofLine (source : String) : Except LexError (List Located) := scan 0 source.toList

end Token

end LineCalc
