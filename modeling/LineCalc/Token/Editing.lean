import LineCalc.Token.Lexer

/-!
# Changing the text of a line

A name is replaced where it is a token, and every other character stays as it is: a line has the name
`ab` in it without having the name `a`.

A run of blanks may be added at any byte offset of a line. It goes before the character there, or after
the last one, and pushes what comes after it to the right.
-/

namespace LineCalc.Token

/-! ## Replacing a name -/

/-- The text with the replacement for each token that is the name. Where no lexeme starts, the text
goes on unchanged. -/
def replaceName (name replacement : List Char) : List Char → List Char
  | [] => []
  | c :: cs =>
    if isBlank c then c :: replaceName name replacement cs
    else
      match h : Lexeme.read? (c :: cs) with
      | none => c :: cs
      | some (lexeme, rest) =>
        have : rest.length < (c :: cs).length := Lexeme.length_lt_of_read? h
        (if lexeme = .letters name then replacement else lexeme.text) ++
          replaceName name replacement rest
termination_by cs => cs.length
decreasing_by
  · exact Nat.lt_succ_self cs.length
  · exact this

/-- The tokens that a token is replaced by. -/
def replaced (name : String) (replacement : List Token) (t : Token) : List Token :=
  if t = .name name then replacement else [t]

/-- The line with another line in parentheses for the name. -/
def substitute (name body source : String) : String :=
  String.ofList (replaceName name.toList ('(' :: (body.toList ++ [')'])) source.toList)

/-! ## Adding blanks -/

/-- The number of bytes that a text takes. -/
def bytes (cs : List Char) : Nat := (String.ofList cs).utf8ByteSize

/-- The text, which starts at the byte offset `position`, with the run of each offset put in there. -/
def spread (runs : Nat → List Char) (position : Nat) : List Char → List Char
  | [] => runs position
  | c :: cs => runs position ++ c :: spread runs (position + c.utf8Size) cs

/-- The bytes of the runs at the offsets below `stop`. -/
def inserted (runs : Nat → List Char) : Nat → Nat
  | 0 => 0
  | stop + 1 => inserted runs stop + bytes (runs stop)

/-- Where the character at an offset comes to be. The run at its own offset is before it too. -/
def shift (runs : Nat → List Char) (position : Nat) : Nat :=
  position + inserted runs (position + 1)

/-- The line with the runs put in. -/
def respace (runs : Nat → List Char) (source : String) : String :=
  String.ofList (spread runs 0 source.toList)

/-- The runs are blanks, and each of them is before a token of the line or at its end. -/
structure Spacing (source : String) (tokens : List Located) (runs : Nat → List Char) : Prop where
  blank : ∀ position, ∀ c ∈ runs position, isBlank c = true
  placed : ∀ position, runs position ≠ [] →
    position = source.utf8ByteSize ∨ ∃ t ∈ tokens, t.position = position

end LineCalc.Token
