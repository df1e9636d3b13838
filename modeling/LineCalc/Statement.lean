import LineCalc.Expr.Evaluation
import LineCalc.Expr.Parser
import LineCalc.Token.Lexer

/-!
# Statements

A line that starts with a name and an equals sign assigns to the name; every other line is an
expression. Running a statement yields its value and the bindings that it makes, and leaves the
table to the caller.

A line fails while it is split into tokens, while it is parsed or while it is evaluated. Callers
branch on the kind of a failure, and the wording is for people.
-/

namespace LineCalc

/-- What a line says. -/
inductive Statement where
  | assignment (name : String) (value : Expr)
  | expression (e : Expr)
deriving DecidableEq

/-- A value and the bindings made on the way: one for an assignment, none for an expression. -/
structure Evaluation where
  value : Number
  delta : SymbolTable
deriving DecidableEq

namespace Statement

/-- The statement that the tokens are, all of them. -/
def ofTokens : List Located → Except ParseError Statement
  | ⟨.name name, _⟩ :: ⟨.symbol .equals, _⟩ :: rest => (Expr.ofTokens rest).map (.assignment name)
  | tokens => (Expr.ofTokens tokens).map .expression

/-- The value of a statement and its bindings. -/
def run (table : SymbolTable) : Statement → Result EvalError Evaluation
  | .assignment name e => do
    let value ← e.eval table
    return ⟨value, .singleton name value⟩
  | .expression e => do
    let value ← e.eval table
    return ⟨value, ∅⟩

end Statement

/-! ## Failures -/

/-- Why a line or an expression has no value. -/
inductive Failure where
  | lex (e : LexError)
  | parse (e : ParseError)
  | eval (e : EvalError)
deriving DecidableEq

namespace Failure

/-- What went wrong, in outline. -/
inductive Kind where
  | lex
  | parse
  | unbound
  | divisionByZero
  | overflow
deriving DecidableEq, Repr

/-- The name of a kind. -/
def Kind.text : Kind → String
  | .lex => "LexError"
  | .parse => "ParseError"
  | .unbound => "UnboundVariable"
  | .divisionByZero => "DivisionByZero"
  | .overflow => "Overflow"

/-- The kind of a failure. A literal that is too large counts as an overflow. -/
def kind : Failure → Kind
  | .lex (.unexpectedCharacter ..) => .lex
  | .lex (.literalOutOfRange ..) => .overflow
  | .parse _ => .parse
  | .eval (.unbound _) => .unbound
  | .eval (.arithmetic .divisionByZero) => .divisionByZero
  | .eval (.arithmetic .overflow) => .overflow

/-- The wording of a failure. -/
def message : Failure → String
  | .lex e => e.message
  | .parse e => e.message
  | .eval e => e.message

/-- The failure of a line in which places have moved. What went wrong stays the same. -/
def moved (f : Nat → Nat) : Failure → Failure
  | .lex e => .lex (e.moved f)
  | .parse e => .parse (e.moved f)
  | .eval e => .eval e

end Failure

end LineCalc
