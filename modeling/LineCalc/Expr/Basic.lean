import LineCalc.Token.Basic

/-!
# Expressions

The tree of an expression. Parentheses are part of it, so an expression can be written back as the
tokens it was read from.

`Shaped` says which trees the grammar derives, and at which of its levels. Together with the tokens
of a tree it says which sequences are expressions and what they mean, without a word on how they are
read: sums and products take their operands from the left, and powers from the right.

The places of the expressions in an expression are counted in tokens. They tell two occurrences of one
expression apart, and one occurrence is to the left of another if it stops before that one starts.
-/

namespace LineCalc

inductive Expr where
  | literal (l : Literal)
  | var (name : String)
  | negate (e : Expr)
  | group (e : Expr)
  | binary (op : Operator) (left right : Expr)
deriving DecidableEq

namespace Expr

def tokens : Expr → List Token
  | .literal l => [.literal l]
  | .var name => [.name name]
  | .negate e => .symbol (.operator .sub) :: e.tokens
  | .group e => .symbol .opening :: (e.tokens ++ [.symbol .closing])
  | .binary op l r => l.tokens ++ .symbol (.operator op) :: r.tokens

def vars : Expr → List String
  | .literal _ => []
  | .var name => [name]
  | .negate e => e.vars
  | .group e => e.vars
  | .binary _ l r => l.vars ++ r.vars

/-- The expressions in an expression, itself included, in the order in which they are evaluated. -/
def subexpressions : Expr → List Expr
  | .literal l => [.literal l]
  | .var name => [.var name]
  | .negate e => e.subexpressions ++ [.negate e]
  | .group e => e.subexpressions ++ [.group e]
  | .binary op l r => l.subexpressions ++ r.subexpressions ++ [.binary op l r]

/-! ## The grammar -/

/-- The levels of the grammar, the tightest first. -/
inductive Level where
  | atom
  | operand
  | power
  | term
  | sum
deriving DecidableEq, Repr

/-- The grammar derives the tree at the level. -/
inductive Shaped : Level → Expr → Prop
  | literal (l : Literal) : Shaped .atom (.literal l)
  | var (name : String) : Shaped .atom (.var name)
  | group {e : Expr} : Shaped .sum e → Shaped .atom (.group e)
  | atom {e : Expr} : Shaped .atom e → Shaped .operand e
  | negate {e : Expr} : Shaped .atom e → Shaped .operand (.negate e)
  | operand {e : Expr} : Shaped .operand e → Shaped .power e
  | pow {l r : Expr} : Shaped .operand l → Shaped .power r → Shaped .power (.binary .pow l r)
  | power {e : Expr} : Shaped .power e → Shaped .term e
  | mul {l r : Expr} : Shaped .term l → Shaped .power r → Shaped .term (.binary .mul l r)
  | div {l r : Expr} : Shaped .term l → Shaped .power r → Shaped .term (.binary .div l r)
  | term {e : Expr} : Shaped .term e → Shaped .sum e
  | add {l r : Expr} : Shaped .sum l → Shaped .term r → Shaped .sum (.binary .add l r)
  | sub {l r : Expr} : Shaped .sum l → Shaped .term r → Shaped .sum (.binary .sub l r)

end Expr

/-! ## Places -/

/-- An expression in another one, with the number of tokens before it. -/
structure Occurrence where
  start : Nat
  expr : Expr
deriving DecidableEq

/-- The number of tokens up to the end. -/
def Occurrence.stop (o : Occurrence) : Nat := o.start + o.expr.tokens.length

/-- What occurs in an expression at some place, itself included. Operands come before what they are the
operands of, and the left one and all in it before the right one. -/
def Expr.occurrences (start : Nat) : Expr → List Occurrence
  | .literal l => [⟨start, .literal l⟩]
  | .var name => [⟨start, .var name⟩]
  | .negate e => e.occurrences (start + 1) ++ [⟨start, .negate e⟩]
  | .group e => e.occurrences (start + 1) ++ [⟨start, .group e⟩]
  | .binary op l r =>
    l.occurrences start ++ r.occurrences (start + l.tokens.length + 1) ++ [⟨start, .binary op l r⟩]

end LineCalc
