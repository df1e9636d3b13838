import LineCalc.Expr.Basic

/-!
# Reading an expression

Tokens are read one at a time. What has been read is kept as the context of the next operand, a
stack of frames, innermost first; an operator settles the frames that group before it. Every state
can be completed to an expression, and a token is refused on the spot when no state comes after it.
-/

namespace LineCalc

/-- Why tokens are no expression. -/
inductive ParseError where
  /-- The token cannot start an operand. -/
  | unexpectedToken (token : Token) (position : Nat)
  /-- An operand is missing at the end. -/
  | unexpectedEnd
  /-- A group goes on with something other than an operator or its closing parenthesis; the position
  is that of its opening one. -/
  | expectedClosing (position : Nat)
  /-- The expression is complete before this token. -/
  | trailingTokens (token : Token) (position : Nat)
deriving DecidableEq

namespace ParseError

def message : ParseError → String
  | .unexpectedToken token position =>
    let shown := token.quoted
    s!"Parser error: unexpected token {shown} at position {position}."
  | .unexpectedEnd => "Parser error: unexpected end of input."
  | .expectedClosing position =>
    s!"Parser error: expected closing parenthesis ')' for the group opened at position {position}."
  | .trailingTokens token position =>
    let shown := token.quoted
    s!"Parser error: extra tokens after expression, starting with {shown} at position {position}."

/-- The error of a line in which places have moved. -/
def moved (f : Nat → Nat) : ParseError → ParseError
  | .unexpectedToken token position => .unexpectedToken token (f position)
  | .unexpectedEnd => .unexpectedEnd
  | .expectedClosing position => .expectedClosing (f position)
  | .trailingTokens token position => .trailingTokens token (f position)

end ParseError

namespace Expr

/-- A part of an expression that waits for an operand. -/
inductive Frame where
  /-- A minus sign before the operand. -/
  | negation
  /-- A left operand and its operator. -/
  | left (operand : Expr) (op : Operator)
  /-- An opening parenthesis. -/
  | group (position : Nat)
deriving DecidableEq

namespace Frame

def position? : Frame → Option Nat
  | .group position => some position
  | _ => none

/-- Gives the operand to the innermost frames as long as they take it: a minus sign always does,
and an operator when it is `ready`. -/
def settle (ready : Operator → Bool) : List Frame → Expr → List Frame × Expr
  | .negation :: context, e => settle ready context (.negate e)
  | .left l op :: context, e =>
    if ready op then settle ready context (.binary op l e) else (.left l op :: context, e)
  | context, e => (context, e)

end Frame

/-- How far an expression has been read. -/
inductive Reading where
  /-- The next token starts an operand. -/
  | beforeOperand (context : List Frame)
  /-- An operand is complete, perhaps to be followed by an operator. -/
  | afterOperand (context : List Frame) (operand : Expr)
deriving DecidableEq

namespace Reading

/-- A token where an operand starts. -/
def startOperand (context : List Frame) (t : Located) : Except ParseError Reading :=
  match t.token, context with
  | .literal l, _ => .ok (.afterOperand context (.literal l))
  | .name n, _ => .ok (.afterOperand context (.var n))
  | .symbol .opening, _ => .ok (.beforeOperand (.group t.position :: context))
  | .symbol (.operator .sub), .negation :: _ => .error (.unexpectedToken t.token t.position)
  | .symbol (.operator .sub), _ => .ok (.beforeOperand (.negation :: context))
  | _, _ => .error (.unexpectedToken t.token t.position)

/-- A token after an operand that neither goes on with the expression nor closes a group. -/
def refuse (context : List Frame) (t : Located) : ParseError :=
  match context.findSome? Frame.position? with
  | some position => .expectedClosing position
  | none => .trailingTokens t.token t.position

/-- A token after an operand. -/
def continueOperand (context : List Frame) (operand : Expr) (t : Located) :
    Except ParseError Reading :=
  match t.token with
  | .symbol (.operator op) =>
    let (context, left) := Frame.settle (·.groupsBefore op) context operand
    .ok (.beforeOperand (.left left op :: context))
  | .symbol .closing =>
    match Frame.settle (fun _ => true) context operand with
    | (.group _ :: context, inner) => .ok (.afterOperand context (.group inner))
    | _ => .error (refuse context t)
  | _ => .error (refuse context t)

/-- The state after one more token. -/
def step : Reading → Located → Except ParseError Reading
  | .beforeOperand context, t => startOperand context t
  | .afterOperand context operand, t => continueOperand context operand t

/-- The expression, if it may end here. -/
def finish : Reading → Except ParseError Expr
  | .beforeOperand _ => .error .unexpectedEnd
  | .afterOperand context operand =>
    match Frame.settle (fun _ => true) context operand with
    | (.group position :: _, _) => .error (.expectedClosing position)
    | (_, e) => .ok e

end Reading

/-- The expression that the tokens are, all of them. -/
def ofTokens (tokens : List Located) : Except ParseError Expr := do
  let reading ← tokens.foldlM Reading.step (.beforeOperand [])
  reading.finish

end Expr

end LineCalc
