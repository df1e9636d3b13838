import LineCalc.Statement

/-!
# Where a line becomes hopeless

Tokens are viable as long as there is a statement that starts with them. `ParseError.Accounts` says what
an error tells about the tokens that it was made for: the place from which on they are not viable, or
the parenthesis that they leave open there.

In a balanced sequence each parenthesis has a partner. An opening one without a partner is the innermost
of its kind if the tokens after it are balanced.
-/

namespace LineCalc

namespace Token

def isParenthesis : Token → Bool
  | .symbol .opening | .symbol .closing => true
  | _ => false

/-- Each parenthesis has a partner. -/
inductive Balanced : List Token → Prop
  | nil : Balanced []
  | other {t : Token} {ts : List Token} :
      t.isParenthesis = false → Balanced ts → Balanced (t :: ts)
  | group {inner ts : List Token} :
      Balanced inner → Balanced ts → Balanced (.symbol .opening :: (inner ++ .symbol .closing :: ts))

/-- The innermost opening parenthesis without a partner is at the position. -/
def InnermostOpen (ts : List Located) (position : Nat) : Prop :=
  ∃ before after, ts = before ++ ⟨.symbol .opening, position⟩ :: after ∧
    Balanced (after.map Located.token)

end Token

namespace Statement

/-- The tokens are the start of a statement. -/
def Viable (ts : List Located) : Prop := ∃ more statement, ofTokens (ts ++ more) = .ok statement

/-- The tokens before `t` are viable, and together with `t` they are not. -/
structure HopelessAt (ts before : List Located) (t : Located) : Prop where
  isPrefix : before ++ [t] <+: ts
  viable : Viable before
  not_viable : ¬ Viable (before ++ [t])

/-- Of the viable prefixes it is the longest. -/
structure LongestViable (ts pre : List Located) : Prop where
  isPrefix : pre <+: ts
  viable : Viable pre
  length_le : ∀ other, other <+: ts → Viable other → other.length ≤ pre.length

end Statement

namespace ParseError

/-- What the error says is true of the tokens. -/
def Accounts (ts : List Located) : ParseError → Prop
  | .unexpectedToken token position => ∃ before, Statement.HopelessAt ts before ⟨token, position⟩
  | .trailingTokens token position =>
    ∃ before, Statement.HopelessAt ts before ⟨token, position⟩ ∧
      ∃ statement, Statement.ofTokens before = .ok statement
  | .unexpectedEnd =>
    Statement.Viable ts ∧ ∀ statement, Statement.ofTokens ts ≠ .ok statement
  | .expectedClosing position =>
    ∃ pre, Statement.LongestViable ts pre ∧ Token.InnermostOpen pre position

end ParseError

end LineCalc
