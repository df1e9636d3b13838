import LineCalc.Expr.Evaluation
import LineCalc.Proofs.SymbolTable
import LineCalc.Token.Editing

/-!
# Variables and what is put for them

The variables of an expression are the names among its tokens, and their bindings are all that its value
takes from a table.

With an expression in parentheses for a variable, a tree keeps its level in the grammar. It is written
with the tokens of the expression for the name, and it evaluates as if the name were bound to the value
of the expression.
-/

namespace LineCalc.Expr

theorem mem_vars_iff {name : String} {e : Expr} : name ∈ e.vars ↔ .name name ∈ e.tokens := by
  induction e with
  | literal l => simp [vars, tokens]
  | var n => simp [vars, tokens]
  | negate e ih => simp [vars, tokens, ih]
  | group e ih => simp [vars, tokens, ih]
  | binary op l r ihl ihr => simp [vars, tokens, ihl, ihr]

theorem eval_congr {t u : SymbolTable} {e : Expr} (h : ∀ name ∈ e.vars, t.get? name = u.get? name) :
    e.eval t = e.eval u := by
  induction e with
  | literal l => rfl
  | var name => simp only [eval, h name List.mem_cons_self]
  | negate e ih => simp only [eval, ih h]
  | group e ih => exact ih h
  | binary op l r ihl ihr =>
      have hl := ihl fun name hn => h name (List.mem_append_left _ hn)
      have hr := ihr fun name hn => h name (List.mem_append_right _ hn)
      simp only [eval, hl, hr]

/-! ## Substitution -/

/-- The tree with the expression, in parentheses, for the variable. -/
def substitute (name : String) (body : Expr) : Expr → Expr
  | .literal l => .literal l
  | .var n => if n = name then .group body else .var n
  | .negate e => .negate (substitute name body e)
  | .group e => .group (substitute name body e)
  | .binary op l r => .binary op (substitute name body l) (substitute name body r)

variable {name : String} {body : Expr}

theorem substitute_tokens (e : Expr) :
    (substitute name body e).tokens = e.tokens.flatMap (Token.replaced name (group body).tokens) := by
  induction e with
  | literal l => simp [substitute, tokens, Token.replaced]
  | var n =>
      by_cases hn : n = name
      · simp [substitute, tokens, Token.replaced, hn]
      · simp [substitute, tokens, Token.replaced, hn]
  | negate e ih => simp [substitute, tokens, Token.replaced, ih]
  | group e ih => simp [substitute, tokens, Token.replaced, ih]
  | binary op l r ihl ihr => simp [substitute, tokens, Token.replaced, ihl, ihr]

theorem Shaped.substitute (hbody : Shaped .sum body) {level : Level} {e : Expr}
    (h : Shaped level e) : Shaped level (Expr.substitute name body e) := by
  induction h with
  | literal l => exact .literal l
  | var n =>
      simp only [Expr.substitute]
      split
      · exact .group hbody
      · exact .var n
  | group _ ih => exact .group ih
  | atom _ ih => exact .atom ih
  | negate _ ih => exact .negate ih
  | operand _ ih => exact .operand ih
  | pow _ _ ihl ihr => exact .pow ihl ihr
  | power _ ih => exact .power ih
  | mul _ _ ihl ihr => exact .mul ihl ihr
  | div _ _ ihl ihr => exact .div ihl ihr
  | term _ ih => exact .term ih
  | add _ _ ihl ihr => exact .add ihl ihr
  | sub _ _ ihl ihr => exact .sub ihl ihr

/-- Inside the expression the name keeps its former value. -/
theorem eval_substitute {table : SymbolTable} {v : Number} (hbody : body.eval table = .ok v)
    (e : Expr) : (substitute name body e).eval table = e.eval (table.insert name v) := by
  induction e with
  | literal l => rfl
  | var n =>
      simp only [substitute, eval, SymbolTable.get?_insert]
      by_cases hn : n = name
      · simpa only [if_pos hn, eval] using hbody
      · simp only [if_neg hn, eval]
  | negate e ih => simp only [substitute, eval, ih]
  | group e ih => exact ih
  | binary op l r ihl ihr => simp only [substitute, eval, ihl, ihr]

end LineCalc.Expr
