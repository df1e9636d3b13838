import LineCalc.Proofs.Expr.Substitution
import LineCalc.Proofs.Session.Reply
import LineCalc.Proofs.Token.Substitution

/-!
# Binding a name is replacing it by its definition

A line that binds a name to the value of an expression, and a second line that uses the name, come to
the same as the second line alone with the expression, in parentheses, for the name.
-/

namespace LineCalc.Session

variable {name body source : String} {b e : Expr} {v : Number}

theorem statement?_binding (hname : name ≠ "" ∧ ∀ c ∈ name.toList, c.isAlpha)
    (hbody : statement? body = some (.expression b)) :
    statement? (name ++ " = " ++ body) = some (.assignment name b) := by
  obtain ⟨hreads, hshape⟩ := statement?_eq_expression_iff.mp hbody
  refine statement?_eq_assignment_iff.mpr ⟨?_, hshape⟩
  have hletters : (Lexeme.letters name.toList).Patterned := ⟨by simpa using hname.1, hname.2⟩
  have hrest : Token.Reads (' ' :: '=' :: ' ' :: body.toList) (.symbol .equals :: b.tokens) :=
    .blank rfl (.symbol .equals (.blank rfl hreads))
  have hline := hrest.lexeme hletters (Lexeme.token?_eq_name_iff.mpr rfl)
    (Lexeme.endsBefore_cons_iff.mpr rfl)
  simpa [Lexeme.text] using hline

theorem statement?_substitute (hbody : statement? body = some (.expression b))
    (hsource : statement? source = some (.expression e)) :
    statement? (Token.substitute name body source) =
      some (.expression (Expr.substitute name b e)) := by
  obtain ⟨hreads, hshape⟩ := statement?_eq_expression_iff.mp hbody
  obtain ⟨hreads', hshape'⟩ := statement?_eq_expression_iff.mp hsource
  refine statement?_eq_expression_iff.mpr ⟨?_, hshape.substitute hshape'⟩
  rw [Token.substitute, String.toList_ofList, Expr.substitute_tokens]
  exact hreads.replaceName hreads'

/-- Both ways lead to the same value or the same error of evaluation. -/
theorem reply_binding_eq_substitute (table : SymbolTable) (name : String)
    (hname : name ≠ "" ∧ ∀ c ∈ name.toList, c.isAlpha)
    (hbody : statement? body = some (.expression b)) (hv : b.eval table = .ok v)
    (hsource : statement? source = some (.expression e)) :
    ∃ bound, reply table (name ++ " = " ++ body) = .ok bound ∧ bound.value = some v ∧
      (reply bound.table source).map Reply.value =
        (reply table (Token.substitute name body source)).map Reply.value ∧
      ∀ failure, reply bound.table source = .error failure → ∃ error, failure = .eval error := by
  refine ⟨⟨some v, table.insert name v⟩, ?_, rfl, ?_, ?_⟩
  · rw [reply_of_assignment (statement?_binding hname hbody), hv]
    rfl
  · rw [reply_of_expression hsource, reply_of_expression (statement?_substitute hbody hsource),
      Expr.eval_substitute hv]
    cases e.eval (table.insert name v) <;> rfl
  · intro failure hfailure
    rw [reply_of_expression hsource, Result.map_eq_error_iff,
      Result.mapError_eq_error_iff] at hfailure
    obtain ⟨error, -, rfl⟩ := hfailure
    exact ⟨error, rfl⟩

/-- A name that its own definition mentions, after a minus sign and below a power. The name `xy` stays
as it is. -/
theorem reply_binding_eq_substitute_half :
    let table : SymbolTable := ⟨[("x", .rational ⟨2, 1⟩), ("xy", .integer 3)]⟩
    ∃ bound, reply table "x = x + 1\\2" = .ok bound ∧ bound.value = some (.rational ⟨5, 2⟩) ∧
      (reply bound.table "-x ^ 2 / xy").map Reply.value =
        (reply table "-(x + 1\\2) ^ 2 / xy").map Reply.value ∧
      (reply bound.table "-x ^ 2 / xy").map Reply.value = .ok (some (.rational ⟨25, 12⟩)) := by
  intro table
  have hname : "x" ≠ "" ∧ ∀ c ∈ "x".toList, c.isAlpha := by simp
  have hbody : statement? "x + 1\\2" =
      some (.expression (.binary .add (.var "x") (.literal (.ratio 1 2)))) := by decide +kernel
  have hsource : statement? "-x ^ 2 / xy" = some (.expression (.binary .div
      (.binary .pow (.negate (.var "x")) (.literal (.integer 2))) (.var "xy"))) := by decide +kernel
  have hv : (Expr.binary .add (.var "x") (.literal (.ratio 1 2))).eval table =
      .ok (.rational ⟨5, 2⟩) := by decide +kernel
  obtain ⟨bound, hbound, hvalue, hsame, -⟩ :=
    reply_binding_eq_substitute table "x" hname hbody hv hsource
  have hline : Token.substitute "x" "x + 1\\2" "-x ^ 2 / xy" = "-(x + 1\\2) ^ 2 / xy" := by
    decide +kernel
  rw [hline] at hsame
  refine ⟨bound, hbound, hvalue, hsame, hsame.trans ?_⟩
  decide +kernel

end LineCalc.Session
