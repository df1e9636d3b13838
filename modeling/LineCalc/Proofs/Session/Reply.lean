import LineCalc.Proofs.Outcome
import LineCalc.Proofs.Statement
import LineCalc.Proofs.SymbolTable
import LineCalc.Proofs.Token.Reading
import LineCalc.Session.Basic

/-!
# What a line says and what it is answered

A line says a statement when it is read as the tokens of the statement, wherever its blanks are. What
it says and the table determine the reply. A line that succeeds is blank, an expression or an
assignment, and only an assignment changes the table: it binds its name to its value.
-/

namespace LineCalc.Session

/-- The statement that a line is. -/
def statement? (source : String) : Option Statement := do
  let tokens ← (Token.ofLine source).toOption
  (Statement.ofTokens tokens).toOption

variable {table : SymbolTable} {source name : String} {e : Expr} {r : Reply}

theorem statement?_eq_some_iff {statement : Statement} :
    statement? source = some statement ↔
      ∃ tokens, Token.ofLine source = .ok tokens ∧ Statement.ofTokens tokens = .ok statement := by
  simp only [statement?, Option.bind_eq_bind, Option.bind_eq_some_iff, toOption_eq_some_iff]

theorem reply_of_blank (hline : Token.ofLine source = .ok []) :
    reply table source = .ok ⟨none, table⟩ := by
  rw [reply, hline]
  rfl

theorem reply_cases (h : reply table source = .ok r) :
    (Token.ofLine source = .ok [] ∧ r = ⟨none, table⟩) ∨
    (∃ e v, statement? source = some (.expression e) ∧ e.eval table = .ok v ∧
      r = ⟨some v, table⟩) ∨
    (∃ name e v, statement? source = some (.assignment name e) ∧ e.eval table = .ok v ∧
      r = ⟨some v, table.insert name v⟩) := by
  unfold reply at h
  obtain ⟨tokens, htokens, h⟩ := Result.bind_eq_ok_iff.mp h
  have hline := mapError_eq_ok_iff.mp (Result.ofExcept_eq_ok_iff.mp htokens)
  split at h
  · cases h
    exact .inl ⟨hline, rfl⟩
  · obtain ⟨statement, hstatement, h⟩ := Result.bind_eq_ok_iff.mp h
    obtain ⟨evaluation, hevaluation, h⟩ := Result.bind_eq_ok_iff.mp h
    cases h
    have hparse := statement?_eq_some_iff.mpr
      ⟨_, hline, mapError_eq_ok_iff.mp (Result.ofExcept_eq_ok_iff.mp hstatement)⟩
    have hrun := Result.mapError_eq_ok_iff.mp hevaluation
    cases statement with
    | assignment name e =>
        obtain ⟨v, hv, hrun⟩ := Result.bind_eq_ok_iff.mp hrun
        cases hrun
        exact .inr (.inr ⟨name, e, v, hparse, hv, rfl⟩)
    | expression e =>
        obtain ⟨v, hv, hrun⟩ := Result.bind_eq_ok_iff.mp hrun
        cases hrun
        exact .inr (.inl ⟨e, v, hparse, hv, rfl⟩)

/-! ## Statements -/

theorem statement?_eq_expression_iff :
    statement? source = some (.expression e) ↔
      Token.Reads source.toList e.tokens ∧ Expr.Shaped .sum e := by
  rw [statement?_eq_some_iff, ← Token.Reads.exists_ofLine_iff]
  constructor
  · rintro ⟨tokens, hline, hparse⟩
    obtain ⟨hshape, htokens⟩ :=
      Expr.ofTokens_eq_ok_iff.mp (Statement.ofTokens_eq_expression_iff.mp hparse)
    exact ⟨⟨tokens, hline, htokens.symm⟩, hshape⟩
  · rintro ⟨⟨tokens, hline, htokens⟩, hshape⟩
    exact ⟨tokens, hline, Statement.ofTokens_eq_expression_iff.mpr
      (Expr.ofTokens_eq_ok_iff.mpr ⟨hshape, htokens.symm⟩)⟩

theorem statement?_eq_assignment_iff :
    statement? source = some (.assignment name e) ↔
      Token.Reads source.toList (.name name :: .symbol .equals :: e.tokens) ∧ Expr.Shaped .sum e := by
  rw [statement?_eq_some_iff, ← Token.Reads.exists_ofLine_iff]
  constructor
  · rintro ⟨tokens, hline, hparse⟩
    obtain ⟨htokens, hshape⟩ := Statement.ofTokens_eq_assignment_iff.mp hparse
    exact ⟨⟨tokens, hline, htokens⟩, hshape⟩
  · rintro ⟨⟨tokens, hline, htokens⟩, hshape⟩
    exact ⟨tokens, hline, Statement.ofTokens_eq_assignment_iff.mpr ⟨htokens, hshape⟩⟩

theorem reply_of_statement? {statement : Statement} (h : statement? source = some statement) :
    reply table source = do
      let evaluation ← (statement.run table).mapError .eval
      return ⟨some evaluation.value, table.merge evaluation.delta⟩ := by
  obtain ⟨tokens, hline, hparse⟩ := statement?_eq_some_iff.mp h
  rw [reply, hline]
  cases tokens with
  | nil => cases hparse
  | cons t tokens =>
      change (Result.ofExcept ((Statement.ofTokens (t :: tokens)).mapError Failure.parse) >>= _) = _
      rw [hparse]
      rfl

theorem reply_of_ofTokens_eq_error {tokens : List Located} {error : ParseError}
    (hline : Token.ofLine source = .ok tokens) (hne : tokens ≠ [])
    (hparse : Statement.ofTokens tokens = .error error) :
    reply table source = .error (.parse error) := by
  obtain ⟨t, tokens, rfl⟩ := List.exists_cons_of_ne_nil hne
  rw [reply, hline]
  change (Result.ofExcept ((Statement.ofTokens (t :: tokens)).mapError Failure.parse) >>= _) = _
  rw [hparse]
  rfl

/-- A line that says nothing is blank, or it fails whatever the table is. -/
theorem reply_of_statement?_eq_none (h : statement? source = none) :
    (∀ table, reply table source = .ok ⟨none, table⟩) ∨
      ∃ failure, ∀ table, reply table source = .error failure := by
  cases hline : Token.ofLine source with
  | error error =>
      refine .inr ⟨.lex error, fun table => ?_⟩
      rw [reply, hline]
      rfl
  | ok tokens =>
      by_cases hne : tokens = []
      · exact .inl fun _ => reply_of_blank (hne ▸ hline)
      cases hparse : Statement.ofTokens tokens with
      | error error => exact .inr ⟨.parse error, fun _ => reply_of_ofTokens_eq_error hline hne hparse⟩
      | ok statement => cases h.symm.trans (statement?_eq_some_iff.mpr ⟨_, hline, hparse⟩)

theorem reply_of_expression (h : statement? source = some (.expression e)) :
    reply table source = ((e.eval table).mapError .eval).map fun value => ⟨some value, table⟩ := by
  rw [reply_of_statement? h, Statement.run]
  cases e.eval table <;> rfl

theorem reply_of_assignment (h : statement? source = some (.assignment name e)) :
    reply table source =
      ((e.eval table).mapError .eval).map fun value => ⟨some value, table.insert name value⟩ := by
  rw [reply_of_statement? h, Statement.run]
  cases e.eval table <;> rfl

theorem reply_eq_trap_iff :
    reply table source = .trap ↔
      ∃ statement, statement? source = some statement ∧ statement.body.eval table = .trap := by
  cases hs : statement? source with
  | none => rcases reply_of_statement?_eq_none hs with h | ⟨failure, h⟩ <;> simp [h]
  | some statement =>
      cases statement with
      | assignment name e =>
          simp [reply_of_assignment hs, Result.map_eq_trap_iff, Result.mapError_eq_trap_iff,
            Statement.body]
      | expression e =>
          simp [reply_of_expression hs, Result.map_eq_trap_iff, Result.mapError_eq_trap_iff,
            Statement.body]

end LineCalc.Session
