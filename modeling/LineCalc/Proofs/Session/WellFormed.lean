import LineCalc.Proofs.Expr.Exactness
import LineCalc.Proofs.Expr.Soundness
import LineCalc.Proofs.Session.Reply
import LineCalc.Proofs.Statement

/-!
# Sessions keep numbers well formed

Words are all that a line can write, operators keep numbers well formed, and so every number that is
reported or bound in the course of a session is well formed.
-/

namespace LineCalc

/-! ## Tables -/

namespace SymbolTable

variable {t : SymbolTable}

theorem WellFormed.insert (ht : t.WellFormed) {value : Number} (hv : value.WellFormed)
    (name : String) : (t.insert name value).WellFormed := by
  intro b hb
  rcases mem_insertEntry hb with rfl | hb
  · exact hv
  · exact ht b hb

theorem WellFormed.insertMany (ht : t.WellFormed) {bindings : List (String × Number)}
    (hb : ∀ b ∈ bindings, b.2.WellFormed) : (t.insertMany bindings).WellFormed := by
  induction bindings generalizing t with
  | nil => exact ht
  | cons b rest ih =>
      exact ih (ht.insert (hb b List.mem_cons_self) b.1) fun c hc => hb c (List.mem_cons_of_mem _ hc)

end SymbolTable

/-! ## Lines and sessions -/

namespace Session

variable {table : SymbolTable}

/-- A line is split into literals that are made of words. -/
theorem literalsFit_of_statement? {source : String} {statement : Statement}
    (h : statement? source = some statement) : statement.body.LiteralsFit := by
  intro l hl
  obtain ⟨tokens, hline, hparse⟩ := statement?_eq_some_iff.mp h
  exact Token.ofLine_fits hline (Statement.body_tokens_subset hparse hl)

theorem reply_wellFormed (ht : table.WellFormed) {source : String} {r : Reply}
    (h : reply table source = .ok r) :
    r.table.WellFormed ∧ ∀ v, r.value = some v → v.WellFormed := by
  rcases reply_cases h with ⟨-, rfl⟩ | ⟨e, v, hparse, hv, rfl⟩ | ⟨name, e, v, hparse, hv, rfl⟩
  · exact ⟨ht, fun v hv => by cases hv⟩
  · have hwf := Expr.eval_wellFormed ht (literalsFit_of_statement? hparse) hv
    exact ⟨ht, fun w hw => by cases hw; exact hwf⟩
  · have hwf := Expr.eval_wellFormed ht (literalsFit_of_statement? hparse) hv
    exact ⟨ht.insert hwf name, fun w hw => by cases hw; exact hwf⟩

theorem afterLine_wellFormed (ht : table.WellFormed) (source : String) :
    (afterLine table source).WellFormed := by
  rw [afterLine]
  split
  · exact (reply_wellFormed ht ‹_›).1
  · exact ht

theorem afterLines_wellFormed (ht : table.WellFormed) (sources : List String) :
    (afterLines table sources).WellFormed := by
  induction sources generalizing table with
  | nil => exact ht
  | cons source rest ih => exact ih (afterLine_wellFormed ht source)

/-- A line traps at an operator in it. -/
theorem exists_trapsIn_of_reply_eq_trap (ht : table.WellFormed) {source : String}
    (h : reply table source = .trap) :
    ∃ statement, statement? source = some statement ∧ statement.body.TrapsIn table := by
  obtain ⟨statement, hparse, htrap⟩ := reply_eq_trap_iff.mp h
  exact ⟨statement, hparse, Expr.trapsIn_of_eval_eq_trap ht (literalsFit_of_statement? hparse) htrap⟩

end Session

end LineCalc
