import LineCalc.Proofs.Expr.Completeness
import LineCalc.Statement

/-!
# Which tokens are which statement

The tokens that are read as a tree are those that the tree is written with, if the grammar derives
it, and no others. An assignment is a name and an equals sign before such tokens.
-/

namespace LineCalc

theorem Expr.ofTokens_eq_ok_iff {ts : List Located} {e : Expr} :
    ofTokens ts = .ok e ↔ Shaped .sum e ∧ e.tokens = ts.map Located.token :=
  ⟨ofTokens_sound, fun ⟨h, hts⟩ => ofTokens_complete h hts.symm⟩

namespace Statement

/-- The first two tokens are a name and an equals sign. -/
def StartsAssignment (ts : List Located) : Prop :=
  ∃ name p q rest, ts = ⟨.name name, p⟩ :: ⟨.symbol .equals, q⟩ :: rest

theorem StartsAssignment.append {ts : List Located} (h : StartsAssignment ts)
    (more : List Located) : StartsAssignment (ts ++ more) := by
  obtain ⟨name, p, q, rest, rfl⟩ := h
  exact ⟨name, p, q, rest ++ more, rfl⟩

theorem ofTokens_of_not_startsAssignment {ts : List Located} (h : ¬ StartsAssignment ts) :
    ofTokens ts = (Expr.ofTokens ts).map .expression := by
  unfold ofTokens
  split
  · exact absurd ⟨_, _, _, _, rfl⟩ h
  · rfl

/-- A name before an equals sign is no part of an expression. -/
theorem name_equals_not_expression {name : String} {p q : Nat} {rest : List Located} {e : Expr} :
    Expr.ofTokens (⟨.name name, p⟩ :: ⟨.symbol .equals, q⟩ :: rest) ≠ .ok e := by
  intro h
  cases h

theorem ofTokens_eq_assignment_iff {ts : List Located} {name : String} {value : Expr} :
    ofTokens ts = .ok (.assignment name value) ↔
      ts.map Located.token = .name name :: .symbol .equals :: value.tokens ∧
        Expr.Shaped .sum value := by
  constructor
  · intro h
    unfold ofTokens at h
    split at h
    · obtain ⟨e, he, hassign⟩ := map_eq_ok_iff.mp h
      cases hassign
      obtain ⟨hshape, htokens⟩ := Expr.ofTokens_eq_ok_iff.mp he
      exact ⟨by simp [htokens], hshape⟩
    · obtain ⟨e, -, hassign⟩ := map_eq_ok_iff.mp h
      cases hassign
  · rintro ⟨hts, hshape⟩
    obtain ⟨⟨first, p⟩, rest, rfl, rfl, hrest⟩ := List.map_eq_cons_iff.mp hts
    obtain ⟨⟨second, q⟩, tail, rfl, rfl, htail⟩ := List.map_eq_cons_iff.mp hrest
    exact map_eq_ok_iff.mpr ⟨value, Expr.ofTokens_eq_ok_iff.mpr ⟨hshape, htail.symm⟩, rfl⟩

theorem ofTokens_eq_expression_iff {ts : List Located} {e : Expr} :
    ofTokens ts = .ok (.expression e) ↔ Expr.ofTokens ts = .ok e := by
  unfold ofTokens
  split
  · constructor
    · intro h
      obtain ⟨_, -, hassign⟩ := map_eq_ok_iff.mp h
      cases hassign
    · intro h
      exact absurd h name_equals_not_expression
  · simp [map_eq_ok_iff]

/-- The expression of a statement. -/
def body : Statement → Expr
  | .assignment _ e => e
  | .expression e => e

theorem body_tokens_subset {ts : List Located} {statement : Statement}
    (h : ofTokens ts = .ok statement) : statement.body.tokens ⊆ ts.map Located.token := by
  cases statement with
  | assignment name e =>
      rw [(ofTokens_eq_assignment_iff.mp h).1]
      exact fun _ ht => List.mem_cons_of_mem _ (List.mem_cons_of_mem _ ht)
  | expression e =>
      rw [← (Expr.ofTokens_eq_ok_iff.mp (ofTokens_eq_expression_iff.mp h)).2]
      exact fun _ ht => ht

/-- The reader accepts the language of the grammar, with one tree for each of its sequences. -/
theorem ofTokens_iff_grammar (ts : List Located) :
    (∀ e, Expr.ofTokens ts = .ok e ↔ Expr.Shaped .sum e ∧ e.tokens = ts.map Located.token) ∧
    (∀ name value, ofTokens ts = .ok (.assignment name value) ↔
      ts.map Located.token = .name name :: .symbol .equals :: value.tokens ∧
        Expr.Shaped .sum value) ∧
    (∀ e, ofTokens ts = .ok (.expression e) ↔
      Expr.Shaped .sum e ∧ e.tokens = ts.map Located.token) :=
  ⟨fun _ => Expr.ofTokens_eq_ok_iff, fun _ _ => ofTokens_eq_assignment_iff,
    fun _ => ofTokens_eq_expression_iff.trans Expr.ofTokens_eq_ok_iff⟩

end Statement

end LineCalc
