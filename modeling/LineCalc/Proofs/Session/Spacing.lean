import LineCalc.Proofs.Relocation
import LineCalc.Proofs.Session.Reply
import LineCalc.Proofs.Token.Spacing

/-!
# Lines with added blanks

Blanks that are added before tokens or at the end of a line only move its tokens. So the reply is the
same, and a failure is the same but for the place that it names.
-/

namespace LineCalc.Session

variable {table : SymbolTable} {source other : String} {tokens : List Located} {f : Nat → Nat}

/-- An evaluation fails at no place. -/
theorem reply_of_same_statement {statement : Statement} (h : statement? source = some statement)
    (hother : statement? other = some statement) :
    reply table other = (reply table source).mapError (Failure.moved f) := by
  rw [reply_of_statement? h, reply_of_statement? hother]
  cases statement.run table <;> rfl

/-- Where the tokens of a line are makes no difference but to the place of a failure. -/
theorem reply_of_ofLine_moved (hline : Token.ofLine source = .ok tokens)
    (hother : Token.ofLine other = .ok (tokens.map (Located.moved f))) :
    reply table other = (reply table source).mapError (Failure.moved f) := by
  by_cases hne : tokens = []
  · subst hne
    rw [reply_of_blank hline, reply_of_blank hother, Result.mapError_ok]
  have hparse := Statement.ofTokens_map_moved f tokens
  cases hstatement : Statement.ofTokens tokens with
  | ok statement =>
      rw [hstatement] at hparse
      exact reply_of_same_statement (statement?_eq_some_iff.mpr ⟨_, hline, hstatement⟩)
        (statement?_eq_some_iff.mpr ⟨_, hother, hparse⟩)
  | error e =>
      rw [hstatement] at hparse
      rw [reply_of_ofTokens_eq_error hline hne hstatement,
        reply_of_ofTokens_eq_error hother (mt List.map_eq_nil_iff.mp hne) hparse]
      rfl

/-- With blanks added where tokens start or at the end, a line has the same tokens at places that have
moved. It gets the same reply, and a failure at a place names the place to which that has moved. -/
theorem reply_respace {runs : Nat → List Char} (hline : Token.ofLine source = .ok tokens)
    (hspacing : Token.Spacing source tokens runs) :
    Token.ofLine (Token.respace runs source) =
      .ok (tokens.map (Located.moved (Token.shift runs))) ∧
    ∀ table, reply table (Token.respace runs source) =
      (reply table source).mapError (Failure.moved (Token.shift runs)) := by
  have hother := Token.ofLine_respace hline hspacing
  exact ⟨hother, fun _ => reply_of_ofLine_moved hline hother⟩

/-- A line break after the equals sign, a space between two tokens that touch, and a form feed at the
end. -/
theorem reply_respace_touching :
    let runs : Nat → List Char := fun position =>
      if position = 2 then ['\r', '\n'] else if position = 5 then [' ']
      else if position = 7 then ['\x0c'] else []
    let source := "x=1\\2(3"
    let tokens : List Located := [⟨.name "x", 0⟩, ⟨.symbol .equals, 1⟩, ⟨.literal (.ratio 1 2), 2⟩,
      ⟨.symbol .opening, 5⟩, ⟨.literal (.integer 3), 6⟩]
    Token.ofLine source = .ok tokens ∧ Token.Spacing source tokens runs ∧
      Token.respace runs source = "x=\r\n1\\2 (3\x0c" ∧
      reply ∅ source = .error (.parse (.trailingTokens (.symbol .opening) 5)) ∧
      reply ∅ "x=\r\n1\\2 (3\x0c" = .error (.parse (.trailingTokens (.symbol .opening) 8)) := by
  intro runs source tokens
  have hline : Token.ofLine source = .ok tokens := by decide +kernel
  have hspacing : Token.Spacing source tokens runs := by
    constructor
    · intro position c hc
      simp only [runs] at hc
      split at hc
      · rcases List.mem_cons.mp hc with rfl | hc
        · rfl
        · rw [List.mem_singleton.mp hc]; rfl
      split at hc
      · rw [List.mem_singleton.mp hc]; rfl
      split at hc
      · rw [List.mem_singleton.mp hc]; rfl
      · cases hc
    · intro position hne
      simp only [runs] at hne
      split at hne
      · rename_i hposition
        exact .inr ⟨⟨.literal (.ratio 1 2), 2⟩, by decide, hposition.symm⟩
      split at hne
      · rename_i hposition
        exact .inr ⟨⟨.symbol .opening, 5⟩, by decide, hposition.symm⟩
      split at hne
      · rename_i hposition
        exact .inl (hposition.trans (show 7 = source.utf8ByteSize by decide +kernel))
      · exact absurd rfl hne
  have hrespace : Token.respace runs source = "x=\r\n1\\2 (3\x0c" := by decide +kernel
  have hreply : reply ∅ source = .error (.parse (.trailingTokens (.symbol .opening) 5)) := by
    decide +kernel
  refine ⟨hline, hspacing, hrespace, hreply, ?_⟩
  obtain ⟨-, hmoved⟩ := reply_respace hline hspacing
  rw [← hrespace, hmoved, hreply]
  decide +kernel

end LineCalc.Session
