import LineCalc.Plot
import LineCalc.Proofs.Session.Reply

/-!
# Expressions of a plot and lines of a session

A text that is an expression has the same value in a plot as it has when it is entered as a line, and
a text that is neither an expression nor blank nor an assignment fails in the same way. In a plot a
blank text ends too early, and the text of an assignment ends before its equals sign.
-/

namespace LineCalc.Plot

open Statement (StartsAssignment)

variable {table : SymbolTable} {source : String} {tokens : List Located}

theorem value_of_ofLine_eq_error {error : LexError} (hline : Token.ofLine source = .error error) :
    value table source = .error (.lex error) := by
  rw [value, hline]
  rfl

theorem value_of_ofLine_eq_ok (hline : Token.ofLine source = .ok tokens) :
    value table source =
      .ofExcept ((Expr.ofTokens tokens).mapError .parse) >>= fun e =>
        (e.eval table).mapError .eval := by
  rw [value, hline]
  rfl

theorem value_of_ofTokens_eq_error {error : ParseError} (hline : Token.ofLine source = .ok tokens)
    (hparse : Expr.ofTokens tokens = .error error) : value table source = .error (.parse error) := by
  rw [value_of_ofLine_eq_ok hline, hparse]
  rfl

theorem value_of_expression {e : Expr}
    (h : Session.statement? source = some (.expression e)) :
    value table source = (e.eval table).mapError .eval := by
  obtain ⟨tokens, hline, hparse⟩ := Session.statement?_eq_some_iff.mp h
  rw [value_of_ofLine_eq_ok hline, Statement.ofTokens_eq_expression_iff.mp hparse]
  rfl

/-- The same value, and the table as it was, or the same failure. -/
theorem reply_eq_map_value
    (h : ∀ tokens, Token.ofLine source = .ok tokens → tokens ≠ [] ∧ ¬ StartsAssignment tokens) :
    Session.reply table source = (value table source).map fun v => ⟨some v, table⟩ := by
  cases hline : Token.ofLine source with
  | error error =>
      rw [value_of_ofLine_eq_error hline, Session.reply, hline]
      rfl
  | ok tokens =>
      obtain ⟨hne, hstart⟩ := h tokens hline
      have hparse := Statement.ofTokens_of_not_startsAssignment hstart
      cases he : Expr.ofTokens tokens with
      | error error =>
          rw [he] at hparse
          rw [value_of_ofTokens_eq_error hline he, Session.reply_of_ofTokens_eq_error hline hne hparse]
          rfl
      | ok e =>
          have hstatement : Session.statement? source = some (.expression e) :=
            Session.statement?_eq_some_iff.mpr
              ⟨tokens, hline, Statement.ofTokens_eq_expression_iff.mpr he⟩
          rw [value_of_expression hstatement, Session.reply_of_expression hstatement]

theorem value_of_blank (hline : Token.ofLine source = .ok []) :
    value table source = .error (.parse .unexpectedEnd) :=
  value_of_ofTokens_eq_error hline rfl

theorem value_of_assignment {name : String} {p q : Nat} {rest : List Located}
    (hline : Token.ofLine source = .ok (⟨.name name, p⟩ :: ⟨.symbol .equals, q⟩ :: rest)) :
    value table source = .error (.parse (.trailingTokens (.symbol .equals) q)) :=
  value_of_ofTokens_eq_error hline rfl

/-- The height at a point takes the values of its three texts in order, and their first failure or trap. -/
theorem heightAt_eq (coefficient constant x : String) :
    heightAt table coefficient constant x =
      match value table coefficient, value table constant, value table x with
      | .error failure, _, _ => .error failure
      | .trap, _, _ => .trap
      | .ok _, .error failure, _ => .error failure
      | .ok _, .trap, _ => .trap
      | .ok _, .ok _, .error failure => .error failure
      | .ok _, .ok _, .trap => .trap
      | .ok k, .ok c, .ok v => .ok (Binary64.fma k.toFloat v.toFloat c.toFloat) := by
  simp only [heightAt, Line.ofSources]
  cases value table coefficient with
  | ok k =>
      cases value table constant with
      | ok c => cases value table x <;> rfl
      | _ => rfl
  | _ => rfl

/-- A plot and a session read the same text alike, apart from blank texts and assignments. -/
theorem value_agrees_with_reply (table : SymbolTable) :
    (∀ source,
      (∀ tokens, Token.ofLine source = .ok tokens → tokens ≠ [] ∧ ¬ StartsAssignment tokens) →
      Session.reply table source = (value table source).map fun v => ⟨some v, table⟩) ∧
    (∀ source, (∀ c ∈ source.toList, Token.isBlank c = true) →
      Session.reply table source = .ok ⟨none, table⟩ ∧
        value table source = .error (.parse .unexpectedEnd)) ∧
    (∀ source name p q rest,
      Token.ofLine source = .ok (⟨.name name, p⟩ :: ⟨.symbol .equals, q⟩ :: rest) →
      value table source = .error (.parse (.trailingTokens (.symbol .equals) q))) ∧
    ∀ coefficient constant x, heightAt table coefficient constant x =
      match value table coefficient, value table constant, value table x with
      | .error failure, _, _ => .error failure
      | .trap, _, _ => .trap
      | .ok _, .error failure, _ => .error failure
      | .ok _, .trap, _ => .trap
      | .ok _, .ok _, .error failure => .error failure
      | .ok _, .ok _, .trap => .trap
      | .ok k, .ok c, .ok v => .ok (Binary64.fma k.toFloat v.toFloat c.toFloat) := by
  refine ⟨fun source => reply_eq_map_value, fun source hblank => ?_,
    fun source name p q rest => value_of_assignment, heightAt_eq⟩
  have hline := Token.Reads.ofLine_eq_nil_iff.mpr hblank
  exact ⟨Session.reply_of_blank hline, value_of_blank hline⟩

/-- A quotient that both refuse, and an assignment that only the session takes and that fails before
the point does. -/
theorem value_agrees_with_reply_assignment :
    let table : SymbolTable := ⟨[("x", .integer 2)]⟩
    Session.reply table "1 / (x - 2)" = (value table "1 / (x - 2)").map (fun v => ⟨some v, table⟩) ∧
      value table "x = = 1" = .error (.parse (.trailingTokens (.symbol .equals) 2)) ∧
      heightAt table "x" "x = = 1" "#" = .error (.parse (.trailingTokens (.symbol .equals) 2)) := by
  intro table
  obtain ⟨hexpression, -, hassignment, hheight⟩ := value_agrees_with_reply table
  have hline : Token.ofLine "1 / (x - 2)" = .ok [⟨.literal (.integer 1), 0⟩,
      ⟨.symbol (.operator .div), 2⟩, ⟨.symbol .opening, 4⟩, ⟨.name "x", 5⟩,
      ⟨.symbol (.operator .sub), 7⟩, ⟨.literal (.integer 2), 9⟩, ⟨.symbol .closing, 10⟩] := by
    decide +kernel
  have hequals := hassignment "x = = 1" "x" 0 2 _
    (show Token.ofLine "x = = 1" = .ok (⟨.name "x", 0⟩ :: ⟨.symbol .equals, 2⟩ ::
      [⟨.symbol .equals, 4⟩, ⟨.literal (.integer 1), 6⟩]) by decide +kernel)
  refine ⟨hexpression _ fun tokens htokens => ?_, hequals, ?_⟩
  · cases hline.symm.trans htokens
    exact ⟨nofun, nofun⟩
  · have hx : value table "x" = .ok (.integer 2) := by decide +kernel
    rw [hheight, hx, hequals]

end LineCalc.Plot
