import LineCalc.Proofs.Expr.Completion
import LineCalc.Proofs.Statement
import LineCalc.Viability

/-!
# Errors are found where a line becomes hopeless

Tokens are viable exactly if the reader gets through them, since every state that it comes to can be
completed. So the token that it stops at is the one that makes a line hopeless, and what it reports is
true of the tokens.
-/

namespace LineCalc.Statement

open LineCalc.Expr (Reading)

/-! ## The state of the reader after some tokens -/

/-- The tokens of the expression in a statement. -/
def bodyTokens : List Located → List Located
  | ⟨.name _, _⟩ :: ⟨.symbol .equals, _⟩ :: rest => rest
  | ts => ts

/-- The state after the tokens of a statement. -/
def reading (ts : List Located) : Except ParseError Reading :=
  (bodyTokens ts).foldlM Reading.step (.beforeOperand [])

variable {ts before more : List Located} {t : Located} {r : Reading} {error : ParseError} {e : Expr}

theorem bodyTokens_of_not_startsAssignment (h : ¬ StartsAssignment ts) : bodyTokens ts = ts := by
  unfold bodyTokens
  split
  · exact absurd ⟨_, _, _, _, rfl⟩ h
  · rfl

/-- The tokens before the expression are before it in each prefix that takes in some of it, too. -/
theorem exists_head (ts : List Located) :
    ∃ head, ts = head ++ bodyTokens ts ∧
      ∀ pre, pre <+: bodyTokens ts → bodyTokens (head ++ pre) = pre := by
  by_cases hstart : StartsAssignment ts
  · obtain ⟨name, p, q, rest, rfl⟩ := hstart
    exact ⟨[⟨.name name, p⟩, ⟨.symbol .equals, q⟩], rfl, fun _ _ => rfl⟩
  · rw [bodyTokens_of_not_startsAssignment hstart]
    refine ⟨[], rfl, fun pre hpre => bodyTokens_of_not_startsAssignment fun hpreStart => hstart ?_⟩
    obtain ⟨rest, rfl⟩ := hpre
    exact hpreStart.append rest

theorem exists_ofTokens_eq_map (ts : List Located) :
    ∃ statement, ofTokens ts = (reading ts >>= Reading.finish).map statement := by
  by_cases hstart : StartsAssignment ts
  · obtain ⟨name, p, q, rest, rfl⟩ := hstart
    exact ⟨.assignment name, rfl⟩
  · rw [ofTokens_of_not_startsAssignment hstart, reading, bodyTokens_of_not_startsAssignment hstart]
    exact ⟨.expression, rfl⟩

theorem ofTokens_eq_error_iff :
    ofTokens ts = .error error ↔ (reading ts >>= Reading.finish) = .error error := by
  obtain ⟨statement, hts⟩ := exists_ofTokens_eq_map ts
  rw [hts, map_eq_error_iff]

theorem exists_ofTokens_eq_ok_iff :
    (∃ statement, ofTokens ts = .ok statement) ↔
      ∃ e, (reading ts >>= Reading.finish) = .ok e := by
  obtain ⟨statement, hts⟩ := exists_ofTokens_eq_map ts
  rw [hts, exists_map_eq_ok_iff]

/-! ## Viable tokens -/

theorem exists_run_of_append (h : Expr.ofTokens (ts ++ more) = .ok e) :
    ∃ r, ts.foldlM Reading.step (.beforeOperand []) = .ok r := by
  obtain ⟨_, hrun, -⟩ := bind_eq_ok_iff.mp h
  rw [List.foldlM_append] at hrun
  obtain ⟨r, hr, -⟩ := bind_eq_ok_iff.mp hrun
  exact ⟨r, hr⟩

theorem Viable.exists_reading (h : Viable ts) : ∃ r, reading ts = .ok r := by
  obtain ⟨more, statement, h⟩ := h
  by_cases hstart : StartsAssignment ts
  · obtain ⟨name, p, q, rest, rfl⟩ := hstart
    obtain ⟨e, he, -⟩ := map_eq_ok_iff.mp h
    exact exists_run_of_append he
  by_cases hmore : StartsAssignment (ts ++ more)
  -- The assignment starts in what follows, and a name alone is read in any case.
  · obtain ⟨name, p, q, rest, heq⟩ := hmore
    match ts, heq with
    | [], _ => exact ⟨_, rfl⟩
    | [t], heq =>
        cases (List.cons.inj heq).1
        exact ⟨_, rfl⟩
    | t :: u :: ts, heq =>
        obtain ⟨rfl, hrest⟩ := List.cons.inj heq
        obtain ⟨rfl, -⟩ := List.cons.inj hrest
        exact absurd ⟨_, _, _, _, rfl⟩ hstart
  · rw [ofTokens_of_not_startsAssignment hmore] at h
    obtain ⟨e, he, -⟩ := map_eq_ok_iff.mp h
    rw [reading, bodyTokens_of_not_startsAssignment hstart]
    exact exists_run_of_append he

theorem viable_of_reading (h : reading ts = .ok r) : Viable ts := by
  obtain ⟨more, e, he⟩ := r.completable
  have hbody : Expr.ofTokens (bodyTokens ts ++ more) = .ok e := by
    rw [Expr.ofTokens, List.foldlM_append, ← reading, h, ok_bind, he]
  refine ⟨more, ?_⟩
  by_cases hstart : StartsAssignment ts
  · obtain ⟨name, p, q, rest, rfl⟩ := hstart
    exact ⟨.assignment name e, map_eq_ok_iff.mpr ⟨e, hbody, rfl⟩⟩
  · rw [bodyTokens_of_not_startsAssignment hstart] at hbody
    exact ⟨.expression e, ofTokens_eq_expression_iff.mpr hbody⟩

theorem viable_iff : Viable ts ↔ ∃ r, reading ts = .ok r :=
  ⟨Viable.exists_reading, fun ⟨_, h⟩ => viable_of_reading h⟩

theorem Viable.of_isPrefix (h : Viable ts) (hpre : before <+: ts) : Viable before := by
  obtain ⟨rest, rfl⟩ := hpre
  obtain ⟨more, statement, h⟩ := h
  exact ⟨rest ++ more, statement, by rw [← List.append_assoc, h]⟩

theorem HopelessAt.longestViable (h : HopelessAt ts before t) : LongestViable ts before := by
  refine ⟨(List.prefix_append before [t]).trans h.isPrefix, h.viable, fun other hother hviable => ?_⟩
  refine Nat.le_of_not_lt fun hlt => h.not_viable (hviable.of_isPrefix ?_)
  exact List.prefix_of_prefix_length_le h.isPrefix hother (by rw [List.length_append]; exact hlt)

/-! ## Where the reader stops -/

theorem exists_hopelessAt (h : reading ts = .error error) :
    ∃ before t r, HopelessAt ts before t ∧ reading before = .ok r ∧ r.step t = .error error := by
  obtain ⟨head, hts, hhead⟩ := exists_head ts
  obtain ⟨before, t, after, r, hbody, hrun, hstep⟩ := exists_of_foldlM_eq_error h
  have hbefore : reading (head ++ before) = .ok r := by
    rw [reading, hhead before ⟨t :: after, hbody.symm⟩, hrun]
  have hstop : reading (head ++ before ++ [t]) = .error error := by
    rw [List.append_assoc, reading, hhead (before ++ [t]) ⟨after, by rw [hbody]; simp⟩,
      List.foldlM_append, hrun, ok_bind, List.foldlM_cons, hstep]
    rfl
  refine ⟨head ++ before, t, r, ⟨⟨after, by rw [hts, hbody]; simp⟩, viable_iff.mpr ⟨r, hbefore⟩, ?_⟩,
    hbefore, hstep⟩
  intro hviable
  obtain ⟨r', hr'⟩ := viable_iff.mp hviable
  cases hstop.symm.trans hr'

theorem innermostOpen_of_reading (h : reading ts = .ok r) {position : Nat} {positions : List Nat}
    (hr : r.openings = position :: positions) : Token.InnermostOpen ts position := by
  obtain ⟨head, hts, -⟩ := exists_head ts
  have hempty : Token.Unclosed [] (Reading.beforeOperand []).openings := .balanced .nil
  have hunclosed := Reading.run_unclosed hempty h
  rw [hr, List.nil_append] at hunclosed
  rw [hts]
  exact hunclosed.innermostOpen.prepend head

/-- What an error says is true of the tokens that are refused. -/
theorem ofTokens_error_accounts (h : ofTokens ts = .error error) : error.Accounts ts := by
  have hrun := ofTokens_eq_error_iff.mp h
  cases hreading : reading ts with
  | error stop =>
      obtain ⟨before, t, r, hopeless, hbefore, hstep⟩ := exists_hopelessAt hreading
      rw [hreading] at hrun
      cases hrun
      rcases Reading.step_eq_error hstep with
        rfl | ⟨rfl, e, he⟩ | ⟨position, positions, rfl, hopen⟩
      · exact ⟨before, hopeless⟩
      · refine ⟨before, hopeless, exists_ofTokens_eq_ok_iff.mpr ⟨e, ?_⟩⟩
        rw [hbefore, ok_bind, he]
      · exact ⟨before, hopeless.longestViable, innermostOpen_of_reading hbefore hopen⟩
  | ok r =>
      rw [hreading, ok_bind] at hrun
      have hviable := viable_iff.mpr ⟨r, hreading⟩
      rcases Reading.finish_eq_error hrun with rfl | ⟨position, positions, rfl, hopen⟩
      · exact ⟨hviable, fun statement hok => by cases h.symm.trans hok⟩
      · exact ⟨ts, ⟨List.prefix_rfl, hviable, fun other hother _ => hother.length_le⟩,
          innermostOpen_of_reading hreading hopen⟩

/-- The outer group of two is left open, and a number stands where it should be closed. -/
theorem ofTokens_error_accounts_group :
    let ts : List Located := [⟨.name "y", 0⟩, ⟨.symbol .equals, 2⟩, ⟨.symbol .opening, 4⟩,
      ⟨.literal (.integer 2), 5⟩, ⟨.symbol (.operator .mul), 7⟩, ⟨.symbol .opening, 9⟩,
      ⟨.name "x", 10⟩, ⟨.symbol .closing, 11⟩, ⟨.literal (.integer 4), 13⟩]
    ofTokens ts = .error (.expectedClosing 4) ∧
      ∃ pre, LongestViable ts pre ∧ Token.InnermostOpen pre 4 := by
  intro ts
  have h : ofTokens ts = .error (.expectedClosing 4) := rfl
  exact ⟨h, ofTokens_error_accounts h⟩

end LineCalc.Statement
