import LineCalc.Proofs.Expr.Soundness
import LineCalc.Proofs.Token.Parentheses

/-!
# Every state of the reader can be completed

A state is left with as many open groups as there are opening parentheses without a partner. An operand
and a closing parenthesis for each of them complete it. So what a step refuses could not have been part
of an expression.
-/

namespace LineCalc.Expr

/-! ## Open groups -/

namespace Frame

/-- The positions of the groups of a context, the innermost first. -/
def openings (context : List Frame) : List Nat := context.filterMap position?

theorem openings_left (l : Expr) (op : Operator) (context : List Frame) :
    openings (.left l op :: context) = openings context := rfl

theorem openings_settle (ready : Operator → Bool) (context : List Frame) (e : Expr) :
    openings (settle ready context e).1 = openings context := by
  fun_induction settle ready context e with
  | case1 context e ih => exact ih
  | case2 l op context e _ ih => exact ih
  | case3 => rfl
  | case4 => rfl

/-- When everything is settled, an open group is all that can be innermost. -/
theorem settle_all_nil_or_group (context : List Frame) (e : Expr) :
    (∃ whole, settle (fun _ => true) context e = ([], whole)) ∨
      ∃ position outer inner,
        settle (fun _ => true) context e = (.group position :: outer, inner) := by
  fun_induction settle (fun _ => true) context e with
  | case1 context e ih => exact ih
  | case2 l op context e _ ih => exact ih
  | case3 l op context e hready => exact absurd rfl hready
  | case4 context e hnegation hleft =>
      cases context with
      | nil => exact .inl ⟨e, rfl⟩
      | cons frame context =>
          cases frame with
          | negation => exact absurd rfl (hnegation _)
          | left l op => exact absurd rfl (hleft _ _ _)
          | group position => exact .inr ⟨position, context, e, rfl⟩

end Frame

namespace Reading

/-- The positions of the open groups, the innermost first. -/
def openings : Reading → List Nat
  | .beforeOperand context => Frame.openings context
  | .afterOperand context _ => Frame.openings context

variable {r r' : Reading} {t : Located} {ts before : List Located} {context : List Frame}
  {operand : Expr} {position : Nat} {positions : List Nat}

/-! ## Completing a state -/

theorem exists_finish (h : Frame.openings context = []) (operand : Expr) :
    ∃ e, (afterOperand context operand).finish = .ok e := by
  have hopenings := Frame.openings_settle (fun _ => true) context operand
  rcases Frame.settle_all_nil_or_group context operand with ⟨e, hall⟩ | ⟨position, outer, e, hall⟩
  · exact ⟨e, by simp only [finish, hall]⟩
  · rw [hall, h] at hopenings
    cases hopenings

theorem exists_close (h : Frame.openings context = position :: positions) (operand : Expr)
    (p : Nat) : ∃ outer group, continueOperand context operand ⟨.symbol .closing, p⟩ =
        .ok (.afterOperand outer group) ∧ Frame.openings outer = positions := by
  have hopenings := Frame.openings_settle (fun _ => true) context operand
  rcases Frame.settle_all_nil_or_group context operand with ⟨e, hall⟩ | ⟨q, outer, e, hall⟩
  · rw [hall, h] at hopenings
    cases hopenings
  · rw [hall, h] at hopenings
    exact ⟨outer, .group e, by simp only [continueOperand, hall], (List.cons.inj hopenings).2⟩

theorem afterOperand_completable (context : List Frame) (operand : Expr) :
    ∃ (more : List Located) (e : Expr), (more.foldlM step (afterOperand context operand) >>= finish) = .ok e := by
  -- By the open groups: each closing parenthesis is for one of them.
  induction hpositions : Frame.openings context generalizing context operand with
  | nil =>
      obtain ⟨e, he⟩ := exists_finish hpositions operand
      exact ⟨[], e, he⟩
  | cons position positions ih =>
      obtain ⟨outer, group, hclose, houter⟩ := exists_close hpositions operand 0
      obtain ⟨more, e, he⟩ := ih outer group houter
      refine ⟨⟨.symbol .closing, 0⟩ :: more, e, ?_⟩
      rw [List.foldlM_cons, step, hclose, ok_bind, he]

theorem completable (r : Reading) : ∃ (more : List Located) (e : Expr), (more.foldlM step r >>= finish) = .ok e := by
  cases r with
  | afterOperand context operand => exact afterOperand_completable context operand
  | beforeOperand context =>
      obtain ⟨more, e, he⟩ := afterOperand_completable context (.literal (.integer 0))
      exact ⟨⟨.literal (.integer 0), 0⟩ :: more, e, he⟩

/-! ## The open groups of a state -/

theorem startOperand_unclosed (hr : Token.Unclosed before (Frame.openings context))
    (h : startOperand context t = .ok r) : Token.Unclosed (before ++ [t]) r.openings := by
  obtain ⟨token, position⟩ := t
  simp only [startOperand] at h
  split at h
  · cases h
    exact hr.append_other rfl
  · cases h
    exact hr.append_other rfl
  · cases h
    exact hr.append_opening position
  · cases h
  · cases h
    exact hr.append_other rfl
  · cases h

theorem continueOperand_unclosed (hr : Token.Unclosed before (Frame.openings context))
    (h : continueOperand context operand t = .ok r) :
    Token.Unclosed (before ++ [t]) r.openings := by
  obtain ⟨token, position⟩ := t
  simp only [continueOperand] at h
  split at h
  · rename_i op
    cases h
    rw [openings, Frame.openings_left, Frame.openings_settle]
    exact hr.append_other rfl
  · split at h
    · rename_i opening outer inner hsettle
      cases h
      rw [← Frame.openings_settle (fun _ => true) context operand, hsettle] at hr
      exact hr.append_closing position
    · cases h
  · cases h

theorem step_unclosed (hr : Token.Unclosed before r.openings) (h : r.step t = .ok r') :
    Token.Unclosed (before ++ [t]) r'.openings := by
  cases r with
  | beforeOperand context => exact startOperand_unclosed hr h
  | afterOperand context operand => exact continueOperand_unclosed hr h

/-- A run keeps account of the parentheses without a partner. -/
theorem run_unclosed (hr : Token.Unclosed before r.openings) (h : ts.foldlM step r = .ok r') :
    Token.Unclosed (before ++ ts) r'.openings := by
  induction ts generalizing r before with
  | nil =>
      cases h
      rwa [List.append_nil]
  | cons t ts ih =>
      rw [List.foldlM_cons] at h
      obtain ⟨next, hstep, h⟩ := bind_eq_ok_iff.mp h
      rw [List.append_cons]
      exact ih (step_unclosed hr hstep) h

/-! ## What a state refuses -/

theorem refuse_eq (context : List Frame) (t : Located) :
    refuse context t = match Frame.openings context with
      | position :: _ => .expectedClosing position
      | [] => .trailingTokens t.token t.position := by
  rw [refuse, ← List.head?_filterMap]
  unfold Frame.openings
  cases context.filterMap Frame.position? <;> rfl

theorem startOperand_eq_error {error : ParseError} (h : startOperand context t = .error error) :
    error = .unexpectedToken t.token t.position := by
  obtain ⟨token, position⟩ := t
  simp only [startOperand] at h
  split at h <;> cases h <;> rfl

theorem continueOperand_eq_error {error : ParseError}
    (h : continueOperand context operand t = .error error) : error = refuse context t := by
  simp only [continueOperand] at h
  split at h
  · cases h
  · split at h <;> cases h
    rfl
  · cases h
    rfl

/-- A token is refused where an operand starts, or it comes after an expression that could end there,
or a group is open that it does not close. -/
theorem step_eq_error {error : ParseError} (h : r.step t = .error error) :
    error = .unexpectedToken t.token t.position ∨
    (error = .trailingTokens t.token t.position ∧ ∃ e, r.finish = .ok e) ∨
    ∃ position positions, error = .expectedClosing position ∧ r.openings = position :: positions := by
  cases r with
  | beforeOperand context => exact .inl (startOperand_eq_error h)
  | afterOperand context operand =>
      rw [continueOperand_eq_error h, refuse_eq]
      cases hopen : Frame.openings context with
      | nil => exact .inr (.inl ⟨rfl, exists_finish hopen operand⟩)
      | cons position positions => exact .inr (.inr ⟨position, positions, rfl, hopen⟩)

theorem finish_eq_error {error : ParseError} (h : r.finish = .error error) :
    error = .unexpectedEnd ∨
    ∃ position positions, error = .expectedClosing position ∧ r.openings = position :: positions := by
  cases r with
  | beforeOperand context =>
      cases h
      exact .inl rfl
  | afterOperand context operand =>
      simp only [finish] at h
      split at h
      · rename_i position outer whole hsettle
        cases h
        refine .inr ⟨position, Frame.openings outer, rfl, ?_⟩
        rw [openings, ← Frame.openings_settle (fun _ => true) context operand, hsettle]
        rfl
      · cases h

end Reading

end LineCalc.Expr
