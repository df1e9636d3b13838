import LineCalc.Proofs.Expr.Completion
import LineCalc.Proofs.Statement
import LineCalc.Statement

/-!
# The reader does not look at positions

When tokens are moved, every state of the reader is the same but for the positions of its open groups,
and an error is the same but for its position. So which tokens are which statement does not depend on
where they are.
-/

namespace LineCalc

variable (f : Nat → Nat)

/-- An outcome whose positions are moved, those of the error too. -/
def relocated {α β : Type} (move : α → β) (outcome : Except ParseError α) : Except ParseError β :=
  match outcome with
  | .ok a => .ok (move a)
  | .error e => .error (e.moved f)

namespace Expr

namespace Frame

def moved : Frame → Frame
  | .group position => .group (f position)
  | frame => frame

theorem settle_map_moved (ready : Operator → Bool) (context : List Frame) (e : Expr) :
    settle ready (context.map (moved f)) e =
      ((settle ready context e).1.map (moved f), (settle ready context e).2) := by
  fun_induction settle ready context e with
  | case1 context e ih => exact ih
  | case2 l op context e hready ih =>
      rw [List.map_cons, moved, settle, if_pos hready, ih]
      intro position h
      cases h
  | case3 l op context e hready =>
      rw [List.map_cons, moved, settle, if_neg hready]
      intro position h
      cases h
  | case4 context e hnegation hleft =>
      cases context with
      | nil => rfl
      | cons frame context =>
          cases frame with
          | negation => exact absurd rfl (hnegation context)
          | left l op => exact absurd rfl (hleft l op context)
          | group position => rfl

theorem findSome?_map_moved (context : List Frame) :
    (context.map (moved f)).findSome? position? = (context.findSome? position?).map f := by
  induction context with
  | nil => rfl
  | cons frame context ih =>
      cases frame with
      | group position => rfl
      | negation => exact ih
      | left l op => exact ih

end Frame

namespace Reading

def moved : Reading → Reading
  | .beforeOperand context => .beforeOperand (context.map (Frame.moved f))
  | .afterOperand context operand => .afterOperand (context.map (Frame.moved f)) operand

theorem refuse_moved (context : List Frame) (t : Located) :
    refuse (context.map (Frame.moved f)) (t.moved f) = (refuse context t).moved f := by
  unfold refuse
  rw [Frame.findSome?_map_moved]
  cases context.findSome? Frame.position? <;> rfl

theorem startOperand_moved (context : List Frame) (t : Located) :
    startOperand (context.map (Frame.moved f)) (t.moved f) =
      relocated f (moved f) (startOperand context t) := by
  obtain ⟨token, position⟩ := t
  cases token with
  | literal l => rfl
  | name n => rfl
  | symbol s =>
      cases s with
      | operator op =>
          cases op with
          -- A second minus sign is told from a first one by the frame of that one.
          | sub =>
              cases context with
              | nil => rfl
              | cons frame context => cases frame <;> rfl
          | _ => rfl
      | _ => rfl

theorem continueOperand_moved (context : List Frame) (operand : Expr) (t : Located) :
    continueOperand (context.map (Frame.moved f)) operand (t.moved f) =
      relocated f (moved f) (continueOperand context operand t) := by
  have hrefuse : relocated f (moved f) (.error (refuse context t)) =
      .error (refuse (context.map (Frame.moved f)) (t.moved f)) := by
    rw [refuse_moved]
    rfl
  obtain ⟨token, position⟩ := t
  cases token with
  | literal l => exact hrefuse.symm
  | name n => exact hrefuse.symm
  | symbol s =>
      cases s with
      | operator op =>
          simp only [continueOperand, Located.moved, Frame.settle_map_moved]
          rfl
      | closing =>
          simp only [continueOperand, Located.moved, Frame.settle_map_moved]
          rcases Frame.settle_all_nil_or_group context operand with
            ⟨e, hall⟩ | ⟨p, outer, inner, hall⟩
          · rw [hall]
            exact hrefuse.symm
          · rw [hall]
            rfl
      | opening => exact hrefuse.symm
      | equals => exact hrefuse.symm

theorem step_moved (r : Reading) (t : Located) :
    (r.moved f).step (t.moved f) = relocated f (moved f) (r.step t) := by
  cases r with
  | beforeOperand context => exact startOperand_moved f context t
  | afterOperand context operand => exact continueOperand_moved f context operand t

theorem run_moved (r : Reading) (ts : List Located) :
    (ts.map (Located.moved f)).foldlM step (r.moved f) =
      relocated f (moved f) (ts.foldlM step r) := by
  induction ts generalizing r with
  | nil => rfl
  | cons t ts ih =>
      rw [List.map_cons, List.foldlM_cons, List.foldlM_cons, step_moved]
      cases r.step t with
      | error e => rfl
      | ok next => exact ih next

theorem finish_moved (r : Reading) : (r.moved f).finish = relocated f id r.finish := by
  cases r with
  | beforeOperand context => rfl
  | afterOperand context operand =>
      simp only [moved, finish, Frame.settle_map_moved]
      rcases Frame.settle_all_nil_or_group context operand with
        ⟨e, hall⟩ | ⟨position, outer, inner, hall⟩
      · rw [hall]
        rfl
      · rw [hall]
        rfl

end Reading

theorem ofTokens_map_moved (ts : List Located) :
    ofTokens (ts.map (Located.moved f)) = relocated f id (ofTokens ts) := by
  have hrun := Reading.run_moved f (.beforeOperand []) ts
  have hstart : (Reading.beforeOperand []).moved f = .beforeOperand [] := rfl
  rw [hstart] at hrun
  rw [ofTokens, ofTokens, hrun]
  cases ts.foldlM Reading.step (.beforeOperand []) with
  | error e => rfl
  | ok r => exact Reading.finish_moved f r

end Expr

namespace Statement

theorem startsAssignment_map_moved_iff (ts : List Located) :
    StartsAssignment (ts.map (Located.moved f)) ↔ StartsAssignment ts := by
  constructor
  · rintro ⟨name, p, q, rest, h⟩
    obtain ⟨⟨first, p'⟩, more, rfl, hfirst, hmore⟩ := List.map_eq_cons_iff.mp h
    obtain ⟨⟨second, q'⟩, tail, rfl, hsecond, -⟩ := List.map_eq_cons_iff.mp hmore
    cases hfirst
    cases hsecond
    exact ⟨name, p', q', tail, rfl⟩
  · rintro ⟨name, p, q, rest, rfl⟩
    exact ⟨name, f p, f q, rest.map (Located.moved f), rfl⟩

theorem ofTokens_map_moved (ts : List Located) :
    ofTokens (ts.map (Located.moved f)) = relocated f id (ofTokens ts) := by
  by_cases h : StartsAssignment ts
  · obtain ⟨name, p, q, rest, rfl⟩ := h
    change (Expr.ofTokens (rest.map (Located.moved f))).map _ =
      relocated f id ((Expr.ofTokens rest).map _)
    rw [Expr.ofTokens_map_moved]
    cases Expr.ofTokens rest <;> rfl
  · rw [ofTokens_of_not_startsAssignment h,
      ofTokens_of_not_startsAssignment (mt (startsAssignment_map_moved_iff f ts).mp h),
      Expr.ofTokens_map_moved]
    cases Expr.ofTokens ts <;> rfl

end Statement

end LineCalc
