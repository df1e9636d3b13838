import LineCalc.Expr.Parser
import LineCalc.Proofs.Expr.Levels
import LineCalc.Proofs.Outcome

/-!
# What is read is derived

The frames of a context fit together when the context outside each of them takes what the frame
makes. Every token keeps this and adds itself to the tokens read so far, so an expression that is
read is derived by the grammar and written with exactly the tokens given.
-/

namespace LineCalc.Expr

/-- The loosest operand that a context takes as it is. -/
def levelAt : List Frame → Level
  | .negation :: _ => .atom
  | .left _ op :: _ => op.rightLevel
  | _ => .sum

/-- The frames of a context fit together. -/
def Fitting : List Frame → Prop
  | [] => True
  | .negation :: context => .operand ≤ levelAt context ∧ Fitting context
  | .left l op :: context => Shaped op.leftLevel l ∧ op.level ≤ levelAt context ∧ Fitting context
  | .group _ :: context => Fitting context

/-- The tokens of a frame. -/
def Frame.tokens : Frame → List Token
  | .negation => [.symbol (.operator .sub)]
  | .left l op => l.tokens ++ [.symbol (.operator op)]
  | .group _ => [.symbol .opening]

/-- The tokens of a context, whose innermost frame was read last. -/
def contextTokens : List Frame → List Token
  | [] => []
  | frame :: context => contextTokens context ++ frame.tokens

/-! ## What a context takes -/

section Context

variable {context : List Frame}

theorem levelAt_eq_sum (hnegation : ∀ rest, context ≠ .negation :: rest)
    (hleft : ∀ l op rest, context ≠ .left l op :: rest) : levelAt context = .sum := by
  unfold levelAt
  split
  · exact absurd rfl (hnegation _)
  · exact absurd rfl (hleft _ _ _)
  · rfl

theorem operand_le_levelAt (h : ∀ rest, context ≠ .negation :: rest) :
    .operand ≤ levelAt context := by
  unfold levelAt
  split
  · exact absurd rfl (h _)
  · exact Operator.operand_le_rightLevel _
  · exact Level.le_sum _

theorem eq_nil_or_group (h : .sum ≤ levelAt context) :
    context = [] ∨ ∃ position rest, context = .group position :: rest := by
  cases context with
  | nil => exact .inl rfl
  | cons frame rest =>
      cases frame with
      | negation => exact absurd (show Level.sum ≤ Level.atom from h) (by decide)
      | left l op => exact absurd h op.not_sum_le_rightLevel
      | group position => exact .inr ⟨position, rest, rfl⟩

end Context

namespace Frame

/-! ## Settling an operand -/

theorem settle_tokens (ready : Operator → Bool) (context : List Frame) (e : Expr) :
    contextTokens (settle ready context e).1 ++ (settle ready context e).2.tokens =
      contextTokens context ++ e.tokens := by
  fun_induction settle ready context e with
  | case1 context e ih => rw [ih]; simp [contextTokens, Frame.tokens, Expr.tokens]
  | case2 l op context e hready ih => rw [ih]; simp [contextTokens, Frame.tokens, Expr.tokens]
  | case3 => rfl
  | case4 => rfl

/-- After settling, the operand is as loose as the operators that were ready make it, and the
context takes what the operators that were not ready take on their right. -/
theorem settle_fitting (ready : Operator → Bool) {loosest : Level}
    (hready : ∀ op, ready op = true → op.level ≤ loosest) (hoperand : .operand ≤ loosest)
    {context : List Frame} {e : Expr} {level : Level} (hcontext : Fitting context)
    (he : Shaped level e) (hfits : level ≤ levelAt context) (hlevel : level ≤ loosest) :
    Fitting (settle ready context e).1 ∧ Shaped loosest (settle ready context e).2 ∧
      ∀ bound, (∀ op, ready op = false → bound ≤ op.rightLevel) →
        bound ≤ levelAt (settle ready context e).1 := by
  -- A frame that is settled makes a looser tree, and that is what the context outside it takes.
  fun_induction settle ready context e generalizing level with
  | case1 context e ih => exact ih hcontext.2 (.negate (he.mono hfits)) hcontext.1 hoperand
  | case2 l op context e hop ih =>
      exact ih hcontext.2.2 (.binary hcontext.1 (he.mono hfits)) hcontext.2.1 (hready op hop)
  | case3 l op context e hop =>
      exact ⟨hcontext, he.mono hlevel, fun bound hbound => hbound op (by simpa using hop)⟩
  | case4 context e hnegation hleft =>
      refine ⟨hcontext, he.mono hlevel, fun bound _ => ?_⟩
      rw [levelAt_eq_sum hnegation hleft]
      exact Level.le_sum bound

theorem settle_before (next : Operator) {context : List Frame} {e : Expr}
    (hcontext : Fitting context) (he : Shaped .atom e) :
    Fitting (settle (·.groupsBefore next) context e).1 ∧
      Shaped next.leftLevel (settle (·.groupsBefore next) context e).2 ∧
      next.level ≤ levelAt (settle (·.groupsBefore next) context e).1 := by
  obtain ⟨hfit, hshape, hbound⟩ := settle_fitting (·.groupsBefore next)
    (fun op hop => (op.groupsBefore_iff next).mp hop) next.operand_le_leftLevel hcontext he
    (Level.atom_le _) (Level.atom_le _)
  exact ⟨hfit, hshape, hbound _ fun op hop => (op.not_groupsBefore_iff next).mp hop⟩

theorem settle_all {context : List Frame} {e : Expr} (hcontext : Fitting context)
    (he : Shaped .atom e) :
    Fitting (settle (fun _ => true) context e).1 ∧
      Shaped .sum (settle (fun _ => true) context e).2 ∧
      .sum ≤ levelAt (settle (fun _ => true) context e).1 := by
  obtain ⟨hfit, hshape, hbound⟩ := settle_fitting (fun _ => true)
    (fun op _ => Level.le_sum _) (Level.le_sum _) hcontext he (Level.atom_le _) (Level.atom_le _)
  exact ⟨hfit, hshape, hbound _ fun op hop => absurd hop (by decide)⟩

end Frame

/-! ## States of the reader -/

namespace Reading

/-- The frames fit together, and a complete operand is an atom. -/
def Fitting : Reading → Prop
  | .beforeOperand context => Expr.Fitting context
  | .afterOperand context e => Expr.Fitting context ∧ Shaped .atom e

/-- The tokens that have been read. -/
def tokens : Reading → List Token
  | .beforeOperand context => contextTokens context
  | .afterOperand context e => contextTokens context ++ e.tokens

theorem startOperand_fitting {context : List Frame} {t : Located} {r : Reading}
    (hcontext : Expr.Fitting context) (h : startOperand context t = .ok r) :
    r.Fitting ∧ r.tokens = contextTokens context ++ [t.token] := by
  obtain ⟨token, position⟩ := t
  simp only [startOperand] at h
  split at h
  · cases h
    exact ⟨⟨hcontext, .literal _⟩, rfl⟩
  · cases h
    exact ⟨⟨hcontext, .var _⟩, rfl⟩
  · cases h
    exact ⟨hcontext, rfl⟩
  · cases h
  · rename_i hnegation
    cases h
    exact ⟨⟨operand_le_levelAt fun rest hrest => hnegation rest hrest, hcontext⟩, rfl⟩
  · cases h

theorem continueOperand_fitting {context : List Frame} {e : Expr} {t : Located} {r : Reading}
    (hcontext : Expr.Fitting context) (he : Shaped .atom e)
    (h : continueOperand context e t = .ok r) :
    r.Fitting ∧ r.tokens = contextTokens context ++ e.tokens ++ [t.token] := by
  obtain ⟨token, position⟩ := t
  simp only [continueOperand] at h
  split at h
  · rename_i op
    cases h
    obtain ⟨hfit, hshape, hlevel⟩ := Frame.settle_before op hcontext he
    refine ⟨⟨hshape, hlevel, hfit⟩, ?_⟩
    rw [← Frame.settle_tokens (·.groupsBefore op)]
    simp [tokens, contextTokens, Frame.tokens]
  · split at h
    · rename_i opening rest inner hsettle
      cases h
      obtain ⟨hfit, hshape, -⟩ := Frame.settle_all hcontext he
      have htokens := Frame.settle_tokens (fun _ => true) context e
      rw [hsettle] at hfit hshape htokens
      refine ⟨⟨hfit, .group hshape⟩, ?_⟩
      rw [← htokens]
      simp [tokens, contextTokens, Frame.tokens, Expr.tokens]
    · cases h
  · cases h

theorem step_fitting {r r' : Reading} {t : Located} (hr : r.Fitting) (h : r.step t = .ok r') :
    r'.Fitting ∧ r'.tokens = r.tokens ++ [t.token] := by
  cases r with
  | beforeOperand context => exact startOperand_fitting hr h
  | afterOperand context e => exact continueOperand_fitting hr.1 hr.2 h

/-- A run keeps what has been read, and the frames fit together at its end. -/
theorem run_fitting {r r' : Reading} {ts : List Located} (hr : r.Fitting)
    (h : ts.foldlM step r = .ok r') :
    r'.Fitting ∧ r'.tokens = r.tokens ++ ts.map Located.token := by
  induction ts generalizing r with
  | nil =>
      cases h
      exact ⟨hr, by simp⟩
  | cons t ts ih =>
      rw [List.foldlM_cons] at h
      obtain ⟨next, hstep, h⟩ := bind_eq_ok_iff.mp h
      obtain ⟨hnext, htokens⟩ := step_fitting hr hstep
      obtain ⟨hr', htokens'⟩ := ih hnext h
      exact ⟨hr', by rw [htokens', htokens]; simp⟩

theorem finish_shaped {r : Reading} {e : Expr} (hr : r.Fitting) (h : r.finish = .ok e) :
    Shaped .sum e ∧ e.tokens = r.tokens := by
  cases r with
  | beforeOperand context => cases h
  | afterOperand context operand =>
      obtain ⟨-, hshape, hlevel⟩ := Frame.settle_all hr.1 hr.2
      have htokens := Frame.settle_tokens (fun _ => true) context operand
      simp only [finish] at h
      rcases hsettle : Frame.settle (fun _ => true) context operand with ⟨rest, whole⟩
      rw [hsettle] at h hshape hlevel htokens
      rcases eq_nil_or_group hlevel with rfl | ⟨position, rest, rfl⟩
      · cases h
        exact ⟨hshape, by simpa [contextTokens, tokens] using htokens⟩
      · cases h

end Reading

/-- Every expression that is read is one that the grammar derives, written with these tokens. -/
theorem ofTokens_sound {ts : List Located} {e : Expr} (h : ofTokens ts = .ok e) :
    Shaped .sum e ∧ e.tokens = ts.map Located.token := by
  obtain ⟨r, hrun, h⟩ := bind_eq_ok_iff.mp h
  obtain ⟨hr, htokens⟩ := Reading.run_fitting (by trivial) hrun
  obtain ⟨hshape, he⟩ := Reading.finish_shaped hr h
  exact ⟨hshape, by rw [he, htokens]; rfl⟩

end LineCalc.Expr
