import LineCalc.Proofs.Expr.Exactness
import LineCalc.Proofs.Expr.Occurrence
import Mathlib.Data.List.Basic
import Mathlib.Data.Nat.Find

/-!
# Failures from left to right

An expression ends as the first expression in it does, in the order of evaluation, that does not end with
a value. What is evaluated before a variable is all to the left of it. So an unbound variable is reported
if no other one is to the left of it and no arithmetic fails or traps there.
-/

namespace LineCalc

namespace Expr

variable {table : SymbolTable} {e : Expr} {n place : Nat} {name : String} {o : Occurrence}
  {r : Result EvalError Number}

/-- The error or the trap with which an expression ends. -/
def failure? (table : SymbolTable) (e : Expr) : Option (Result EvalError Number) :=
  match e.eval table with
  | .ok _ => none
  | .error err => some (.error err)
  | .trap => some .trap

/-- The arithmetic error or the trap with which an expression ends. -/
def arithmeticFailure? (table : SymbolTable) (e : Expr) : Option (Result EvalError Number) :=
  match e.eval table with
  | .error (.arithmetic err) => some (.error (.arithmetic err))
  | .trap => some .trap
  | _ => none

/-- The end of the first expression, in the order of evaluation, that fails in arithmetic or traps and is to
the left of the token at a place. -/
def arithmeticFailureBefore? (table : SymbolTable) (e : Expr) (place : Nat) :
    Option (Result EvalError Number) :=
  ((e.occurrences 0).filter (·.stop ≤ place)).findSome? (·.expr.arithmeticFailure? table)

/-- A variable without a number occurs at a place. -/
def UnboundAt (table : SymbolTable) (e : Expr) (place : Nat) (name : String) : Prop :=
  ⟨place, .var name⟩ ∈ e.occurrences 0 ∧ table.get? name = none

/-- A variable without a number occurs at a place, and none to the left of it. -/
def FirstUnbound (table : SymbolTable) (e : Expr) (place : Nat) (name : String) : Prop :=
  e.UnboundAt table place name ∧ ∀ p other, e.UnboundAt table p other → place ≤ p

/-! ## The first failure -/

theorem eval_of_failure?_eq_some (h : e.failure? table = some r) : e.eval table = r := by
  rw [failure?] at h
  cases he : e.eval table <;> simp_all

theorem eval_of_arithmeticFailure?_eq_some (h : e.arithmeticFailure? table = some r) :
    e.eval table = r := by
  rw [arithmeticFailure?] at h
  split at h <;> simp_all

theorem failure?_negate : e.negate.failure? table = (e.failure? table).or (e.negate.failure? table) := by
  simp only [failure?, eval]
  cases e.eval table <;> rfl

theorem failure?_group : e.group.failure? table = (e.failure? table).or (e.group.failure? table) :=
  Option.or_self.symm

theorem failure?_binary {op : Operator} {l r : Expr} :
    (binary op l r).failure? table =
      ((l.failure? table).or (r.failure? table)).or ((binary op l r).failure? table) := by
  simp only [failure?, eval]
  cases l.eval table with
  | ok a => cases r.eval table <;> rfl
  | _ => rfl

/-- An expression ends as the first failure of all that is evaluated. -/
theorem findSome?_subexpressions (table : SymbolTable) (e : Expr) :
    e.subexpressions.findSome? (failure? table) = e.failure? table := by
  induction e with
  | literal l => exact List.findSome?_singleton
  | var name => exact List.findSome?_singleton
  | negate e ih =>
      rw [subexpressions, List.findSome?_append, ih, List.findSome?_singleton, ← failure?_negate]
  | group e ih =>
      rw [subexpressions, List.findSome?_append, ih, List.findSome?_singleton, ← failure?_group]
  | binary op l r ihl ihr =>
      rw [subexpressions, List.findSome?_append, List.findSome?_append, ihl, ihr,
        List.findSome?_singleton, ← failure?_binary]

theorem findSome?_occurrences (table : SymbolTable) (e : Expr) (n : Nat) :
    (e.occurrences n).findSome? (·.expr.failure? table) = e.failure? table := by
  rw [← findSome?_subexpressions, ← occurrences_map_expr e n, List.findSome?_map]
  rfl

/-! ## Unbound variables -/

theorem mapError_arithmetic_ne_unbound {α : Type} {outcome : Result ArithmeticError α} :
    outcome.mapError EvalError.arithmetic ≠ .error (.unbound name) := by
  cases outcome <;> simp

theorem unbound_of_eval_eq_error (h : e.eval table = .error (.unbound name)) :
    name ∈ e.vars ∧ table.get? name = none := by
  induction e with
  | literal l => exact absurd h mapError_arithmetic_ne_unbound
  | var other =>
      simp only [eval] at h
      split at h
      · cases h
      · cases h
        exact ⟨List.mem_singleton_self _, ‹_›⟩
  | negate e ih =>
      rcases Result.bind_eq_error_iff.mp h with he | ⟨a, -, ha⟩
      · exact ih he
      · exact absurd ha mapError_arithmetic_ne_unbound
  | group e ih => exact ih h
  | binary op l r ihl ihr =>
      rcases Result.bind_eq_error_iff.mp h with hl | ⟨a, -, h⟩
      · exact (ihl hl).imp_left (List.mem_append_left _)
      rcases Result.bind_eq_error_iff.mp h with hr | ⟨b, -, hb⟩
      · exact (ihr hr).imp_left (List.mem_append_right _)
      · exact absurd hb mapError_arithmetic_ne_unbound

theorem exists_firstUnbound (h : name ∈ e.vars) (hname : table.get? name = none) :
    ∃ place first, e.FirstUnbound table place first := by
  classical
  have hex : ∃ place first, e.UnboundAt table place first :=
    (exists_place e 0 h).imp fun _ hp => ⟨name, hp, hname⟩
  obtain ⟨first, hfirst⟩ := Nat.find_spec hex
  exact ⟨Nat.find hex, first, hfirst, fun p other hp => Nat.find_min' hex ⟨other, hp⟩⟩

/-- Left of the first unbound variable, only arithmetic fails. -/
theorem FirstUnbound.failure?_eq (h : e.FirstUnbound table place name) (ho : o ∈ e.occurrences 0)
    (hstop : o.stop ≤ place) : o.expr.failure? table = o.expr.arithmeticFailure? table := by
  rw [failure?, arithmeticFailure?]
  cases hend : o.expr.eval table with
  | ok v => rfl
  | trap => rfl
  | error err =>
      cases err with
      | arithmetic err => rfl
      | unbound other =>
          obtain ⟨hvar, hother⟩ := unbound_of_eval_eq_error hend
          obtain ⟨p, hp⟩ := exists_place o.expr o.start hvar
          have hplace : place ≤ p := h.2 p other ⟨occurrences_trans ho hp, hother⟩
          have hle : p + 1 ≤ o.stop := stop_le hp
          omega

theorem FirstUnbound.failure?_eq_some (h : e.FirstUnbound table place name) :
    e.failure? table =
      some ((e.arithmeticFailureBefore? table place).getD (.error (.unbound name))) := by
  obtain ⟨before, after, hsplit, hbefore, hafter⟩ := occurrences_splitAt h.1.1
  have hself : (var name).failure? table = some (.error (.unbound name)) := by
    simp only [failure?, eval, h.1.2]
  have hleft : (e.occurrences 0).filter (·.stop ≤ place) = before := by
    have hrest : (⟨place, .var name⟩ :: after : List Occurrence).filter (·.stop ≤ place) = [] := by
      refine List.filter_eq_nil_iff.mpr fun o ho => ?_
      rcases List.mem_cons.mp ho with rfl | ho
      · simp [Occurrence.stop, tokens]
      · simpa using hafter o ho
    rw [hsplit, List.filter_append, hrest, List.append_nil]
    exact List.filter_eq_self.mpr fun o ho => by simpa using hbefore o ho
  have harithmetic : before.findSome? (·.expr.failure? table) =
      e.arithmeticFailureBefore? table place := by
    rw [arithmeticFailureBefore?, hleft, ← List.head?_filterMap, ← List.head?_filterMap]
    refine congrArg List.head? (List.filterMap_congr fun o ho => ?_)
    exact h.failure?_eq (hsplit ▸ List.mem_append_left _ ho) (hbefore o ho)
  rw [← findSome?_occurrences table e 0, hsplit, List.findSome?_append, harithmetic,
    List.findSome?_cons, hself]
  cases e.arithmeticFailureBefore? table place <;> rfl

/-- A trap on the left is that of an operator on the left. -/
theorem exists_trapsIn_before (ht : table.WellFormed) (he : e.LiteralsFit)
    (h : e.arithmeticFailureBefore? table place = some .trap) :
    ∃ o ∈ e.occurrences 0, o.stop ≤ place ∧ o.expr.TrapsIn table := by
  obtain ⟨o, ho, htrap⟩ := List.exists_of_findSome?_eq_some h
  obtain ⟨ho, hstop⟩ := List.mem_filter.mp ho
  obtain ⟨before, after, htokens, -⟩ := tokens_of_mem_occurrences ho
  have hfit : o.expr.LiteralsFit := fun l hl => he l (by simp [htokens, hl])
  exact ⟨o, ho, of_decide_eq_true hstop,
    trapsIn_of_eval_eq_trap ht hfit (eval_of_arithmeticFailure?_eq_some htrap)⟩

/-- Failures come up from left to right. Where all variables are bound, none is reported as unbound. Where
some are not, the expression fails: the first of them is reported, unless an expression that ends to the
left of it fails in arithmetic or traps, and then the whole ends as the first such expression. It traps
only at a quotient of zero by a fraction with the least word above. -/
theorem eval_error_left_to_right (table : SymbolTable) (e : Expr) :
    ((∀ name ∈ e.vars, ∃ v, table.get? name = some v) →
      ∀ name, e.eval table ≠ .error (.unbound name)) ∧
    ((∃ name ∈ e.vars, table.get? name = none) →
      ∃ place name, e.FirstUnbound table place name) ∧
    ∀ place name, e.FirstUnbound table place name →
      e.eval table = (e.arithmeticFailureBefore? table place).getD (.error (.unbound name)) ∧
      (table.WellFormed → e.LiteralsFit → e.arithmeticFailureBefore? table place = some .trap →
        ∃ o ∈ e.occurrences 0, o.stop ≤ place ∧ o.expr.TrapsIn table) := by
  refine ⟨fun hbound name h => ?_, fun h => ?_, fun place name h => ?_⟩
  · obtain ⟨hvar, hname⟩ := unbound_of_eval_eq_error h
    obtain ⟨v, hv⟩ := hbound name hvar
    cases hname.symm.trans hv
  · obtain ⟨name, hvar, hname⟩ := h
    exact exists_firstUnbound hvar hname
  · exact ⟨eval_of_failure?_eq_some h.failure?_eq_some, exists_trapsIn_before⟩

/-- Of a quotient by zero and an unbound variable, the one on the left decides, and of a quotient that traps
and an unbound variable too. -/
theorem eval_error_left_to_right_quotient :
    let table : SymbolTable := ⟨[("a", .integer 2), ("m", .rational ⟨Word.least, 3⟩)]⟩
    let quotient : Expr := .binary .div (.var "a") (.literal (.integer 0))
    let left : Expr := .binary .add (.binary .mul (.group quotient) (.var "y")) (.var "z")
    let right : Expr := .binary .add (.var "y") (.group quotient)
    let trapped : Expr := .binary .add (.binary .div (.literal (.integer 0)) (.var "m")) (.var "y")
    quotient.eval table ≠ .error (.unbound "a") ∧
      left.FirstUnbound table 6 "y" ∧ left.eval table = .error (.arithmetic .divisionByZero) ∧
      right.FirstUnbound table 0 "y" ∧ right.eval table = .error (.unbound "y") ∧
      (∃ place name, left.FirstUnbound table place name) ∧
      trapped.FirstUnbound table 4 "y" ∧ trapped.eval table = .trap ∧
      ∃ o ∈ trapped.occurrences 0, o.stop ≤ 4 ∧ o.expr.TrapsIn table := by
  intro table quotient left right trapped
  have hleft : left.FirstUnbound table 6 "y" := by
    refine ⟨⟨by simp [left, quotient, occurrences, tokens], by decide⟩, ?_⟩
    rintro p other ⟨hp, hother⟩
    have hplaces : p = 1 ∧ other = "a" ∨ p = 6 ∧ other = "y" ∨ p = 8 ∧ other = "z" := by
      simpa [left, quotient, occurrences, tokens] using hp
    rcases hplaces with ⟨-, rfl⟩ | ⟨rfl, -⟩ | ⟨rfl, -⟩
    · exact absurd hother (by decide)
    · omega
    · omega
  have hright : right.FirstUnbound table 0 "y" :=
    ⟨⟨by simp [right, quotient, occurrences], by decide⟩, fun p _ _ => Nat.zero_le p⟩
  have htrapped : trapped.FirstUnbound table 4 "y" := by
    refine ⟨⟨by simp [trapped, occurrences, tokens], by decide⟩, ?_⟩
    rintro p other ⟨hp, hother⟩
    have hplaces : p = 2 ∧ other = "m" ∨ p = 4 ∧ other = "y" := by
      simpa [trapped, occurrences, tokens] using hp
    rcases hplaces with ⟨-, rfl⟩ | ⟨rfl, -⟩
    · exact absurd hother (by decide)
    · omega
  have hbound : ∀ name ∈ quotient.vars, ∃ v, table.get? name = some v := fun name hname => by
    cases List.mem_singleton.mp hname
    exact ⟨_, rfl⟩
  have ht : table.WellFormed := by decide
  have hfit : trapped.LiteralsFit := by
    intro l hl
    have hzero : l = .integer 0 := by simpa [trapped, tokens] using hl
    subst hzero
    exact (by decide : Word.Fits 0)
  obtain ⟨hnever, -, -⟩ := eval_error_left_to_right table quotient
  obtain ⟨-, hexists, hend⟩ := eval_error_left_to_right table left
  obtain ⟨-, -, hend'⟩ := eval_error_left_to_right table right
  obtain ⟨-, -, hend''⟩ := eval_error_left_to_right table trapped
  have hquotient : left.arithmeticFailureBefore? table 6 =
      some (.error (.arithmetic .divisionByZero)) := by decide
  have hnothing : right.arithmeticFailureBefore? table 0 = none := by decide
  have htrap : trapped.arithmeticFailureBefore? table 4 = some .trap := by decide
  refine ⟨hnever hbound "a", hleft, ?_, hright, ?_,
    hexists ⟨"z", by simp [left, vars], by decide⟩, htrapped, ?_,
    (hend'' 4 "y" htrapped).2 ht hfit htrap⟩
  · rw [(hend 6 "y" hleft).1, hquotient]
    rfl
  · rw [(hend' 0 "y" hright).1, hnothing]
    rfl
  · rw [(hend'' 4 "y" htrapped).1, htrap]
    rfl

/-- A quotient that traps is no arithmetic error, and yet the unbound variable behind it is not reported. -/
theorem eval_traps_before_unbound :
    let table : SymbolTable := ⟨[("m", .rational ⟨Word.least, 3⟩)]⟩
    let e : Expr := .binary .add (.binary .div (.literal (.integer 0)) (.var "m")) (.var "y")
    (⟨4, .var "y"⟩ ∈ e.occurrences 0 ∧ table.get? "y" = none) ∧
      (∃ v, table.get? "m" = some v) ∧
      (∀ o ∈ e.occurrences 0, o.stop ≤ 4 → ∀ err, o.expr.eval table ≠ .error (.arithmetic err)) ∧
      e.eval table = .trap ∧ e.eval table ≠ .error (.unbound "y") := by
  intro table e
  have htrap : e.eval table = .trap := by decide
  refine ⟨⟨by simp [e, occurrences, tokens], by decide⟩, ⟨_, rfl⟩, ?_, htrap, by simp [htrap]⟩
  intro o ho hstop err
  have hall : ∀ o ∈ e.occurrences 0, o.stop ≤ 4 →
      o.expr.eval table ≠ .error (.arithmetic .divisionByZero) ∧
        o.expr.eval table ≠ .error (.arithmetic .overflow) := by decide
  cases err with
  | divisionByZero => exact (hall o ho hstop).1
  | overflow => exact (hall o ho hstop).2

end Expr

end LineCalc
