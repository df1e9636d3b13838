/-!
# Results

A computation ends with a value or with an error that it reports, or it traps. A trap is reported by
nobody and ends the program; what comes after an error or a trap is not computed.
-/

namespace LineCalc

/-- How a computation ends. -/
inductive Result (ε α : Type) where
  | ok (a : α)
  | error (e : ε)
  | trap
deriving DecidableEq

namespace Result

variable {ε ε' α β : Type}

protected def bind : Result ε α → (α → Result ε β) → Result ε β
  | .ok a, f => f a
  | .error e, _ => .error e
  | .trap, _ => .trap

instance : Monad (Result ε) where
  pure := .ok
  bind := Result.bind

/-- The value is changed, and an error or a trap stays what it is. -/
def map (f : α → β) : Result ε α → Result ε β
  | .ok a => .ok (f a)
  | .error e => .error e
  | .trap => .trap

/-- The error is changed, and a value or a trap stays what it is. -/
def mapError (f : ε → ε') : Result ε α → Result ε' α
  | .ok a => .ok a
  | .error e => .error (f e)
  | .trap => .trap

/-- The end of a computation that cannot trap. -/
def ofExcept : Except ε α → Result ε α
  | .ok a => .ok a
  | .error e => .error e

/-! ## Chains of computations -/

@[simp] theorem pure_eq (a : α) : (pure a : Result ε α) = .ok a := rfl

@[simp] theorem ok_bind (a : α) (f : α → Result ε β) : (ok a >>= f) = f a := rfl

@[simp] theorem error_bind (e : ε) (f : α → Result ε β) : (error e >>= f) = .error e := rfl

@[simp] theorem trap_bind (f : α → Result ε β) : ((trap : Result ε α) >>= f) = .trap := rfl

theorem bind_eq_ok_iff {x : Result ε α} {f : α → Result ε β} {b : β} :
    (x >>= f) = .ok b ↔ ∃ a, x = .ok a ∧ f a = .ok b := by
  cases x <;> simp

theorem bind_eq_error_iff {x : Result ε α} {f : α → Result ε β} {e : ε} :
    (x >>= f) = .error e ↔ x = .error e ∨ ∃ a, x = .ok a ∧ f a = .error e := by
  cases x <;> simp

theorem bind_eq_trap_iff {x : Result ε α} {f : α → Result ε β} :
    (x >>= f) = .trap ↔ x = .trap ∨ ∃ a, x = .ok a ∧ f a = .trap := by
  cases x <;> simp

@[simp] theorem map_ok (f : α → β) (a : α) : (ok a : Result ε α).map f = .ok (f a) := rfl

@[simp] theorem map_error (f : α → β) (e : ε) : (error e).map f = .error e := rfl

@[simp] theorem map_trap (f : α → β) : (trap : Result ε α).map f = .trap := rfl

theorem map_eq_ok_iff {x : Result ε α} {f : α → β} {b : β} :
    x.map f = .ok b ↔ ∃ a, x = .ok a ∧ f a = b := by
  cases x <;> simp

theorem exists_map_eq_ok_iff {x : Result ε α} {f : α → β} :
    (∃ b, x.map f = .ok b) ↔ ∃ a, x = .ok a := by
  cases x <;> simp

theorem map_eq_error_iff {x : Result ε α} {f : α → β} {e : ε} :
    x.map f = .error e ↔ x = .error e := by
  cases x <;> simp

theorem map_eq_trap_iff {x : Result ε α} {f : α → β} : x.map f = .trap ↔ x = .trap := by
  cases x <;> simp

@[simp] theorem mapError_ok (f : ε → ε') (a : α) : (ok a).mapError f = .ok a := rfl

@[simp] theorem mapError_error (f : ε → ε') (e : ε) :
    (error e : Result ε α).mapError f = .error (f e) := rfl

@[simp] theorem mapError_trap (f : ε → ε') : (trap : Result ε α).mapError f = .trap := rfl

theorem mapError_eq_ok_iff {x : Result ε α} {f : ε → ε'} {a : α} :
    x.mapError f = .ok a ↔ x = .ok a := by
  cases x <;> simp

theorem mapError_eq_error_iff {x : Result ε α} {f : ε → ε'} {e : ε'} :
    x.mapError f = .error e ↔ ∃ e', x = .error e' ∧ f e' = e := by
  cases x <;> simp

theorem mapError_eq_trap_iff {x : Result ε α} {f : ε → ε'} : x.mapError f = .trap ↔ x = .trap := by
  cases x <;> simp

@[simp] theorem ofExcept_ok (a : α) : ofExcept (.ok a : Except ε α) = .ok a := rfl

@[simp] theorem ofExcept_error (e : ε) : ofExcept (.error e : Except ε α) = .error e := rfl

theorem ofExcept_eq_ok_iff {x : Except ε α} {a : α} : ofExcept x = .ok a ↔ x = .ok a := by
  cases x <;> simp

end Result

end LineCalc
