/-!
# Outcomes of steps

How a chain of steps that may fail comes to succeed: each step does.
-/

namespace LineCalc

variable {ε ε' α β : Type}

@[simp] theorem ok_bind (a : α) (f : α → Except ε β) : (Except.ok a >>= f) = f a := rfl

@[simp] theorem error_bind (e : ε) (f : α → Except ε β) : (Except.error e >>= f) = .error e := rfl

theorem bind_eq_ok_iff {x : Except ε α} {f : α → Except ε β} {b : β} :
    (x >>= f) = .ok b ↔ ∃ a, x = .ok a ∧ f a = .ok b := by
  cases x <;> simp

theorem map_eq_ok_iff {x : Except ε α} {f : α → β} {b : β} :
    x.map f = .ok b ↔ ∃ a, x = .ok a ∧ f a = b := by
  cases x <;> simp [Except.map]

theorem exists_map_eq_ok_iff {x : Except ε α} {f : α → β} :
    (∃ b, x.map f = .ok b) ↔ ∃ a, x = .ok a := by
  cases x <;> simp [Except.map]

theorem map_eq_error_iff {x : Except ε α} {f : α → β} {e : ε} :
    x.map f = .error e ↔ x = .error e := by
  cases x <;> simp [Except.map]

theorem mapError_eq_ok_iff {x : Except ε α} {f : ε → ε'} {a : α} :
    x.mapError f = .ok a ↔ x = .ok a := by
  cases x with
  | error e => exact ⟨nofun, nofun⟩
  | ok b =>
      constructor
      · intro h
        cases h
        rfl
      · intro h
        cases h
        rfl

/-- A chain of steps fails at one of them, to which the steps before it lead. -/
theorem exists_of_foldlM_eq_error {f : β → α → Except ε β} {as : List α} {b : β} {e : ε}
    (h : as.foldlM f b = .error e) :
    ∃ before a after c, as = before ++ a :: after ∧ before.foldlM f b = .ok c ∧
      f c a = .error e := by
  induction as generalizing b with
  | nil => cases h
  | cons a as ih =>
      rw [List.foldlM_cons] at h
      cases hstep : f b a with
      | error e' =>
          rw [hstep] at h
          cases h
          exact ⟨[], a, as, b, rfl, rfl, hstep⟩
      | ok next =>
          rw [hstep] at h
          obtain ⟨before, a', after, c, rfl, hbefore, hc⟩ := ih h
          refine ⟨a :: before, a', after, c, rfl, ?_, hc⟩
          rw [List.foldlM_cons, hstep]
          exact hbefore

theorem toOption_eq_some_iff {x : Except ε α} {a : α} : x.toOption = some a ↔ x = .ok a := by
  cases x <;> simp [Except.toOption]

end LineCalc
