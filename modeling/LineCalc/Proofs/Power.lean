import LineCalc.Number.Arithmetic
import Mathlib.Algebra.Group.Basic
import Mathlib.Tactic.Ring

/-!
# Powers by squaring are powers

If a multiplication that yields something keeps a property and is the multiplication of a monoid
seen through `val`, then a power that is yielded has the property too, and is the power of the monoid.

And a power is yielded whenever there is one, if two powers are multiplied just when the product is
within bounds. For no product on the way has a greater exponent than the result.
-/

namespace LineCalc.Power

variable {ε α M : Type} [Monoid M] {mul : α → α → Result ε α} (P : α → Prop) (val : α → M)

theorem accumulate_spec
    (hmul : ∀ a b c, P a → P b → mul a b = .ok c → P c ∧ val c = val a * val b)
    {acc base c : α} {n : Nat} (hacc : P acc) (hbase : P base)
    (h : accumulate mul acc base n = .ok c) :
    P c ∧ val c = val acc * val base ^ (2 * (n / 2)) := by
  -- The lowest bit of the exponent is in `acc` already; what is left to multiply is the rest.
  fun_induction accumulate mul acc base n with
  | case1 acc base n hn =>
      cases h
      have hzero : n / 2 = 0 := by omega
      simpa [hzero] using hacc
  | case2 acc base n hn ih =>
      obtain ⟨square, hs, h⟩ := Result.bind_eq_ok_iff.mp h
      obtain ⟨hsquare, hvs⟩ := hmul _ _ _ hbase hbase hs
      split at h
      · rename_i hodd
        obtain ⟨next, hnext, h⟩ := Result.bind_eq_ok_iff.mp h
        obtain ⟨hP, hvn⟩ := hmul _ _ _ hacc hsquare hnext
        obtain ⟨hc, hv⟩ := ih square next hP hsquare h
        have hexp : n / 2 = 2 * (n / 2 / 2) + 1 := by omega
        refine ⟨hc, ?_⟩
        calc val c = val acc * (val square * val square ^ (2 * (n / 2 / 2))) := by
              rw [hv, hvn, mul_assoc]
          _ = val acc * val square ^ (n / 2) := by rw [← pow_succ', ← hexp]
          _ = val acc * val base ^ (2 * (n / 2)) := by rw [hvs, ← pow_two, ← pow_mul]
      · obtain ⟨hc, hv⟩ := ih square acc hacc hsquare h
        have hexp : 2 * (n / 2 / 2) = n / 2 := by omega
        refine ⟨hc, ?_⟩
        rw [hv, hexp, hvs, ← pow_two, ← pow_mul]

theorem raise_spec
    (hmul : ∀ a b c, P a → P b → mul a b = .ok c → P c ∧ val c = val a * val b)
    {one base c : α} {n : Nat} (hone : P one ∧ val one = 1) (hbase : P base)
    (h : raise mul one base n = .ok c) : P c ∧ val c = val base ^ n := by
  fun_induction raise mul one base n with
  | case1 base =>
      cases h
      simpa using hone
  | case2 base n hn heven ih =>
      obtain ⟨square, hs, h⟩ := Result.bind_eq_ok_iff.mp h
      obtain ⟨hsquare, hvs⟩ := hmul _ _ _ hbase hbase hs
      obtain ⟨hc, hv⟩ := ih square hsquare h
      have hexp : 2 * (n / 2) = n := by omega
      refine ⟨hc, ?_⟩
      rw [hv, hvs, ← pow_two, ← pow_mul, hexp]
  | case3 base n hn hodd =>
      obtain ⟨hc, hv⟩ := accumulate_spec P val hmul hbase hbase h
      have hexp : n = 2 * (n / 2) + 1 := by omega
      refine ⟨hc, ?_⟩
      rw [hv, ← pow_succ', ← hexp]

/-! ## No power fails before its time -/

/-- `pow` lists the powers of something. Two of them that are within bounds are multiplied if the product is
too, and are refused with the error if it is not. The powers before one that is within bounds are so as well. -/
structure Bounded (mul : α → α → Result ε α) (pow : Nat → α) (Within : Nat → Prop)
    [DecidablePred Within] (error : ε) : Prop where
  mul_eq {i j : Nat} : Within i → Within j →
    mul (pow i) (pow j) = if Within (i + j) then .ok (pow (i + j)) else .error error
  of_le {i j : Nat} : Within j → i ≤ j → Within i

namespace Bounded

variable {pow : Nat → α} {Within : Nat → Prop} [DecidablePred Within] {error : ε}

theorem mul_of_within (h : Bounded mul pow Within error) {i j : Nat} (hin : Within (i + j)) :
    mul (pow i) (pow j) = .ok (pow (i + j)) := by
  rw [h.mul_eq (h.of_le hin (Nat.le_add_right i j)) (h.of_le hin (Nat.le_add_left j i)), if_pos hin]

theorem mul_of_not_within (h : Bounded mul pow Within error) {i j : Nat} (hi : Within i)
    (hj : Within j) (hin : ¬ Within (i + j)) : mul (pow i) (pow j) = .error error := by
  rw [h.mul_eq hi hj, if_neg hin]

theorem accumulate_eq (h : Bounded mul pow Within error) {a k : Nat} (ha : Within a) (hk : Within k)
    (n : Nat) :
    accumulate mul (pow a) (pow k) n =
      if Within (a + 2 * k * (n / 2)) then .ok (pow (a + 2 * k * (n / 2))) else .error error := by
  induction n using Nat.strong_induction_on generalizing a k with
  | _ n ih =>
    unfold accumulate
    by_cases hn : n ≤ 1
    · have hhalf : n / 2 = 0 := by omega
      rw [if_pos hn, hhalf, Nat.mul_zero, Nat.add_zero, if_pos ha]
    have hless : n / 2 < n := by omega
    have hrest : a + (k + k) ≤ a + 2 * k * (n / 2) := by
      rw [← Nat.two_mul]
      exact Nat.add_le_add_left (Nat.le_mul_of_pos_right _ (by omega)) a
    rw [if_neg hn]
    by_cases hsquare : Within (k + k)
    · rw [h.mul_of_within hsquare, Result.ok_bind]
      by_cases hbit : n / 2 % 2 = 1
      · rw [if_pos hbit]
        by_cases hnext : Within (a + (k + k))
        · have hexp : a + 2 * k * (n / 2) = a + (k + k) + 2 * (k + k) * (n / 2 / 2) := by
            have hhalf : n / 2 = 2 * (n / 2 / 2) + 1 := by omega
            calc a + 2 * k * (n / 2) = a + 2 * k * (2 * (n / 2 / 2) + 1) := by rw [← hhalf]
              _ = a + (k + k) + 2 * (k + k) * (n / 2 / 2) := by ring
          rw [h.mul_of_within hnext, hexp]
          exact ih _ hless hnext hsquare
        · rw [h.mul_of_not_within ha hsquare hnext, if_neg fun hin => hnext (h.of_le hin hrest)]
          rfl
      · have hexp : a + 2 * k * (n / 2) = a + 2 * (k + k) * (n / 2 / 2) := by
          have hhalf : n / 2 = 2 * (n / 2 / 2) := by omega
          calc a + 2 * k * (n / 2) = a + 2 * k * (2 * (n / 2 / 2)) := by rw [← hhalf]
            _ = a + 2 * (k + k) * (n / 2 / 2) := by ring
        rw [if_neg hbit, hexp]
        exact ih _ hless ha hsquare
    · have hbelow : k + k ≤ a + 2 * k * (n / 2) := (Nat.le_add_left _ a).trans hrest
      rw [h.mul_of_not_within hk hk hsquare, if_neg fun hin => hsquare (h.of_le hin hbelow)]
      rfl

theorem raise_eq (h : Bounded mul pow Within error) (hzero : Within 0) {k : Nat} (hk : Within k)
    (n : Nat) :
    raise mul (pow 0) (pow k) n =
      if Within (k * n) then .ok (pow (k * n)) else .error error := by
  induction n using Nat.strong_induction_on generalizing k with
  | _ n ih =>
    unfold raise
    by_cases hn : n = 0
    · rw [if_pos hn, hn, Nat.mul_zero, if_pos hzero]
    rw [if_neg hn]
    by_cases heven : n % 2 = 0
    · rw [if_pos heven]
      have hexp : k * n = (k + k) * (n / 2) := by
        have hhalf : n = 2 * (n / 2) := by omega
        calc k * n = k * (2 * (n / 2)) := by rw [← hhalf]
          _ = (k + k) * (n / 2) := by ring
      by_cases hsquare : Within (k + k)
      · rw [h.mul_of_within hsquare, hexp]
        exact ih _ (by omega) hsquare
      · have hbelow : k + k ≤ k * n := hexp ▸ Nat.le_mul_of_pos_right _ (by omega)
        rw [h.mul_of_not_within hk hk hsquare, if_neg fun hin => hsquare (h.of_le hin hbelow)]
        rfl
    · have hexp : k * n = k + 2 * k * (n / 2) := by
        have hhalf : n = 2 * (n / 2) + 1 := by omega
        calc k * n = k * (2 * (n / 2) + 1) := by rw [← hhalf]
          _ = k + 2 * k * (n / 2) := by ring
      rw [if_neg heven, hexp]
      exact h.accumulate_eq hk hk n

end Bounded

end LineCalc.Power
