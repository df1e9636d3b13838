import LineCalc.Viability

/-!
# Open parentheses

`Unclosed` lists the opening parentheses without a partner. A token more adds one, takes the innermost
one away, or leaves them as they are.
-/

namespace LineCalc.Token

theorem Balanced.append {ts us : List Token} (hts : Balanced ts) (hus : Balanced us) :
    Balanced (ts ++ us) := by
  induction hts with
  | nil => exact hus
  | other ht _ ih => exact .other ht ih
  | @group inner ts hinner _ _ ih =>
      rw [List.cons_append, List.append_assoc, List.cons_append]
      exact .group hinner ih

/-- The positions of the opening parentheses without a partner, the innermost first. -/
inductive Unclosed : List Located → List Nat → Prop
  | balanced {ts : List Located} : Balanced (ts.map Located.token) → Unclosed ts []
  | opening {before after : List Located} {position : Nat} {positions : List Nat} :
      Unclosed before positions → Balanced (after.map Located.token) →
      Unclosed (before ++ ⟨.symbol .opening, position⟩ :: after) (position :: positions)

namespace Unclosed

variable {ts us : List Located} {t : Located} {position : Nat} {positions : List Nat}

theorem append_balanced (h : Unclosed ts positions) (hus : Balanced (us.map Located.token)) :
    Unclosed (ts ++ us) positions := by
  cases h with
  | balanced hts => exact .balanced (by rw [List.map_append]; exact hts.append hus)
  | opening hbefore hafter =>
      rw [List.append_assoc, List.cons_append]
      exact .opening hbefore (by rw [List.map_append]; exact hafter.append hus)

theorem append_other (h : Unclosed ts positions) (ht : t.token.isParenthesis = false) :
    Unclosed (ts ++ [t]) positions :=
  h.append_balanced (.other ht .nil)

theorem append_opening (h : Unclosed ts positions) (position : Nat) :
    Unclosed (ts ++ [⟨.symbol .opening, position⟩]) (position :: positions) :=
  .opening h .nil

theorem append_closing (h : Unclosed ts (position :: positions)) (p : Nat) :
    Unclosed (ts ++ [⟨.symbol .closing, p⟩]) positions := by
  cases h with
  | @opening before after _ _ hbefore hafter =>
      rw [List.append_assoc]
      -- The innermost group is complete now, and so it is balanced.
      refine hbefore.append_balanced ?_
      rw [List.cons_append, List.map_cons, List.map_append]
      exact .group hafter .nil

theorem innermostOpen (h : Unclosed ts (position :: positions)) : InnermostOpen ts position := by
  cases h with
  | opening _ hafter => exact ⟨_, _, rfl, hafter⟩

end Unclosed

theorem InnermostOpen.prepend {ts : List Located} {position : Nat} (h : InnermostOpen ts position)
    (head : List Located) : InnermostOpen (head ++ ts) position := by
  obtain ⟨before, after, rfl, hafter⟩ := h
  exact ⟨head ++ before, after, (List.append_assoc ..).symm, hafter⟩

end LineCalc.Token
