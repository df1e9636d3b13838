import LineCalc.Proofs.Number.Text
import LineCalc.Proofs.Session.Reply

/-!
# A line that is the text of a number

An exact number comes back, in its kind and with its parts, when its text is entered as a line. So no
two of them have the same text. The least word is apart, since its digits without the sign are too
large.
-/

namespace LineCalc.Session

variable {v : Number}

theorem exists_statement?_text (hwf : v.WellFormed) (hexact : v.IsExact) (hleast : ¬ v.HasLeast) :
    ∃ e, statement? v.text = some (.expression e) ∧ ∀ table, e.eval table = .ok v := by
  -- Below zero the sign is not part of the literal: the literal is the opposite, and evaluation
  -- takes the opposite again.
  by_cases hsign : v.IsNegative
  · obtain ⟨w, hw, hwexact, hwsign, htext, hnegate⟩ := Number.exists_opposite hwf hleast hsign
    obtain ⟨l, hreads, hl⟩ := Number.exists_literal hw hwexact hwsign
    have hshape : Expr.Shaped .operand (.negate (.literal l)) := .negate (.literal l)
    refine ⟨.negate (.literal l), statement?_eq_expression_iff.mpr ⟨?_, hshape.mono (by decide)⟩, ?_⟩
    · rw [htext]
      exact hreads.symbol (.operator .sub)
    · intro table
      simp only [Expr.eval, hl]
      exact Result.mapError_eq_ok_iff.mpr hnegate
  · obtain ⟨l, hreads, hl⟩ := Number.exists_literal hwf hexact hsign
    have hshape : Expr.Shaped .atom (.literal l) := .literal l
    refine ⟨.literal l, statement?_eq_expression_iff.mpr ⟨hreads, hshape.mono (by decide)⟩, ?_⟩
    intro table
    exact Result.mapError_eq_ok_iff.mpr hl

theorem reply_of_text (table : SymbolTable) (hwf : v.WellFormed) (hexact : v.IsExact)
    (hleast : ¬ v.HasLeast) : reply table v.text = .ok ⟨some v, table⟩ := by
  obtain ⟨e, hline, heval⟩ := exists_statement?_text hwf hexact hleast
  rw [reply_of_expression hline, heval table]
  rfl

/-- The text of an exact number is answered with the number, and no other one has that text. -/
theorem reply_text_round_trip (table : SymbolTable) (v : Number) (hwf : v.WellFormed)
    (hexact : v.IsExact) (hleast : ¬ v.HasLeast) :
    (∃ r, reply table v.text = .ok r ∧ r.value = some v ∧ r.text = some v.text ∧ r.table = table) ∧
    ∀ w : Number, w.WellFormed → w.IsExact → ¬ w.HasLeast → w ≠ v → w.text ≠ v.text := by
  refine ⟨⟨_, reply_of_text table hwf hexact hleast, rfl, rfl, rfl⟩, ?_⟩
  intro w hw hwexact hwleast hne htext
  have hreply := reply_of_text table hw hwexact hwleast
  rw [htext, reply_of_text table hwf hexact hleast] at hreply
  cases hreply
  exact hne rfl

/-- The least fraction with denominator one, and the whole number beside it. -/
theorem reply_text_round_trip_least :
    let table : SymbolTable := ⟨[("x", .integer 1)]⟩
    let v : Number := .rational ⟨-9223372036854775807, 1⟩
    let w : Number := .integer (-9223372036854775807)
    v.WellFormed ∧ v.IsExact ∧ ¬ v.HasLeast ∧ w.WellFormed ∧ w.IsExact ∧ ¬ w.HasLeast ∧ w ≠ v ∧
      (∃ r, reply table "-9223372036854775807\\1" = .ok r ∧ r.value = some v ∧
        r.text = some "-9223372036854775807\\1" ∧ r.table = table) ∧
      w.text ≠ v.text := by
  intro table v w
  have hv : v.WellFormed := show Fraction.WellFormed ⟨-9223372036854775807, 1⟩ by decide
  have hw : w.WellFormed := show Word.Fits (-9223372036854775807) by decide
  have hvleast : ¬ v.HasLeast := by decide
  have hwleast : ¬ w.HasLeast := by decide
  have hne : w ≠ v := nofun
  have htext : v.text = "-9223372036854775807\\1" := by decide +kernel
  obtain ⟨hreply, hdistinct⟩ := reply_text_round_trip table v hv trivial hvleast
  rw [htext] at hreply
  exact ⟨hv, trivial, hvleast, hw, trivial, hwleast, hne, hreply,
    hdistinct w hw trivial hwleast hne⟩

end LineCalc.Session
