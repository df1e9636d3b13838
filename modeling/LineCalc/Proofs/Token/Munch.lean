import LineCalc.Proofs.Outcome
import LineCalc.Proofs.Token.Lexeme

/-!
# Lines are split by maximal munch

The lexer and the rule of the longest lexeme give every line the same outcome. When that is a list of
tokens, the line is laid out as their lexemes, at positions that go up, with blanks in between.
-/

namespace LineCalc

namespace Lexeme

/-! ## Numbers that are too large -/

theorem fits_value_iff (ds : List Char) : Word.Fits (value ds) ↔ ¬ Word.greatest < value ds := by
  have hnonneg : 0 ≤ value ds := Int.natCast_nonneg _
  simp only [Word.Fits, Word.least, Word.greatest]
  omega

theorem word?_eq_none {ds : List Char} (h : Word.greatest < value ds) : word? ds = none :=
  Word.check?_eq_none_iff.mpr fun hfits => (fits_value_iff ds).mp hfits h

theorem word?_eq_value {ds : List Char} (h : ¬ Word.greatest < value ds) :
    word? ds = some (value ds) :=
  Word.check?_eq_some_iff.mpr ⟨(fits_value_iff ds).mpr h, rfl⟩

theorem token?_eq_none {l : Lexeme} (h : l.TooLarge) : l.token? = none := by
  cases l with
  | whole ds => rw [token?, word?_eq_none h]; rfl
  | ratio n d =>
      rcases h with hn | hd
      · rw [token?, word?_eq_none hn]; rfl
      · rw [token?, word?_eq_none hd]; exact Option.bind_fun_none _
  | _ => exact h.elim

theorem token?_eq_meaning {l : Lexeme} (h : ¬ l.TooLarge) : l.token? = some l.meaning := by
  cases l with
  | whole ds => rw [token?, word?_eq_value h]; rfl
  | ratio n d =>
      obtain ⟨hn, hd⟩ := not_or.mp h
      rw [token?, word?_eq_value hn, word?_eq_value hd]
      rfl
  | _ => rfl

end Lexeme

namespace Token

variable {position : Nat} {cs rest : List Char} {l : Lexeme}

/-! ## The lexer, one step at a time -/

theorem scan_blank {c : Char} (hc : isBlank c = true) (cs : List Char) :
    scan position (c :: cs) = scan (position + c.utf8Size) cs := by
  rw [scan, if_pos hc]

theorem scan_of_read?_eq_none {c : Char} (hc : isBlank c = false)
    (h : Lexeme.read? (c :: cs) = none) :
    scan position (c :: cs) = .error (.unexpectedCharacter c position) := by
  rw [scan, if_neg (by simp [hc])]
  split
  · rfl
  · rename_i hread
    cases h.symm.trans hread

theorem scan_of_read?_eq_some (h : Lexeme.read? cs = some (l, rest)) :
    scan position cs = match l.token? with
      | none => .error (.literalOutOfRange (String.ofList l.text) position)
      | some token => (scan (position + l.byteLength) rest).map (⟨token, position⟩ :: ·) := by
  cases cs with
  | nil => cases h
  | cons c cs =>
      rw [scan, if_neg fun hblank => by cases (Lexeme.read?_blank hblank cs).symm.trans h]
      split
      · rename_i hread
        cases hread.symm.trans h
      · rename_i hread
        cases hread.symm.trans h
        rfl

theorem scan_tooLarge (h : Lexeme.read? cs = some (l, rest)) (hlarge : l.TooLarge) :
    scan position cs = .error (.literalOutOfRange (String.ofList l.text) position) := by
  rw [scan_of_read?_eq_some h, Lexeme.token?_eq_none hlarge]

theorem scan_meaning (h : Lexeme.read? cs = some (l, rest)) (hlarge : ¬ l.TooLarge) :
    scan position cs =
      (scan (position + l.byteLength) rest).map (⟨l.meaning, position⟩ :: ·) := by
  rw [scan_of_read?_eq_some h, Lexeme.token?_eq_meaning hlarge]

/-! ## The lexer and the rule -/

theorem scan_munch (position : Nat) (cs : List Char) : Munch position cs (scan position cs) := by
  -- By the length of the text, since a lexeme takes any number of characters off it.
  induction hlength : cs.length using Nat.strong_induction_on generalizing position cs with
  | _ n ih =>
      cases cs with
      | nil =>
          rw [scan]
          exact .done
      | cons c cs =>
          by_cases hc : isBlank c = true
          · rw [scan_blank hc]
            exact .blank hc (ih _ (hlength ▸ Nat.lt_succ_self _) _ _ rfl)
          cases hread : Lexeme.read? (c :: cs) with
          | none =>
              rw [scan_of_read?_eq_none (by simpa using hc) hread]
              exact .unexpectedCharacter (by simpa using hc) (Lexeme.read?_eq_none_iff.mp hread)
          | some read =>
              obtain ⟨l, rest⟩ := read
              have hlongest := Lexeme.read?_eq_some_iff.mp hread
              have hshorter : rest.length < n := hlength ▸ Lexeme.length_lt_of_read? hread
              by_cases hlarge : l.TooLarge
              · rw [scan_tooLarge hread hlarge]
                exact .literalOutOfRange hlongest hlarge
              · rw [scan_meaning hread hlarge]
                exact .token hlongest hlarge (ih _ hshorter _ _ rfl)

theorem Munch.scan_eq {outcome : Except LexError (List Located)}
    (h : Munch position cs outcome) : scan position cs = outcome := by
  induction h with
  | done => rw [scan]
  | blank hc _ ih => rw [scan_blank hc, ih]
  | token hlongest hlarge _ ih =>
      rw [scan_meaning (Lexeme.read?_eq_some_iff.mpr hlongest) hlarge, ih]
  | literalOutOfRange hlongest hlarge =>
      rw [scan_tooLarge (Lexeme.read?_eq_some_iff.mpr hlongest) hlarge]
  | unexpectedCharacter hc hnone =>
      rw [scan_of_read?_eq_none hc (Lexeme.read?_eq_none_iff.mpr hnone)]

/-! ## The layout of a line -/

theorem Munch.layout {outcome : Except LexError (List Located)} (h : Munch position cs outcome)
    {ts : List Located} (hts : outcome = .ok ts) : Layout position cs ts := by
  induction h generalizing ts with
  | done => cases hts; exact .done
  | blank hc _ ih => exact .blank hc (ih hts)
  | token hlongest _ _ ih =>
      obtain ⟨tail, htail, rfl⟩ := map_eq_ok_iff.mp hts
      rw [← hlongest.text_append]
      exact .token hlongest.patterned (ih htail)
  | literalOutOfRange => cases hts
  | unexpectedCharacter => cases hts

theorem byteLength_pos (h : l.Patterned) : 0 < l.byteLength := by
  refine Nat.pos_of_ne_zero fun hzero => Lexeme.text_ne_nil (Lexeme.read?_own_text h) ?_
  exact String.ofList_eq_empty_iff.mp (String.utf8ByteSize_eq_zero_iff.mp hzero)

theorem Layout.positions {ts : List Located} (h : Layout position cs ts) :
    (∀ t ∈ ts, position ≤ t.position) ∧ ts.Pairwise (·.position < ·.position) := by
  induction h with
  | done => exact ⟨nofun, .nil⟩
  | blank _ _ ih => exact ⟨fun t ht => Nat.le_of_add_right_le (ih.1 t ht), ih.2⟩
  | token hl _ ih =>
      have hpos := byteLength_pos hl
      refine ⟨fun t ht => ?_, .cons (fun t ht => ?_) ih.2⟩
      · rcases List.mem_cons.mp ht with rfl | ht
        · exact Nat.le_refl _
        · exact Nat.le_of_add_right_le (ih.1 t ht)
      · exact Nat.lt_of_lt_of_le (Nat.lt_add_of_pos_right hpos) (ih.1 t ht)

/-- A line is split by maximal munch and in no other way, and the tokens of a line are its lexemes,
one after the other and apart from blanks all of it. -/
theorem ofLine_munch (source : String) :
    (∀ outcome, ofLine source = outcome ↔ Munch 0 source.toList outcome) ∧
    (∀ ts, ofLine source = .ok ts →
      Layout 0 source.toList ts ∧ ts.Pairwise (·.position < ·.position)) := by
  refine ⟨fun outcome => ⟨?_, Munch.scan_eq⟩, fun ts hts => ?_⟩
  · rintro rfl
    exact scan_munch 0 source.toList
  · have hlayout := (scan_munch 0 source.toList).layout hts
    exact ⟨hlayout, hlayout.positions.2⟩

end Token

end LineCalc
