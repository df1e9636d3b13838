import LineCalc.Proofs.Token.Reading
import LineCalc.Token.Editing

/-!
# Reading a line in which a name is replaced

A parenthesis ends whatever lexeme is before it. So the text around a name is read as before when a
text in parentheses stands for the name, and the text in the parentheses is read as it is on its own.
-/

namespace LineCalc

theorem Lexeme.token?_eq_name_iff {l : Lexeme} {name : String} :
    l.token? = some (.name name) ↔ l = .letters name.toList := by
  cases l with
  | letters cs =>
      simp only [token?, Option.some.injEq, Token.name.injEq, letters.injEq]
      exact ⟨fun h => by rw [← h, String.toList_ofList], fun h => by rw [h, String.ofList_toList]⟩
  | whole ds => simp [token?]
  | ratio n d => simp [token?, Option.bind_eq_some_iff]
  | decimal w f => simp [token?]
  | symbol s => simp [token?]

namespace Token

variable {name replacement cs rest : List Char} {l : Lexeme}

theorem replaceName_blank {c : Char} (hc : isBlank c = true) (cs : List Char) :
    replaceName name replacement (c :: cs) = c :: replaceName name replacement cs := by
  rw [replaceName, if_pos hc]

theorem replaceName_of_read?_eq_none {c : Char} (hc : ¬ isBlank c = true)
    (h : Lexeme.read? (c :: cs) = none) :
    replaceName name replacement (c :: cs) = c :: cs := by
  rw [replaceName, if_neg hc]
  split
  · rfl
  · rename_i hread
    cases h.symm.trans hread

theorem replaceName_of_read? (h : Lexeme.read? cs = some (l, rest)) :
    replaceName name replacement cs =
      (if l = .letters name then replacement else l.text) ++ replaceName name replacement rest := by
  cases cs with
  | nil => cases h
  | cons c cs =>
      rw [replaceName, if_neg fun hblank => by cases (Lexeme.read?_blank hblank cs).symm.trans h]
      split
      · rename_i hread
        cases hread.symm.trans h
      · rename_i hread
        cases hread.symm.trans h
        rfl

/-- Where a name is replaced the text starts with the replacement, and elsewhere as before. -/
theorem endsBefore_replaceName (hrest : l.EndsBefore rest) (hreplacement : l.EndsBefore replacement)
    (hne : replacement ≠ []) : l.EndsBefore (replaceName name replacement rest) := by
  cases rest with
  | nil => rw [replaceName]; exact hrest
  | cons c cs =>
      by_cases hblank : isBlank c = true
      · rw [replaceName_blank hblank]
        exact Lexeme.endsBefore_cons_iff.mpr (Lexeme.endsBefore_cons_iff.mp hrest)
      cases hread : Lexeme.read? (c :: cs) with
      | none => rw [replaceName_of_read?_eq_none hblank hread]; exact hrest
      | some read =>
          obtain ⟨m, after⟩ := read
          rw [replaceName_of_read? hread]
          split
          · exact (Lexeme.endsBefore_append_iff hne _).mpr hreplacement
          · rw [← Lexeme.read?_text hread] at hrest
            have hm := Lexeme.text_ne_nil hread
            exact (Lexeme.endsBefore_append_iff hm _).mpr
              ((Lexeme.endsBefore_append_iff hm _).mp hrest)

theorem Reads.replaceName {name : String} {body cs : List Char} {bs ts : List Token}
    (hbody : Reads body bs) (h : Reads cs ts) :
    Reads (replaceName name.toList ('(' :: (body ++ [')'])) cs)
      (ts.flatMap (replaced name (.symbol .opening :: (bs ++ [.symbol .closing])))) := by
  -- Along the reading of the line: each lexeme is the name or ends before the text that comes next.
  induction h with
  | done =>
      rw [Token.replaceName]
      exact .done
  | blank hblank _ ih =>
      rw [replaceName_blank hblank]
      exact .blank hblank ih
  | @token cs rest l t ts hread htoken hrest ih =>
      rw [replaceName_of_read? hread, List.flatMap_cons, replaced]
      by_cases hl : l = .letters name.toList
      · have ht := Lexeme.token?_eq_name_iff.mpr hl
        obtain rfl := Option.some.inj (htoken.symm.trans ht)
        rw [if_pos hl, if_pos rfl]
        have hgroup := symbol .opening (hbody.append_symbol .closing (symbol .closing ih))
        simpa [Symbol.char] using hgroup
      · have ht : t ≠ .name name := fun ht => hl (Lexeme.token?_eq_name_iff.mp (ht ▸ htoken))
        rw [if_neg hl, if_neg ht]
        refine lexeme (Lexeme.read?_patterned hread) htoken (endsBefore_replaceName ?_ ?_ ?_) ih
        · exact Lexeme.endsBefore_of_read? hread hrest.head?_ne_backslash
        · exact Lexeme.endsBefore_cons_iff.mpr (l.continues_symbol .opening)
        · exact List.cons_ne_nil _ _

end Token

end LineCalc
