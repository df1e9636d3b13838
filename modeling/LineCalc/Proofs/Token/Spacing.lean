import LineCalc.Proofs.Token.Blank

/-!
# Splitting a line with added blanks

Each lexeme of a line is read as before when blanks are added before tokens and at the end, since what
comes after it is a blank now or what came before. So the tokens stay, and each of them moves by the
bytes added before it.
-/

namespace LineCalc.Token

variable {runs : Nat → List Char} {position start stop : Nat} {cs rest : List Char}
  {ts : List Located} {l : Lexeme}

/-! ## Where nothing is added -/

theorem inserted_eq_of_forall_nil (hle : start ≤ stop)
    (h : ∀ position, start ≤ position → position < stop → runs position = []) :
    inserted runs stop = inserted runs start := by
  induction stop, hle using Nat.le_induction with
  | base => rfl
  | succ stop hle ih =>
      rw [inserted, h stop hle (Nat.lt_succ_self stop), bytes_nil, Nat.add_zero]
      exact ih fun position hstart hstop => h position hstart (Nat.lt_succ_of_lt hstop)

theorem spread_append_of_forall_nil
    (h : ∀ q, position ≤ q → q < position + bytes cs → runs q = []) :
    spread runs position (cs ++ rest) = cs ++ spread runs (position + bytes cs) rest := by
  induction cs generalizing position with
  | nil => rfl
  | cons c cs ih =>
      have hpos := c.utf8Size_pos
      rw [bytes_cons] at h
      rw [List.cons_append, spread, h position (Nat.le_refl _) (by omega), List.nil_append,
        ih fun q hstart hstop => h q (by omega) (by omega), bytes_cons, Nat.add_assoc]
      rfl

/-- A run before a text is all that is added, if none is within it. -/
theorem spread_append (hne : cs ≠ [])
    (h : ∀ q, position < q → q < position + bytes cs → runs q = []) :
    spread runs position (cs ++ rest) =
      runs position ++ (cs ++ spread runs (position + bytes cs) rest) := by
  obtain ⟨c, cs, rfl⟩ := List.exists_cons_of_ne_nil hne
  have hpos := c.utf8Size_pos
  rw [bytes_cons] at h ⊢
  rw [List.cons_append, spread,
    spread_append_of_forall_nil fun q hstart hstop => h q (by omega) (by omega), Nat.add_assoc]
  rfl

/-! ## Lexemes before added blanks -/

theorem endsBefore_spread (hblank : ∀ p, ∀ c ∈ runs p, isBlank c = true) (h : l.EndsBefore rest)
    (position : Nat) : l.EndsBefore (spread runs position rest) := by
  have hrun : ∀ more, l.EndsBefore more → l.EndsBefore (runs position ++ more) := by
    intro more hmore
    cases hruns : runs position with
    | nil => exact hmore
    | cons b run =>
        have hb := hblank position b (hruns ▸ List.mem_cons_self)
        exact Lexeme.endsBefore_cons_iff.mpr (l.continues_blank hb)
  cases rest with
  | nil =>
      have := hrun [] (Lexeme.endsBefore_nil l)
      rwa [List.append_nil] at this
  | cons c rest => exact hrun _ (Lexeme.endsBefore_cons_iff.mpr (Lexeme.endsBefore_cons_iff.mp h))

theorem endsBefore_of_scan {cs : List Char} (hread : Lexeme.read? cs = some (l, rest))
    (h : scan position rest = .ok ts) : l.EndsBefore rest :=
  Lexeme.endsBefore_of_read? hread (reads_of_scan h).head?_ne_backslash

/-! ## Lines with added blanks -/

theorem positions_le (h : scan position cs = .ok ts) : ∀ t ∈ ts, position ≤ t.position :=
  ((scan_munch position cs).layout h).positions.1

/-- From the offset `start` on, runs are only before tokens and at the end of the line. -/
def Placed (runs : Nat → List Char) (start stop : Nat) (ts : List Located) : Prop :=
  ∀ position, start ≤ position → runs position ≠ [] →
    position = stop ∨ ∃ t ∈ ts, t.position = position

namespace Placed

theorem mono (h : Placed runs start stop ts) {later : Nat} (hle : start ≤ later) :
    Placed runs later stop ts :=
  fun position hposition => h position (Nat.le_trans hle hposition)

theorem tail {t : Located} (h : Placed runs start stop (t :: ts)) (ht : t.position < start) :
    Placed runs start stop ts := by
  intro position hle hne
  rcases h position hle hne with hstop | ⟨u, hu, hposition⟩
  · exact .inl hstop
  rcases List.mem_cons.mp hu with rfl | hu
  · omega
  · exact .inr ⟨u, hu, hposition⟩

/-- Nothing is added before the next token. -/
theorem eq_nil (h : Placed runs start stop ts) {next : Nat} (hnext : next ≤ stop)
    (hts : ∀ t ∈ ts, next ≤ t.position) :
    ∀ position, start ≤ position → position < next → runs position = [] := by
  intro position hle hlt
  by_contra hne
  rcases h position hle hne with rfl | ⟨t, ht, rfl⟩
  · omega
  · exact absurd (hts t ht) (Nat.not_le_of_lt hlt)

end Placed

theorem scan_spread (hblank : ∀ p, ∀ c ∈ runs p, isBlank c = true)
    (h : scan position cs = .ok ts) (hplaced : Placed runs position (position + bytes cs) ts) :
    scan (position + inserted runs position) (spread runs position cs) =
      .ok (ts.map (Located.moved (shift runs))) := by
  -- Before each character of the line, all the runs before it have been skipped but its own.
  fun_induction scan position cs generalizing ts with
  | case1 position =>
      cases h
      exact scan_of_blank (hblank position) _
  | case2 position c cs hc ih =>
      have hpos := c.utf8Size_pos
      rw [bytes_cons, ← Nat.add_assoc] at hplaced
      have hnil := hplaced.eq_nil (Nat.le_add_right _ _) (positions_le h)
      have hsame := ih h (hplaced.mono (Nat.le_add_right _ _))
      rw [inserted_eq_of_forall_nil (Nat.le_add_right _ _) hnil] at hsame
      rw [spread, hnil position (Nat.le_refl _) (by omega), List.nil_append, scan_blank hc,
        Nat.add_right_comm, hsame]
  | case3 => cases h
  | case4 => cases h
  | case5 position c cs _ lexeme rest hread _ token htoken ih =>
      obtain ⟨tail, htail, rfl⟩ := map_eq_ok_iff.mp h
      have hl := Lexeme.read?_patterned hread
      have hpos := byteLength_pos hl
      have htext := Lexeme.read?_text hread
      rw [← htext, bytes_append, bytes_text, ← Nat.add_assoc] at hplaced
      have hlater := (hplaced.mono (Nat.le_succ position)).tail (Nat.lt_succ_self position)
      have hnil := hlater.eq_nil (Nat.le_add_right _ _) (positions_le htail)
      have hsame := ih htail (hlater.mono (by omega))
      rw [inserted_eq_of_forall_nil (by omega) hnil, inserted] at hsame
      have hend := endsBefore_spread hblank (endsBefore_of_scan hread htail)
        (position + lexeme.byteLength)
      have hagain : Lexeme.read? (lexeme.text ++ spread runs (position + lexeme.byteLength) rest) =
          some (lexeme, spread runs (position + lexeme.byteLength) rest) := by
        rw [Lexeme.read?_text_append hl, Lexeme.grow_of_endsBefore hend]
      rw [← htext, spread_append (Lexeme.text_ne_nil hread) hnil, bytes_text,
        scan_append_of_blank (hblank position), scan_of_read?_eq_some hagain, htoken,
        Nat.add_assoc position, Nat.add_right_comm position]
      simp only [hsame, Except.map, List.map_cons, Located.moved, shift, inserted]

/-- The tokens of a line with added blanks. -/
theorem ofLine_respace {source : String} (h : ofLine source = .ok ts)
    (hspacing : Spacing source ts runs) :
    ofLine (respace runs source) = .ok (ts.map (Located.moved (shift runs))) := by
  have hplaced : Placed runs 0 (0 + bytes source.toList) ts := by
    intro position _ hne
    rw [Nat.zero_add, bytes_toList]
    exact hspacing.placed position hne
  rw [ofLine, respace, String.toList_ofList]
  exact scan_spread hspacing.blank h hplaced

end LineCalc.Token
