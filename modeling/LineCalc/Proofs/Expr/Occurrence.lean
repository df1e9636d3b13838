import LineCalc.Expr.Basic

/-!
# Where expressions occur

The tokens of an expression in another one stand at the place of the occurrence, so that occurrences can be
compared by their places. What is evaluated before a variable ends to the left of it, and all that is
evaluated after it ends behind it.
-/

namespace LineCalc.Expr

variable {e : Expr} {n place : Nat} {name : String} {o : Occurrence}

theorem mem_occurrences_negate :
    o ∈ e.negate.occurrences n ↔ o ∈ e.occurrences (n + 1) ∨ o = ⟨n, e.negate⟩ := by
  simp [occurrences]

theorem mem_occurrences_group :
    o ∈ e.group.occurrences n ↔ o ∈ e.occurrences (n + 1) ∨ o = ⟨n, e.group⟩ := by
  simp [occurrences]

theorem mem_occurrences_binary {op : Operator} {l r : Expr} :
    o ∈ (binary op l r).occurrences n ↔
      o ∈ l.occurrences n ∨ o ∈ r.occurrences (n + l.tokens.length + 1) ∨ o = ⟨n, binary op l r⟩ := by
  simp [occurrences]

theorem occurrences_map_expr (e : Expr) (n : Nat) :
    (e.occurrences n).map Occurrence.expr = e.subexpressions := by
  induction e generalizing n with
  | literal l => rfl
  | var name => rfl
  | negate e ih => simp [occurrences, subexpressions, ih]
  | group e ih => simp [occurrences, subexpressions, ih]
  | binary op l r ihl ihr => simp [occurrences, subexpressions, ihl, ihr]

/-- The tokens of what occurs at a place stand there. -/
theorem tokens_of_mem_occurrences (h : o ∈ e.occurrences n) :
    ∃ before after, e.tokens = before ++ o.expr.tokens ++ after ∧ o.start = n + before.length := by
  have hself : ∀ (e : Expr) (n : Nat), ∃ before after : List Token,
      e.tokens = before ++ e.tokens ++ after ∧ n = n + before.length :=
    fun e n => ⟨[], [], by simp, rfl⟩
  induction e generalizing n with
  | literal l => cases List.mem_singleton.mp h; exact hself _ n
  | var name => cases List.mem_singleton.mp h; exact hself _ n
  | negate e ih =>
      rcases mem_occurrences_negate.mp h with h | rfl
      · obtain ⟨before, after, htokens, hstart⟩ := ih h
        refine ⟨.symbol (.operator .sub) :: before, after, by simp [tokens, htokens], ?_⟩
        rw [hstart, List.length_cons]
        omega
      · exact hself _ n
  | group e ih =>
      rcases mem_occurrences_group.mp h with h | rfl
      · obtain ⟨before, after, htokens, hstart⟩ := ih h
        refine ⟨.symbol .opening :: before, after ++ [.symbol .closing], by simp [tokens, htokens], ?_⟩
        rw [hstart, List.length_cons]
        omega
      · exact hself _ n
  | binary op l r ihl ihr =>
      rcases mem_occurrences_binary.mp h with h | h | rfl
      · obtain ⟨before, after, htokens, hstart⟩ := ihl h
        exact ⟨before, after ++ .symbol (.operator op) :: r.tokens, by simp [tokens, htokens], hstart⟩
      · obtain ⟨before, after, htokens, hstart⟩ := ihr h
        refine ⟨l.tokens ++ .symbol (.operator op) :: before, after, by simp [tokens, htokens], ?_⟩
        rw [hstart, List.length_append, List.length_cons]
        omega
      · exact hself _ n

theorem start_le (h : o ∈ e.occurrences n) : n ≤ o.start := by
  obtain ⟨before, after, -, hstart⟩ := tokens_of_mem_occurrences h
  omega

theorem stop_le (h : o ∈ e.occurrences n) : o.stop ≤ n + e.tokens.length := by
  obtain ⟨before, after, htokens, hstart⟩ := tokens_of_mem_occurrences h
  rw [htokens, Occurrence.stop, hstart, List.length_append, List.length_append]
  omega

/-- What occurs in an occurrence occurs in the whole. -/
theorem occurrences_trans {o' : Occurrence} (h : o ∈ e.occurrences n)
    (h' : o' ∈ o.expr.occurrences o.start) : o' ∈ e.occurrences n := by
  induction e generalizing n with
  | literal l => cases List.mem_singleton.mp h; exact h'
  | var name => cases List.mem_singleton.mp h; exact h'
  | negate e ih =>
      rcases mem_occurrences_negate.mp h with h | rfl
      · exact mem_occurrences_negate.mpr (.inl (ih h))
      · exact h'
  | group e ih =>
      rcases mem_occurrences_group.mp h with h | rfl
      · exact mem_occurrences_group.mpr (.inl (ih h))
      · exact h'
  | binary op l r ihl ihr =>
      rcases mem_occurrences_binary.mp h with h | h | rfl
      · exact mem_occurrences_binary.mpr (.inl (ihl h))
      · exact mem_occurrences_binary.mpr (.inr (.inl (ihr h)))
      · exact h'

theorem exists_place (e : Expr) (n : Nat) (h : name ∈ e.vars) :
    ∃ p, ⟨p, .var name⟩ ∈ e.occurrences n := by
  induction e generalizing n with
  | literal l => cases h
  | var other => cases List.mem_singleton.mp h; exact ⟨n, List.mem_singleton_self _⟩
  | negate e ih => exact (ih (n + 1) h).imp fun _ hp => mem_occurrences_negate.mpr (.inl hp)
  | group e ih => exact (ih (n + 1) h).imp fun _ hp => mem_occurrences_group.mpr (.inl hp)
  | binary op l r ihl ihr =>
      rcases List.mem_append.mp h with h | h
      · exact (ihl n h).imp fun _ hp => mem_occurrences_binary.mpr (.inl hp)
      · exact (ihr _ h).imp fun _ hp => mem_occurrences_binary.mpr (.inr (.inl hp))

/-! ## What is evaluated before a variable -/

/-- The variable is among the occurrences. What comes before it ends to its left, and the rest ends behind
it. -/
def SplitAt (place : Nat) (name : String) (os : List Occurrence) : Prop :=
  ∃ before after, os = before ++ ⟨place, .var name⟩ :: after ∧
    (∀ o ∈ before, o.stop ≤ place) ∧ ∀ o ∈ after, place < o.stop

namespace SplitAt

variable {os more : List Occurrence}

theorem append_left (h : SplitAt place name os) (hmore : ∀ o ∈ more, o.stop ≤ place) :
    SplitAt place name (more ++ os) := by
  obtain ⟨before, after, rfl, hbefore, hafter⟩ := h
  exact ⟨more ++ before, after, (List.append_assoc ..).symm,
    fun o ho => (List.mem_append.mp ho).elim (hmore o) (hbefore o), hafter⟩

theorem append_right (h : SplitAt place name os) (hmore : ∀ o ∈ more, place < o.stop) :
    SplitAt place name (os ++ more) := by
  obtain ⟨before, after, rfl, hbefore, hafter⟩ := h
  exact ⟨before, after ++ more, List.append_assoc .., hbefore,
    fun o ho => (List.mem_append.mp ho).elim (hafter o) (hmore o)⟩

/-- An expression ends behind all variables in it. -/
theorem append_self (h : SplitAt place name os) (hmem : ⟨place, .var name⟩ ∈ e.occurrences n) :
    SplitAt place name (os ++ [⟨n, e⟩]) :=
  h.append_right fun o ho => by
    cases List.mem_singleton.mp ho
    exact stop_le hmem

end SplitAt

theorem occurrences_splitAt (h : ⟨place, .var name⟩ ∈ e.occurrences n) :
    SplitAt place name (e.occurrences n) := by
  induction e generalizing n with
  | literal l => cases List.mem_singleton.mp h
  | var other => cases List.mem_singleton.mp h; exact ⟨[], [], rfl, by simp, by simp⟩
  | negate e ih =>
      rcases mem_occurrences_negate.mp h with hin | hself
      · exact (ih hin).append_self h
      · cases hself
  | group e ih =>
      rcases mem_occurrences_group.mp h with hin | hself
      · exact (ih hin).append_self h
      · cases hself
  | binary op l r ihl ihr =>
      rcases mem_occurrences_binary.mp h with hleft | hright | hself
      · refine ((ihl hleft).append_right fun o ho => ?_).append_self h
        have hplace : place + 1 ≤ n + l.tokens.length := stop_le hleft
        have hstart := start_le ho
        rw [Occurrence.stop]
        omega
      · refine ((ihr hright).append_left fun o ho => ?_).append_self h
        have hplace : n + l.tokens.length + 1 ≤ place := start_le hright
        have hstop := stop_le ho
        omega
      · cases hself

end LineCalc.Expr
