import LineCalc.SymbolTable.Basic

/-!
# Laws of symbol tables

What binding a name does to the names, to look-up and to the numbers of a table, for one binding and
for many made in order: the last binding of a name is found, and the first one decides its place.
-/

namespace LineCalc.SymbolTable

instance (t : SymbolTable) : Decidable t.Distinct := inferInstanceAs (Decidable t.names.Nodup)

variable {t : SymbolTable} {name other : String} {value : Number}

theorem mem_of_get? (h : t.get? name = some value) : (name, value) ∈ t.entries := by
  obtain ⟨l₁, l₂, heq, -⟩ := List.lookup_eq_some_iff.mp h
  rw [heq]
  exact List.mem_append_right _ List.mem_cons_self

theorem lookup_cons_eq_ite (entries : List (String × Number)) :
    ((name, value) :: entries).lookup other =
      if other = name then some value else entries.lookup other := by
  rw [List.lookup_cons]
  by_cases h : other = name
  · simp [h]
  · rw [beq_eq_false_iff_ne.mpr h, if_neg h]

/-! ## One binding -/

theorem insertEntry_names (entries : List (String × Number)) :
    (insertEntry name value entries).map Prod.fst =
      if name ∈ entries.map Prod.fst then entries.map Prod.fst
      else entries.map Prod.fst ++ [name] := by
  induction entries with
  | nil => simp [insertEntry]
  | cons b rest ih =>
      obtain ⟨n, v⟩ := b
      by_cases hn : n = name
      · simp [insertEntry, hn]
      · have hne : name ≠ n := fun h => hn h.symm
        simp only [insertEntry, hn, ↓reduceIte, List.map_cons, List.mem_cons, hne, false_or, ih]
        split <;> rfl

theorem names_insert (t : SymbolTable) (name : String) (value : Number) :
    (t.insert name value).names = if name ∈ t.names then t.names else t.names ++ [name] :=
  insertEntry_names t.entries

theorem insertEntry_lookup (entries : List (String × Number)) :
    (insertEntry name value entries).lookup other =
      if other = name then some value else entries.lookup other := by
  induction entries with
  | nil => exact lookup_cons_eq_ite []
  | cons b rest ih =>
      obtain ⟨n, v⟩ := b
      by_cases hn : n = name
      · subst hn
        by_cases ho : other = n <;> simp [insertEntry, lookup_cons_eq_ite, ho]
      · by_cases ho : other = n
        · subst ho
          simp [insertEntry, hn]
        · simp [insertEntry, lookup_cons_eq_ite, hn, ho, ih]

theorem get?_insert (t : SymbolTable) (name other : String) (value : Number) :
    (t.insert name value).get? other = if other = name then some value else t.get? other :=
  insertEntry_lookup t.entries

theorem Distinct.insert (h : t.Distinct) (name : String) (value : Number) :
    (t.insert name value).Distinct := by
  unfold Distinct at *
  rw [names_insert]
  split
  · exact h
  · rename_i hname
    refine List.nodup_append.mpr ⟨h, by simp, ?_⟩
    rintro a ha b hb rfl
    rw [List.mem_singleton.mp hb] at ha
    exact hname ha

theorem mem_insertEntry {b : String × Number} {entries : List (String × Number)}
    (h : b ∈ insertEntry name value entries) : b = (name, value) ∨ b ∈ entries := by
  induction entries with
  | nil => exact .inl (List.mem_singleton.mp h)
  | cons c rest ih =>
      obtain ⟨n, v⟩ := c
      by_cases hn : n = name
      · simp only [insertEntry, hn, ↓reduceIte, List.mem_cons] at h ⊢
        exact h.imp_right .inr
      · simp only [insertEntry, hn, ↓reduceIte, List.mem_cons] at h ⊢
        rcases h with rfl | h
        · exact .inr (.inl rfl)
        · exact (ih h).imp_right .inr

/-! ## Many bindings -/

section Many

variable (t) (bindings : List (String × Number))

theorem insertMany_cons (b : String × Number) :
    t.insertMany (b :: bindings) = (t.insert b.1 b.2).insertMany bindings := rfl

theorem insertMany_append (more : List (String × Number)) :
    t.insertMany (bindings ++ more) = (t.insertMany bindings).insertMany more :=
  List.foldl_append

variable {t} in
theorem Distinct.insertMany (h : t.Distinct) : (t.insertMany bindings).Distinct := by
  induction bindings generalizing t with
  | nil => exact h
  | cons b rest ih => exact ih (h.insert b.1 b.2)

/-- New names come in the order of their first bindings. -/
theorem names_insertMany :
    (t.insertMany bindings).names =
      t.names ++ ((bindings.map Prod.fst).filter (· ∉ t.names)).eraseDups := by
  induction bindings generalizing t with
  | nil => simp [insertMany]
  | cons b rest ih =>
      rw [insertMany_cons, ih, names_insert, List.map_cons]
      by_cases hb : b.1 ∈ t.names
      · rw [if_pos hb, List.filter_cons_of_neg (by simpa using hb)]
      -- The name is at its place now, so that later bindings of it are filtered out.
      · rw [if_neg hb, List.filter_cons_of_pos (by simpa using hb), List.eraseDups_cons,
          List.filter_filter, List.append_assoc, List.singleton_append]
        congr 3
        refine List.filter_congr fun n _ => ?_
        by_cases hn : n = b.1 <;> simp [hn]

/-- The last binding of a name is the one that is found. -/
theorem get?_insertMany (name : String) :
    (t.insertMany bindings).get? name = (bindings.reverse.lookup name).or (t.get? name) := by
  induction bindings generalizing t with
  | nil => simp [insertMany]
  | cons b rest ih =>
      obtain ⟨n, v⟩ := b
      rw [insertMany_cons, ih, get?_insert, List.reverse_cons, List.lookup_append,
        lookup_cons_eq_ite, Option.or_assoc]
      by_cases hn : name = n <;> simp [hn]

variable {bindings} in
theorem lookup_reverse_eq_none (h : ∀ b ∈ bindings, b.1 ≠ name) :
    bindings.reverse.lookup name = none := by
  refine List.lookup_eq_none_iff.mpr fun b hb => ?_
  simpa using (h b (List.mem_reverse.mp hb)).symm

/-- Look-up does not tell in which order different names were bound. -/
theorem get?_insertMany_append_comm {more : List (String × Number)}
    (h : ∀ b ∈ bindings, ∀ c ∈ more, b.1 ≠ c.1) (name : String) :
    (t.insertMany (bindings ++ more)).get? name = (t.insertMany (more ++ bindings)).get? name := by
  rw [get?_insertMany, get?_insertMany, List.reverse_append, List.reverse_append,
    List.lookup_append, List.lookup_append]
  by_cases hname : ∃ b ∈ bindings, b.1 = name
  · obtain ⟨b, hb, rfl⟩ := hname
    rw [lookup_reverse_eq_none fun c hc => (h b hb c hc).symm, Option.none_or, Option.or_none]
  · rw [lookup_reverse_eq_none fun b hb heq => hname ⟨b, hb, heq⟩, Option.none_or, Option.or_none]

variable {t} in
/-- The order of bindings decides no more than the order of the names that are new. -/
theorem Distinct.names_insertMany_append_comm (h : t.Distinct) (more : List (String × Number)) :
    ∃ new new', (t.insertMany (bindings ++ more)).names = t.names ++ new ∧
      (t.insertMany (more ++ bindings)).names = t.names ++ new' ∧ new.Perm new' := by
  have hnames := names_insertMany t (bindings ++ more)
  have hnames' := names_insertMany t (more ++ bindings)
  have hdistinct := h.insertMany (bindings ++ more)
  have hdistinct' := h.insertMany (more ++ bindings)
  unfold Distinct at hdistinct hdistinct'
  rw [hnames] at hdistinct
  rw [hnames'] at hdistinct'
  refine ⟨_, _, hnames, hnames', ?_⟩
  refine (List.perm_ext_iff_of_nodup (List.nodup_append.mp hdistinct).2.1
    (List.nodup_append.mp hdistinct').2.1).mpr fun name => ?_
  simp only [List.mem_eraseDups, List.mem_filter, List.map_append, List.mem_append]
  rw [or_comm]

end Many

end LineCalc.SymbolTable
