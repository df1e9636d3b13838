import LineCalc.Proofs.SymbolTable
import Mathlib.Data.List.Nodup

/-!
# Merging tables

A table that binds no name twice is known by the order of its names and by what is found under them. What
merging does to these two says all of it: such tables are an idempotent monoid under merging, and a list of
bindings that is put together from two makes the merge of their tables.
-/

namespace LineCalc.SymbolTable

variable {t u : SymbolTable} {name : String}

/-! ## Tables without repeated names -/

theorem eraseDups_of_nodup {names : List String} (h : names.Nodup) : names.eraseDups = names := by
  induction names with
  | nil => rfl
  | cons n rest ih =>
      obtain ⟨hn, hrest⟩ := List.nodup_cons.mp h
      have hkept : rest.filter (fun m => !m == n) = rest :=
        List.filter_eq_self.mpr fun m hm => by simpa using ne_of_mem_of_not_mem hm hn
      rw [List.eraseDups_cons, hkept, ih hrest]

theorem lookup_of_not_mem {entries : List (String × Number)} (h : name ∉ entries.map Prod.fst) :
    entries.lookup name = none := by
  refine List.lookup_eq_none_iff.mpr fun b hb => bne_iff_ne.mpr ?_
  rintro rfl
  exact h (List.mem_map_of_mem hb)

theorem lookup_reverse_of_nodup {entries : List (String × Number)}
    (h : (entries.map Prod.fst).Nodup) : entries.reverse.lookup name = entries.lookup name := by
  induction entries with
  | nil => rfl
  | cons b rest ih =>
      obtain ⟨n, v⟩ := b
      obtain ⟨hn, hrest⟩ := List.nodup_cons.mp h
      rw [List.reverse_cons, List.lookup_append, ih hrest, lookup_cons_eq_ite, lookup_cons_eq_ite]
      by_cases hname : name = n
      · subst hname
        rw [lookup_of_not_mem hn, if_pos rfl, if_pos rfl, Option.none_or]
      · rw [if_neg hname, if_neg hname, List.lookup_nil, Option.or_none]

theorem entries_eq_of_lookup {entries others : List (String × Number)}
    (hnodup : (entries.map Prod.fst).Nodup)
    (hnames : entries.map Prod.fst = others.map Prod.fst)
    (hlookup : ∀ name, entries.lookup name = others.lookup name) : entries = others := by
  induction entries generalizing others with
  | nil => exact (List.map_eq_nil_iff.mp hnames.symm).symm
  | cons b rest ih =>
      obtain ⟨n, v⟩ := b
      obtain ⟨⟨n', v'⟩, rest', rfl, hhead, htail⟩ := List.map_eq_cons_iff.mp hnames.symm
      cases hhead
      obtain ⟨hn, hrest⟩ := List.nodup_cons.mp hnodup
      have hvalue := hlookup n
      rw [lookup_cons_eq_ite, lookup_cons_eq_ite, if_pos rfl, if_pos rfl] at hvalue
      cases hvalue
      refine congrArg ((n, v) :: ·) (ih hrest htail.symm fun name => ?_)
      by_cases hname : name = n
      -- The name of the first binding is in neither of the rests.
      · subst hname
        rw [lookup_of_not_mem hn, lookup_of_not_mem (htail ▸ hn)]
      · have hother := hlookup name
        rwa [lookup_cons_eq_ite, lookup_cons_eq_ite, if_neg hname, if_neg hname] at hother

/-- A table is known by the order of its names and by look-up. -/
theorem Distinct.ext (h : t.Distinct) (hnames : t.names = u.names)
    (hget : ∀ name, t.get? name = u.get? name) : t = u :=
  congrArg SymbolTable.mk (entries_eq_of_lookup h hnames hget)

/-! ## One merge -/

theorem Distinct.merge (h : t.Distinct) (u : SymbolTable) : (t.merge u).Distinct :=
  h.insertMany u.entries

theorem empty_distinct : (∅ : SymbolTable).Distinct := List.nodup_nil

theorem ofList_distinct (bindings : List (String × Number)) : (ofList bindings).Distinct :=
  empty_distinct.insertMany bindings

/-- Names that are bound already keep their places, and the others follow in their order. -/
theorem names_merge (t : SymbolTable) (hu : u.Distinct) :
    (t.merge u).names = t.names ++ u.names.filter (· ∉ t.names) := by
  have hnew : (u.names.filter (· ∉ t.names)).Nodup := hu.filter _
  rw [← eraseDups_of_nodup hnew]
  exact names_insertMany t u.entries

/-- What is merged in goes before what was there. -/
theorem get?_merge (t : SymbolTable) (hu : u.Distinct) (name : String) :
    (t.merge u).get? name = (u.get? name).or (t.get? name) := by
  rw [SymbolTable.merge, get?_insertMany, lookup_reverse_of_nodup hu]
  rfl

theorem merge_self (h : t.Distinct) : t.merge t = t := by
  refine (h.merge t).ext ?_ fun name => ?_
  · rw [names_merge t h, List.filter_eq_nil_iff.mpr fun n hn => by simpa using hn, List.append_nil]
  · rw [get?_merge t h, Option.or_self]

/-! ## Merges in a row -/

/-- A binding that is made before a merge might as well be made after it. -/
theorem merge_insert (ht : t.Distinct) (hu : u.Distinct) (name : String) (value : Number) :
    t.merge (u.insert name value) = (t.merge u).insert name value := by
  refine (ht.merge _).ext ?_ fun other => ?_
  · rw [names_merge t (hu.insert name value), names_insert, names_insert, names_merge t hu]
    by_cases hmem : name ∈ u.names <;> by_cases hbound : name ∈ t.names <;> simp [hmem, hbound]
  · rw [get?_merge t (hu.insert name value), get?_insert, get?_insert, get?_merge t hu]
    split <;> rfl

theorem merge_insertMany (ht : t.Distinct) (hu : u.Distinct) (bindings : List (String × Number)) :
    t.merge (u.insertMany bindings) = (t.merge u).insertMany bindings := by
  induction bindings generalizing u with
  | nil => rfl
  | cons b rest ih =>
      rw [insertMany_cons, insertMany_cons, ih (hu.insert b.1 b.2), merge_insert ht hu]

theorem merge_assoc {a b : SymbolTable} (ha : a.Distinct) (hb : b.Distinct) (c : SymbolTable) :
    (a.merge b).merge c = a.merge (b.merge c) :=
  (merge_insertMany ha hb c.entries).symm

theorem empty_merge (h : t.Distinct) : (∅ : SymbolTable).merge t = t := by
  refine (empty_distinct.merge t).ext ?_ fun name => ?_
  · rw [names_merge ∅ h]
    exact List.filter_eq_self.mpr fun n _ => by simp [names, EmptyCollection.emptyCollection]
  · rw [get?_merge ∅ h]
    exact Option.or_none

theorem ofList_append (bindings more : List (String × Number)) :
    ofList (bindings ++ more) = (ofList bindings).merge (ofList more) := by
  rw [ofList, insertMany_append]
  exact (merge_insertMany (ofList_distinct bindings) empty_distinct more).symm

/-- Tables that bind no name twice are an idempotent monoid under merging. Collecting bindings makes such
a table, makes every one of them, and turns lists put together into merges. -/
theorem merge_monoid :
    (∀ a b c : SymbolTable, a.Distinct → b.Distinct →
      ((a.merge b).Distinct ∧ (a.merge b).names = a.names ++ b.names.filter (· ∉ a.names) ∧
        ∀ name, (a.merge b).get? name = (b.get? name).or (a.get? name)) ∧
      (a.merge b).merge c = a.merge (b.merge c) ∧
      (∅ : SymbolTable).merge a = a ∧ a.merge ∅ = a ∧
      a.merge a = a ∧ (a.merge b).merge b = a.merge b) ∧
    (∀ a : SymbolTable, a.Distinct → ofList a.entries = a) ∧
    ∀ bindings more : List (String × Number),
      (ofList bindings).Distinct ∧
        ofList (bindings ++ more) = (ofList bindings).merge (ofList more) := by
  refine ⟨fun a b c ha hb => ⟨⟨ha.merge b, names_merge a hb, get?_merge a hb⟩,
    merge_assoc ha hb c, empty_merge ha, rfl, merge_self ha, ?_⟩, fun a => empty_merge,
    fun bindings more => ⟨ofList_distinct bindings, ofList_append bindings more⟩⟩
  rw [merge_assoc ha hb b, merge_self hb]

/-- One table changes a name of another and adds one, and a third changes both of these. -/
theorem merge_monoid_overlapping :
    let a : SymbolTable := ⟨[("x", .integer 3), ("y", .integer 4)]⟩
    let b : SymbolTable := ⟨[("z", .rational ⟨3, 2⟩), ("x", .integer 7)]⟩
    let c : SymbolTable := ⟨[("x", .integer 0), ("w", .integer 1), ("z", .integer 2)]⟩
    a.Distinct ∧ b.Distinct ∧
      a.merge b = ⟨[("x", .integer 7), ("y", .integer 4), ("z", .rational ⟨3, 2⟩)]⟩ ∧
      (a.merge b).names = a.names ++ b.names.filter (· ∉ a.names) ∧
      (a.merge b).get? "x" = (b.get? "x").or (a.get? "x") ∧
      a.merge (b.merge c) =
        ⟨[("x", .integer 0), ("y", .integer 4), ("z", .integer 2), ("w", .integer 1)]⟩ ∧
      (a.merge b).merge c = a.merge (b.merge c) := by
  intro a b c
  have ha : a.Distinct := by decide
  have hb : b.Distinct := by decide
  obtain ⟨⟨-, hnames, hget⟩, hassoc, -⟩ := merge_monoid.1 a b c ha hb
  exact ⟨ha, hb, by decide, hnames, hget "x", by decide, hassoc⟩

end LineCalc.SymbolTable
