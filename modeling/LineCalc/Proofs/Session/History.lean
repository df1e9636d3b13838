import LineCalc.Proofs.Session.Reply

/-!
# The history of a session

The assignments that succeed are all that a session leaves behind: its table is the first one with
these bindings made in order. So the first assignment of a new name gives it its place, and the last
one of any name its number.
-/

namespace LineCalc.Session

/-- The name and the reported value of a line that is an assignment and succeeds. -/
def assignment? (table : SymbolTable) (source : String) : Option (String × Number) :=
  match statement? source, reply table source with
  | some (.assignment name _), .ok ⟨some value, _⟩ => some (name, value)
  | _, _ => none

/-- The assignments that succeed among some lines, each against the table it comes to. -/
def history (table : SymbolTable) : List String → List (String × Number)
  | [] => []
  | source :: rest => (assignment? table source).toList ++ history (afterLine table source) rest

variable {table : SymbolTable} {source : String}

/-- The line is blank, only an expression, or fails or traps against the table. -/
def LeavesNothing (table : SymbolTable) (source : String) : Prop :=
  Token.ofLine source = .ok [] ∨ (∃ e, statement? source = some (.expression e)) ∨
    (∃ failure, reply table source = .error failure) ∨ reply table source = .trap

theorem LeavesNothing.assignment?_eq_none (h : LeavesNothing table source) :
    assignment? table source = none := by
  rcases h with hblank | ⟨e, hparse⟩ | ⟨failure, hreply⟩ | hreply
  · simp [assignment?, reply_of_blank hblank]
  · simp [assignment?, hparse]
  · simp [assignment?, hreply]
  · simp [assignment?, hreply]

/-- A line binds what it assigns, if it is an assignment and succeeds, and does nothing else. -/
theorem afterLine_eq_insertMany :
    afterLine table source = table.insertMany (assignment? table source).toList := by
  cases hreply : reply table source with
  | error failure =>
      rw [LeavesNothing.assignment?_eq_none (.inr (.inr (.inl ⟨failure, hreply⟩))), afterLine, hreply]
      rfl
  | trap =>
      rw [LeavesNothing.assignment?_eq_none (.inr (.inr (.inr hreply))), afterLine, hreply]
      rfl
  | ok r =>
      rcases reply_cases hreply with
        ⟨hblank, rfl⟩ | ⟨e, v, hparse, -, rfl⟩ | ⟨name, e, v, hparse, -, rfl⟩
      · rw [LeavesNothing.assignment?_eq_none (.inl hblank), afterLine, hreply]
        rfl
      · rw [LeavesNothing.assignment?_eq_none (.inr (.inl ⟨e, hparse⟩)), afterLine, hreply]
        rfl
      · have hassign : assignment? table source = some (name, v) := by
          simp [assignment?, hparse, hreply]
        rw [hassign, afterLine, hreply]
        rfl

theorem afterLines_append (before rest : List String) :
    afterLines table (before ++ rest) = afterLines (afterLines table before) rest :=
  List.foldl_append

theorem history_append (before rest : List String) :
    history table (before ++ rest) =
      history table before ++ history (afterLines table before) rest := by
  induction before generalizing table with
  | nil => rfl
  | cons source before ih =>
      rw [List.cons_append, history, history, ih, List.append_assoc]
      rfl

theorem afterLines_eq_insertMany (sources : List String) :
    afterLines table sources = table.insertMany (history table sources) := by
  induction sources generalizing table with
  | nil => rfl
  | cons source rest ih =>
      have hrest : afterLines table (source :: rest) = afterLines (afterLine table source) rest := rfl
      rw [hrest, ih, history, SymbolTable.insertMany_append, ← afterLine_eq_insertMany]

/-- A line that leaves nothing can be erased. -/
theorem erase_line {before rest : List String} (h : LeavesNothing (afterLines table before) source) :
    afterLines table (before ++ source :: rest) = afterLines table (before ++ rest) ∧
      history table (before ++ source :: rest) = history table (before ++ rest) := by
  have hnone := h.assignment?_eq_none
  have hsame : afterLine (afterLines table before) source = afterLines table before := by
    rw [afterLine_eq_insertMany, hnone]
    rfl
  constructor
  · rw [afterLines_append, afterLines_append]
    change afterLines (afterLine _ source) rest = _
    rw [hsame]
  · rw [history_append, history_append, history, hnone, hsame]
    rfl

/-- A session binds the names that its history says: new ones come behind the old ones in the order of
their first assignments, and each has the number of its last one. A line that leaves nothing can be
erased, and the table and the history are the same. -/
theorem session_history (ht : table.Distinct) (sources : List String) :
    (afterLines table sources).Distinct ∧
    (afterLines table sources).names = table.names ++
      (((history table sources).map Prod.fst).filter (· ∉ table.names)).eraseDups ∧
    (∀ name, (afterLines table sources).get? name =
      ((history table sources).reverse.lookup name).or (table.get? name)) ∧
    (∀ before source rest, sources = before ++ source :: rest →
      LeavesNothing (afterLines table before) source →
      afterLines table sources = afterLines table (before ++ rest) ∧
        history table sources = history table (before ++ rest)) := by
  refine ⟨?_, ?_, fun name => ?_, ?_⟩
  · rw [afterLines_eq_insertMany]
    exact ht.insertMany _
  · rw [afterLines_eq_insertMany]
    exact SymbolTable.names_insertMany _ _
  · rw [afterLines_eq_insertMany]
    exact SymbolTable.get?_insertMany _ _ name
  · rintro before source rest rfl h
    exact erase_line h

/-- A name that is new, a name that is bound again, and lines that leave nothing. -/
theorem session_history_rebound :
    let table : SymbolTable := ⟨[("a", .integer 1), ("b", .integer 2)]⟩
    let sources := ["c = a + b", "", "b = c * c", "c + 1", "d = e", "c = b \\ 2", "c = b / 2"]
    table.Distinct ∧
      (afterLines table sources).names = ["a", "b", "c"] ∧
      history table sources = [("c", .integer 3), ("b", .integer 9), ("c", .rational ⟨9, 2⟩)] ∧
      (afterLines table sources).get? "c" = some (.rational ⟨9, 2⟩) := by
  intro table sources
  have ht : table.Distinct := by decide
  have hhistory : history table sources =
      [("c", .integer 3), ("b", .integer 9), ("c", .rational ⟨9, 2⟩)] := by decide +kernel
  obtain ⟨-, hnames, hget, -⟩ := session_history ht sources
  refine ⟨ht, ?_, hhistory, ?_⟩
  · rw [hnames, hhistory]
    decide
  · rw [hget, hhistory]
    decide

end LineCalc.Session
