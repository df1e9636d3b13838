import LineCalc.Proofs.Session.Reply
import LineCalc.Proofs.Token.Blank

/-!
# Lines that make no difference

A line is known to a session by its tokens. So blanks at its end make no difference to its reply, and a
blank line makes none to the table.

A line that fails leaves the table as it was too. So a session without such lines keeps in step with the
whole one: each line that is left gets the reply that it had. Where a line traps, no line after it has
its turn.
-/

namespace LineCalc.Session

variable {table : SymbolTable} {p q : String} {ps qs : List String}

theorem reply_congr (h : Token.ofLine p = Token.ofLine q) : reply table p = reply table q := by
  rw [reply, reply, h]

theorem afterLine_congr (h : Token.ofLine p = Token.ofLine q) :
    afterLine table p = afterLine table q := by
  rw [afterLine, afterLine, reply_congr h]

theorem afterLine_of_blank (h : Token.ofLine p = .ok []) : afterLine table p = table := by
  rw [afterLine, reply_of_blank h]

/-- The same lines but for the blanks in them, and for lines of the first that are blank. -/
inductive SameLines : List String → List String → Prop
  | nil : SameLines [] []
  | line {p q : String} {ps qs : List String} :
      Token.ofLine p = Token.ofLine q → SameLines ps qs → SameLines (p :: ps) (q :: qs)
  | blank {p : String} {ps qs : List String} :
      Token.ofLine p = .ok [] → SameLines ps qs → SameLines (p :: ps) qs

namespace SameLines

theorem refl (ps : List String) : SameLines ps ps := by
  induction ps with
  | nil => exact .nil
  | cons p ps ih => exact .line rfl ih

theorem afterLines_eq (h : SameLines ps qs) (table : SymbolTable) :
    afterLines table ps = afterLines table qs := by
  induction h generalizing table with
  | nil => rfl
  | @line p q ps qs hsame _ ih =>
      change afterLines (afterLine table p) ps = afterLines (afterLine table q) qs
      rw [afterLine_congr hsame, ih]
  | @blank p ps qs hblank _ ih =>
      change afterLines (afterLine table p) ps = _
      rw [afterLine_of_blank hblank, ih]

/-- Only replies to blank lines are missing. -/
theorem replies_sublist (h : SameLines ps qs) (table : SymbolTable) :
    (replies table qs).Sublist (replies table ps) := by
  induction h generalizing table with
  | nil => exact .slnil
  | line hsame _ ih =>
      rw [replies, replies, reply_congr hsame, afterLine_congr hsame]
      exact (ih _).cons_cons _
  | blank hblank _ ih =>
      rw [replies, afterLine_of_blank hblank]
      exact (ih table).cons _

end SameLines

/-! ## Lines without a value -/

/-- A line gave back a value. -/
def answered : Result Failure Reply → Bool
  | .ok r => r.value.isSome
  | _ => false

/-- The replies before the first line that traps. -/
def untilTrap (replies : List (Result Failure Reply)) : List (Result Failure Reply) :=
  replies.takeWhile (· ≠ .trap)

/-- The lines that have a value when their turn comes. -/
def productive (table : SymbolTable) : List String → List String
  | [] => []
  | source :: rest =>
    if reply table source = .trap then []
    else
      let kept := productive (afterLine table source) rest
      if answered (reply table source) then source :: kept else kept

variable {table : SymbolTable} {source : String} {r : Result Failure Reply}
  {rs : List (Result Failure Reply)}

theorem exists_of_answered (h : answered r = true) :
    ∃ value table, r = .ok ⟨some value, table⟩ := by
  rcases r with ⟨_ | value, table⟩ | e | _
  · cases h
  · exact ⟨value, table, rfl⟩
  · cases h
  · cases h

theorem untilTrap_cons (h : r ≠ .trap) : untilTrap (r :: rs) = r :: untilTrap rs :=
  List.takeWhile_cons_of_pos (decide_eq_true h)

theorem untilTrap_eq_self (h : .trap ∉ rs) : untilTrap rs = rs := by
  refine List.takeWhile_eq_self_iff.mpr fun r hr => decide_eq_true ?_
  rintro rfl
  exact h hr

theorem replies_append (before rest : List String) :
    replies table (before ++ rest) =
      replies table before ++ replies (afterLines table before) rest := by
  induction before generalizing table with
  | nil => rfl
  | cons source before ih => exact congrArg (reply table source :: ·) ih

/-- The step: a line without a value changes nothing. -/
theorem afterLine_of_not_answered (h : answered (reply table source) = false) :
    afterLine table source = table := by
  unfold afterLine
  cases hreply : reply table source with
  | error e => rfl
  | trap => rfl
  | ok r =>
      rcases reply_cases hreply with ⟨-, rfl⟩ | ⟨e, v, -, -, rfl⟩ | ⟨name, e, v, -, -, rfl⟩
      · rfl
      · rfl
      · rw [hreply] at h
        cases h

/-! ## The run -/

theorem afterLines_productive {sources : List String} (h : .trap ∉ replies table sources) :
    afterLines table (productive table sources) = afterLines table sources := by
  induction sources generalizing table with
  | nil => rfl
  | cons source rest ih =>
      obtain ⟨hfirst, hrest⟩ := List.ne_and_not_mem_of_not_mem_cons h
      change _ = afterLines (afterLine table source) rest
      rw [← ih hrest, productive, if_neg hfirst.symm]
      cases h : answered (reply table source) with
      | true => rfl
      | false => rw [afterLine_of_not_answered h]; rfl

theorem replies_productive (sources : List String) :
    replies table (productive table sources) =
      (untilTrap (replies table sources)).filter answered := by
  induction sources generalizing table with
  | nil => rfl
  | cons source rest ih =>
      rw [replies, productive]
      by_cases htrap : reply table source = .trap
      · rw [if_pos htrap, htrap]
        rfl
      rw [if_neg htrap, untilTrap_cons htrap]
      cases h : answered (reply table source) with
      | true =>
          rw [List.filter_cons_of_pos h, ← ih]
          rfl
      | false =>
          rw [List.filter_cons_of_neg (Bool.not_eq_true _ ▸ h), ← ih, afterLine_of_not_answered h]
          rfl

theorem trap_notMem_replies_productive (sources : List String) :
    .trap ∉ replies table (productive table sources) := by
  rw [replies_productive]
  intro h
  cases (List.mem_filter.mp h).2

theorem productive_sublist (sources : List String) : (productive table sources).Sublist sources := by
  induction sources generalizing table with
  | nil => exact .slnil
  | cons source rest ih =>
      rw [productive]
      split
      · exact List.nil_sublist _
      split
      · exact ih.cons_cons source
      · exact ih.cons source

end LineCalc.Session
