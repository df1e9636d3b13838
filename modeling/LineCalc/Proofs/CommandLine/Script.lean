import LineCalc.CommandLine.Script

/-!
# The lines of a text

A text of lines with a line feed between any two has these lines again, but a carriage return at the end
of a line is taken for a part of the line end, and an empty last line is gone.
-/

namespace LineCalc.CommandLine.Script

/-- The line without a carriage return at its end. -/
def chomp : List Char → List Char
  | [] => []
  | ['\r'] => []
  | c :: cs => c :: chomp cs

theorem exists_chomp_append (cs : List Char) :
    ∃ ws, (∀ c ∈ ws, c = '\r') ∧ chomp cs ++ ws = cs := by
  fun_induction chomp cs with
  | case1 => exact ⟨[], nofun, rfl⟩
  | case2 => exact ⟨['\r'], fun c hc => List.mem_singleton.mp hc, rfl⟩
  | case3 c cs _ ih =>
      obtain ⟨ws, hws, happend⟩ := ih
      exact ⟨ws, hws, congrArg (c :: ·) happend⟩

/-! ## One line -/

/-- A character that ends no line is read as part of one. -/
theorem linesFrom_cons {c : Char} {cs : List Char} (hc : c ≠ '\n')
    (hreturn : c = '\r' → cs.head? ≠ some '\n') (begun : List Char) :
    linesFrom begun (c :: cs) = linesFrom (c :: begun) cs := by
  rw [linesFrom]
  · exact hc
  · rintro rest rfl rfl
    exact hreturn rfl rfl

theorem head?_ne_newline {line : List Char} (h : '\n' ∉ line) : line.head? ≠ some '\n' :=
  fun hhead => h (List.mem_of_mem_head? hhead)

theorem linesFrom_append {line : List Char} (h : '\n' ∉ line) (begun rest : List Char) :
    linesFrom begun (line ++ '\n' :: rest) = (begun.reverse ++ chomp line) :: linesFrom [] rest := by
  fun_induction chomp line generalizing begun with
  | case1 => rw [List.append_nil]; rfl
  | case2 => rw [List.append_nil]; rfl
  | case3 c cs hlast ih =>
      obtain ⟨hc, hcs⟩ := not_or.mp (mt List.mem_cons.mpr h)
      -- The carriage return before the line feed is the last character, and this is another one.
      have hreturn : c = '\r' → (cs ++ '\n' :: rest).head? ≠ some '\n' := by
        intro hc
        cases cs with
        | nil => exact absurd rfl (hlast hc)
        | cons d cs =>
            have hd := head?_ne_newline hcs
            exact hd
      rw [List.cons_append, linesFrom_cons (Ne.symm hc) hreturn, ih hcs, List.reverse_cons,
        List.append_assoc, List.singleton_append]

theorem linesFrom_of_not_mem {line : List Char} (h : '\n' ∉ line) (begun : List Char) :
    linesFrom begun line =
      if begun.reverse ++ line = [] then [] else [begun.reverse ++ line] := by
  induction line generalizing begun with
  | nil => cases begun <;> simp [linesFrom]
  | cons c line ih =>
      obtain ⟨hc, hline⟩ := not_or.mp (mt List.mem_cons.mpr h)
      rw [linesFrom_cons (Ne.symm hc) fun _ => head?_ne_newline hline, ih hline]
      simp

/-! ## Texts -/

theorem newline_not_mem_linesFrom {begun : List Char} (h : '\n' ∉ begun) (cs : List Char) :
    ∀ line ∈ linesFrom begun cs, '\n' ∉ line := by
  fun_induction linesFrom begun cs with
  | case1 => exact nofun
  | case2 begun => simpa using h
  | case3 begun cs ih => simpa [h] using ih
  | case4 begun cs ih => simpa [h] using ih
  | case5 begun c cs hc _ ih =>
      exact ih (mt List.mem_cons.mp (not_or.mpr ⟨Ne.symm hc, h⟩))

theorem newline_not_mem_lines (text : String) : ∀ line ∈ lines text, '\n' ∉ line.toList := by
  intro line hline
  obtain ⟨cs, hcs, rfl⟩ := List.mem_map.mp hline
  rw [String.toList_ofList]
  exact newline_not_mem_linesFrom List.not_mem_nil _ cs hcs

theorem lines_of_not_mem {line : String} (h : '\n' ∉ line.toList) :
    lines line = if line = "" then [] else [line] := by
  rw [lines, linesFrom_of_not_mem h]
  by_cases hempty : line = ""
  · subst hempty
    rfl
  · rw [if_neg hempty, List.reverse_nil, List.nil_append,
      if_neg (mt String.toList_eq_nil_iff.mp hempty), List.map_cons, String.ofList_toList]
    rfl

/-- A line before a line feed is the first line of a text, without a carriage return at its end. -/
theorem lines_append {line : String} (h : '\n' ∉ line.toList) (rest : String) :
    lines (line ++ "\n" ++ rest) = String.ofList (chomp line.toList) :: lines rest := by
  rw [lines, String.toList_append, String.toList_append, List.append_assoc]
  change (linesFrom [] (line.toList ++ '\n' :: rest.toList)).map String.ofList = _
  rw [linesFrom_append h]
  rfl

end LineCalc.CommandLine.Script
