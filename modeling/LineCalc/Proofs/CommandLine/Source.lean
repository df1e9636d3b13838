import LineCalc.Proofs.CommandLine.Script
import LineCalc.Proofs.Session.Pruning

/-!
# The lines of a source

The standard input is taken apart into lines, put together again and taken apart a second time. What is
lost on the way is a carriage return at the end of a line and an empty last line, which no session tells
from the lines of the text itself.
-/

namespace LineCalc.CommandLine.Script

theorem ofLine_chomp (line : String) :
    Token.ofLine line = Token.ofLine (String.ofList (chomp line.toList)) := by
  obtain ⟨ws, hws, happend⟩ := exists_chomp_append line.toList
  have hblank : ∀ c ∈ ws, Token.isBlank c = true := by
    intro c hc
    rw [hws c hc]
    rfl
  rw [Token.ofLine, Token.ofLine, String.toList_ofList,
    ← Token.scan_append_blanks hblank 0 (chomp line.toList), happend]

/-- Lines that are put together with line feeds between them are found again. -/
theorem sameLines_lines_intercalate {ls : List String} (h : ∀ line ∈ ls, '\n' ∉ line.toList) :
    Session.SameLines ls (lines (String.intercalate "\n" ls)) := by
  induction ls with
  | nil => exact .nil
  | cons line rest ih =>
      have hline := h line List.mem_cons_self
      have hrest := ih fun other hother => h other (List.mem_cons_of_mem _ hother)
      cases rest with
      | nil =>
          rw [String.intercalate_singleton, lines_of_not_mem hline]
          split
          · rename_i hempty
            subst hempty
            have hblank : Token.scan 0 [] = .ok [] := Token.scan_of_blank (List.forall_mem_nil _) 0
            exact .blank hblank .nil
          · exact .line rfl .nil
      | cons next rest =>
          rw [String.intercalate_cons_cons, lines_append hline]
          exact .line (ofLine_chomp line) hrest

namespace Source

/-- The text that a source holds, if there is one. -/
def text? (files : String → Option String) (input : String) : Source → Option String
  | .argument text => some text
  | .file path => files path
  | .input => some input

variable {files : String → Option String} {input : String}

theorem read_eq_of_text? {source : Source} {text : String} (h : source.text? files input = some text) :
    ∃ script, source.read files input = .ok script ∧
      Session.SameLines (lines text) (lines script) := by
  cases source with
  | argument text =>
      cases h
      exact ⟨text, rfl, .refl _⟩
  | file path =>
      have hfile : files path = some text := h
      exact ⟨text, by rw [read, hfile], .refl _⟩
  | input =>
      cases h
      exact ⟨_, rfl, sameLines_lines_intercalate (newline_not_mem_lines _)⟩

end Source

end LineCalc.CommandLine.Script
