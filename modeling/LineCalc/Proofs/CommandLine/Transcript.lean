import LineCalc.CommandLine.Transcript
import LineCalc.Proofs.CommandLine.Options
import LineCalc.Proofs.CommandLine.Source

/-!
# What decides a transcript

A transcript comes from what is asked for and from the lines of a source, and sessions do not tell lines
from the same lines. So it makes no difference whether a text is given on the standard input or in a
file.
-/

namespace LineCalc.CommandLine

/-- The same is asked for, wherever the script is. -/
structure Options.SameRequest (o p : Options) : Prop where
  tests : o.has .tests = p.has .tests
  symbols : o.has .symbols = p.has .symbols
  yFirst : o.has .yFirst = p.has .yFirst
  plots : o.plots = p.plots

theorem Options.sameRequest_onFile (path : String) (o : Options) : o.SameRequest (o.onFile path) where
  tests := (o.has_onFile (by decide)).symm
  symbols := (o.has_onFile (by decide)).symm
  yFirst := (o.has_onFile (by decide)).symm
  plots := rfl

namespace Transcript

variable {o p : Options} {ls ls' : List String}

theorem ofReplies_congr (h : Session.SameLines ls ls') (table : SymbolTable) :
    ofReplies (Session.replies table ls) = ofReplies (Session.replies table ls') := by
  induction h generalizing table with
  | nil => rfl
  | line hsame _ ih =>
      rw [Session.replies, Session.replies, Session.reply_congr hsame,
        Session.afterLine_congr hsame]
      exact congrArg (andThen _) (ih _)
  | blank hblank _ ih =>
      rw [Session.replies, Session.reply_of_blank hblank, Session.afterLine_of_blank hblank]
      exact ih table

theorem ofLines_congr (h : o.SameRequest p) (hlines : Session.SameLines ls ls') :
    ofLines o ls = ofLines p ls' := by
  have hplot : o.plot? = p.plot? := by rw [Options.plot?, Options.plot?, h.plots]
  have horientation : o.orientation = p.orientation := by
    rw [Options.orientation, Options.orientation, h.yFirst]
  simp only [ofLines, hplot, horientation, h.symbols, ofReplies_congr hlines,
    hlines.afterLines_eq]

variable {files files' : String → Option String} {input input' text : String}

/-- The transcript of a source is the one of the lines of its text. -/
theorem ofOptions_of_text? (htests : o.has .tests = false)
    (h : (Script.Source.ofOptions o).text? files input = some text) :
    ofOptions o files input = ofLines o (Script.lines text) := by
  obtain ⟨script, hread, hlines⟩ := Script.Source.read_eq_of_text? h
  rw [ofOptions, if_neg (by simp [htests]), hread]
  exact (ofLines_congr ⟨rfl, rfl, rfl, rfl⟩ hlines).symm

/-- Two sources of one text have the same transcript. -/
theorem ofOptions_congr (h : o.SameRequest p)
    (hfirst : (Script.Source.ofOptions o).text? files input = some text)
    (hsecond : (Script.Source.ofOptions p).text? files' input' = some text) :
    ofOptions o files input = ofOptions p files' input' := by
  cases htests : o.has .tests with
  | true =>
      rw [ofOptions, ofOptions, if_pos htests, if_pos (h.tests ▸ htests)]
  | false =>
      rw [ofOptions_of_text? htests hfirst, ofOptions_of_text? (h.tests ▸ htests) hsecond]
      exact ofLines_congr h (.refl _)

theorem ofArguments_eq {arguments : List String} (h : Options.ofArguments arguments = .ok o) :
    ofArguments arguments files input = ofOptions o files input := by
  rw [ofArguments, h]

/-- A text does the same in a file as on the standard input, wherever the arguments name the file. -/
theorem input_eq_file {arguments : List String} {path text : String}
    {files : String → Option String} (h : Options.ofArguments arguments = .ok o)
    (hcontents : o.contents = none) (hfile : files path = some text) (input : String) :
    (∀ arguments' p, Options.ofArguments arguments' = .ok p → p.has .file = true →
      p.contents = some path → o.SameRequest p →
      ofArguments arguments' files input = ofArguments arguments files text) ∧
    (o.has .file = false → path.toList.head? ≠ some '-' →
      ofArguments ("-f" :: path :: arguments) files input = ofArguments arguments files text) := by
  have hinput : (Script.Source.ofOptions o).text? files text = some text := by
    rw [Script.Source.ofOptions, hcontents]
    rfl
  have hall : ∀ arguments' p, Options.ofArguments arguments' = .ok p → p.has .file = true →
      p.contents = some path → o.SameRequest p →
      ofArguments arguments' files input = ofArguments arguments files text := by
    intro arguments' p hp hflag hpath hsame
    have hsource : (Script.Source.ofOptions p).text? files input = some text := by
      rw [Script.Source.ofOptions, hpath, hflag]
      exact hfile
    rw [ofArguments_eq h, ofArguments_eq hp]
    exact (ofOptions_congr hsame hinput hsource).symm
  refine ⟨hall, fun hflag hpath => ?_⟩
  refine hall _ _ (Options.ofArguments_onFile h ⟨hcontents, hflag⟩ hpath) ?_ rfl
    (o.sameRequest_onFile path)
  simp [Options.has, Options.onFile]

/-- A second carriage return before a line feed, a blank line in the middle, a line that cannot be read
and blank lines at the end. -/
theorem input_eq_file_returns :
    let text := "a = 1\\3\r\r\n \r\n2 +\r\na * 6\n\n\r\n"
    let files : String → Option String := fun path => if path = "lines" then some text else none
    let written : Transcript := ⟨["1\\3", "2", "a\t1\\3\tRational"],
      ["Please make sure you have the correct symbols in the query. " ++
        "(Parser error: unexpected end of input.)"], 0⟩
    ofArguments ["-s"] files text = written ∧
      ofArguments ["-sf", "lines"] files "" = written ∧
      ofArguments ["-f", "lines", "-s"] files "" = written := by
  intro text files written
  have hread : Options.ofArguments ["-s"] = .ok ⟨[.symbols], [], none⟩ := rfl
  have hfile : files "lines" = some text := rfl
  have hwritten : ofArguments ["-s"] files text = written := by decide +kernel
  obtain ⟨hall, hflag⟩ := input_eq_file hread rfl hfile ""
  refine ⟨hwritten, ?_, ?_⟩
  · rw [hall ["-sf", "lines"] ⟨[.file, .symbols], [], some "lines"⟩ rfl (by decide) rfl
      ⟨by decide, by decide, by decide, rfl⟩]
    exact hwritten
  · rw [hflag (by decide) (by decide)]
    exact hwritten

end Transcript

end LineCalc.CommandLine
