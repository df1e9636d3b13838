import LineCalc.Proofs.CommandLine.Transcript
import LineCalc.Proofs.Session.Pruning
import LineCalc.Proofs.Session.WellFormed

/-!
# Scripts without failures

The results of a session are the texts of its replies, and its reports are their failures. So the script
of the lines that have a value, alone, writes the same results and the same plot and symbols, and
reports only why there is no plot. Unless a line traps: that ends the program with an exit code of its
own, while the lines that have a value go on to the plot.
-/

namespace LineCalc.CommandLine

/-- Why the plot that is asked for cannot be made. -/
def Options.plotFailure? (o : Options) (table : SymbolTable) : Option Failure := do
  let plot ← o.plot?
  match Plot.sweep table plot.1 plot.2 Plot.defaultStart Plot.defaultStop o.orientation with
  | .error e => some e
  | _ => none

namespace Transcript

/-- The texts of the values of some lines. -/
def results (replies : List (Result Failure Session.Reply)) : List String :=
  replies.flatMap fun
    | .ok r => r.text.toList
    | _ => []

/-- The reports of the lines that fail. -/
def reports (replies : List (Result Failure Session.Reply)) : List String :=
  replies.flatMap fun
    | .error e => [describe e]
    | _ => []

/-- The plot and the symbols, as far as they are asked for. -/
def extras (o : Options) (table : SymbolTable) : Transcript :=
  ((o.plot?.map (ofPlot table o.orientation)).getD empty).andThen
    (if o.has .symbols then ofSymbols table else empty)

variable {o p : Options} {ls : List String} {replies : List (Result Failure Session.Reply)}

theorem ofLines_eq (o : Options) (ls : List String) :
    ofLines o ls =
      (ofReplies (Session.replies ∅ ls)).andThen (extras o (Session.afterLines ∅ ls)) := rfl

theorem errors_extras (o : Options) (table : SymbolTable) :
    (extras o table).errors = (o.plotFailure? table).toList.map describe := by
  have hsymbols : (if o.has .symbols then ofSymbols table else empty).errors = [] := by
    split <;> rfl
  rw [extras, Options.plotFailure?]
  cases o.plot? with
  | none => exact hsymbols
  | some plot =>
      rw [Option.map_some, Option.getD_some, ofPlot, Option.bind_eq_bind, Option.bind_some]
      cases Plot.sweep table plot.1 plot.2 Plot.defaultStart Plot.defaultStop o.orientation with
      | ok points => exact hsymbols
      | error e => exact congrArg (describe e :: ·) hsymbols
      | trap => rfl

/-! ## Replies -/

/-- What is written for some replies comes from those before the first trap, and the trap decides the
exit code. -/
theorem ofReplies_eq (replies : List (Result Failure Session.Reply)) :
    ofReplies replies = ⟨results (Session.untilTrap replies), reports (Session.untilTrap replies),
      if .trap ∈ replies then 101 else 0⟩ := by
  induction replies with
  | nil => rfl
  | cons r replies ih =>
      change (ofReply r).andThen (ofReplies replies) = _
      rw [ih]
      rcases r with ⟨_ | value, table⟩ | e | _
      · rw [Session.untilTrap_cons (by simp)]
        simp [andThen, ofReply, Session.Reply.text, results, reports, empty]
      · rw [Session.untilTrap_cons (by simp)]
        simp [andThen, ofReply, Session.Reply.text, results, reports, result]
      · rw [Session.untilTrap_cons (by simp)]
        simp [andThen, ofReply, results, reports, report]
      · simp [andThen, ofReply, results, reports, aborted, Session.untilTrap]

theorem ofReplies_of_no_trap (h : .trap ∉ replies) :
    ofReplies replies = ⟨results replies, reports replies, 0⟩ := by
  rw [ofReplies_eq, Session.untilTrap_eq_self h, if_neg h]

/-- Replies without a value write nothing. -/
theorem results_filter (replies : List (Result Failure Session.Reply)) :
    results (replies.filter Session.answered) = results replies := by
  induction replies with
  | nil => rfl
  | cons r replies ih =>
      rcases r with ⟨_ | value, table⟩ | e | _
      · exact ih
      · exact congrArg (value.text :: ·) ih
      · exact ih
      · exact ih

theorem reports_filter (replies : List (Result Failure Session.Reply)) :
    reports (replies.filter Session.answered) = [] := by
  refine List.flatMap_eq_nil_iff.mpr fun r hr => ?_
  obtain ⟨value, table, rfl⟩ := Session.exists_of_answered (List.mem_filter.mp hr).2
  rfl

/-! ## Scripts -/

theorem ofLines_of_no_trap (o : Options) (h : .trap ∉ Session.replies ∅ ls) :
    ofLines o ls =
      andThen ⟨results (Session.replies ∅ ls), reports (Session.replies ∅ ls), 0⟩
        (extras o (Session.afterLines ∅ ls)) := by
  rw [ofLines_eq, ofReplies_of_no_trap h]

/-- A trap ends the program before the plot and the symbols. -/
theorem ofLines_of_trap (o : Options) (h : .trap ∈ Session.replies ∅ ls) :
    ofLines o ls = ⟨results (Session.untilTrap (Session.replies ∅ ls)),
      reports (Session.untilTrap (Session.replies ∅ ls)), 101⟩ := by
  rw [ofLines_eq, ofReplies_eq, if_pos h]
  rfl

/-- A session of the lines that have a value has the results before the first trap, and reports nothing of
its own. -/
theorem ofLines_productive (o : Options) (ls : List String) :
    ofLines o (Session.productive ∅ ls) =
      andThen ⟨results (Session.untilTrap (Session.replies ∅ ls)), [], 0⟩
        (extras o (Session.afterLines ∅ (Session.productive ∅ ls))) := by
  rw [ofLines_of_no_trap o (Session.trap_notMem_replies_productive ls), Session.replies_productive,
    results_filter, reports_filter]

theorem sameLines_productive {script pruned : String}
    (h : Script.lines pruned = Session.productive ∅ (Script.lines script) ∨
      pruned = String.intercalate "\n" (Session.productive ∅ (Script.lines script))) :
    Session.SameLines (Session.productive ∅ (Script.lines script)) (Script.lines pruned) := by
  rcases h with h | rfl
  · rw [h]
    exact .refl _
  · exact Script.sameLines_lines_intercalate fun line hline =>
      Script.newline_not_mem_lines script line ((Session.productive_sublist _).subset hline)

variable {files files' : String → Option String} {input input' : String}

/-- The lines that have a value when their turn comes make up a script, as they are or with line feeds
between them. Given to the program in place of the whole script, each has a value again. If no line of
the whole script traps, the program writes the same output and ends in the same way. A line that traps
ends the program at once, with the results until then; it traps at a quotient of zero by a fraction with
the least word above. -/
theorem ofArguments_pruned {arguments arguments' : List String} {script pruned : String}
    (ho : Options.ofArguments arguments = .ok o) (hp : Options.ofArguments arguments' = .ok p)
    (hsame : o.SameRequest p) (htests : o.has .tests = false)
    (hscript : (Script.Source.ofOptions o).text? files input = some script)
    (hpruned : (Script.Source.ofOptions p).text? files' input' = some pruned)
    (hkept : Script.lines pruned = Session.productive ∅ (Script.lines script) ∨
      pruned = String.intercalate "\n" (Session.productive ∅ (Script.lines script))) :
    let whole := ofArguments arguments files input
    let rest := ofArguments arguments' files' input'
    let table := Session.afterLines ∅ (Script.lines script)
    (∀ r ∈ Session.replies ∅ (Script.lines pruned), ∃ value after, r = .ok ⟨some value, after⟩) ∧
      (.trap ∉ Session.replies ∅ (Script.lines script) →
        rest.output = whole.output ∧ rest.exitCode = whole.exitCode ∧
          Session.afterLines ∅ (Script.lines pruned) = table ∧
          whole.errors = reports (Session.replies ∅ (Script.lines script)) ++ rest.errors ∧
          rest.errors = (o.plotFailure? table).toList.map describe) ∧
      ∀ before line after, Script.lines script = before ++ line :: after →
        Session.reply (Session.afterLines ∅ before) line = .trap →
        whole.exitCode = 101 ∧ whole.output <+: rest.output ∧
          ∃ statement, Session.statement? line = some statement ∧
            statement.body.TrapsIn (Session.afterLines ∅ before) := by
  intro whole rest table
  have hlines := sameLines_productive hkept
  have hwhole : whole = ofLines o (Script.lines script) :=
    (ofArguments_eq ho).trans (ofOptions_of_text? htests hscript)
  have hrest : rest = ofLines o (Session.productive ∅ (Script.lines script)) := by
    rw [ofLines_congr hsame hlines]
    exact (ofArguments_eq hp).trans (ofOptions_of_text? (hsame.tests ▸ htests) hpruned)
  rw [ofLines_productive] at hrest
  refine ⟨fun r hr => ?_, fun hnotrap => ?_, fun before line after hsplit htrap => ?_⟩
  · have hmem := (hlines.replies_sublist ∅).subset hr
    rw [Session.replies_productive] at hmem
    exact Session.exists_of_answered (List.mem_filter.mp hmem).2
  · rw [ofLines_of_no_trap o hnotrap] at hwhole
    rw [Session.untilTrap_eq_self hnotrap, Session.afterLines_productive hnotrap] at hrest
    rw [hwhole, hrest, ← hlines.afterLines_eq, Session.afterLines_productive hnotrap]
    exact ⟨rfl, rfl, rfl, rfl, errors_extras o table⟩
  · have hmem : .trap ∈ Session.replies ∅ (Script.lines script) := by
      rw [hsplit, Session.replies_append, Session.replies, htrap]
      exact List.mem_append_right _ List.mem_cons_self
    have hempty : SymbolTable.WellFormed ∅ := fun b hb => absurd hb List.not_mem_nil
    have hwf := Session.afterLines_wellFormed hempty before
    rw [ofLines_of_trap o hmem] at hwhole
    rw [hwhole, hrest]
    exact ⟨rfl, List.prefix_append _ _, Session.exists_trapsIn_of_reply_eq_trap hwf htrap⟩

/-- A blank line, four lines that fail, one of them halfway through an assignment, and a plot of a name
that the session does not bind. A second script traps in the middle. -/
theorem ofArguments_pruned_unbound_plot :
    let script := "a = 2\r\na = a +\n\n1 $\na = 2 ^ 62 * a\nc\nb = a ^ 5\n"
    let pruned := "a = 2\nb = a ^ 5"
    let files : String → Option String := fun path => if path = "script" then some script else none
    let whole := ofArguments ["--plot", "c", "0", "-fs", "script"] files ""
    let rest := ofArguments ["-s", "--plot", "c", "0"] files pruned
    let quotient := "0 / (-9223372036854775807\\3 - 1\\3)"
    let trapping := "a = 2\n" ++ quotient ++ "\na"
    Session.productive ∅ (Script.lines script) = ["a = 2", "b = a ^ 5"] ∧
      .trap ∉ Session.replies ∅ (Script.lines script) ∧
      rest.output = ["2", "32", "a\t2\tInteger", "b\t32\tInteger"] ∧
      rest.errors = ["Unbound variable 'c'."] ∧
      whole.output = rest.output ∧ whole.exitCode = rest.exitCode ∧
      whole.errors = reports (Session.replies ∅ (Script.lines script)) ++ rest.errors ∧
      Session.reply (Session.afterLines ∅ ["a = 2"]) quotient = .trap ∧
      (ofArguments [trapping] files "").exitCode = 101 ∧
      (ofArguments [trapping] files "").output <+: (ofArguments ["a = 2"] files "").output := by
  intro script pruned files whole rest quotient trapping
  have hkept : Session.productive ∅ (Script.lines script) = ["a = 2", "b = a ^ 5"] := by
    decide +kernel
  have ho : Options.ofArguments ["--plot", "c", "0", "-fs", "script"] =
      .ok ⟨[.symbols, .file], [("c", "0")], some "script"⟩ := rfl
  have hp : Options.ofArguments ["-s", "--plot", "c", "0"] =
      .ok ⟨[.symbols], [("c", "0")], none⟩ := rfl
  have hscript : (Script.Source.file "script").text? files "" = some script := rfl
  have hinput : Script.Source.input.text? files pruned = some pruned := rfl
  have hpruned : pruned = String.intercalate "\n" (Session.productive ∅ (Script.lines script)) := by
    rw [hkept]
    decide +kernel
  have hnotrap : .trap ∉ Session.replies ∅ (Script.lines script) := by decide +kernel
  obtain ⟨-, hwithout, -⟩ := ofArguments_pruned ho hp
    ⟨by decide, by decide, by decide, rfl⟩ (by decide) hscript hinput (.inr hpruned)
  obtain ⟨houtput, hcode, -, herrors, -⟩ := hwithout hnotrap
  have htrapping : Options.ofArguments [trapping] = .ok ⟨[], [], some trapping⟩ := by decide +kernel
  have hfirst : Options.ofArguments ["a = 2"] = .ok ⟨[], [], some "a = 2"⟩ := by decide +kernel
  have htext : (Script.Source.argument trapping).text? files "" = some trapping := rfl
  have htext' : (Script.Source.argument "a = 2").text? files "" = some "a = 2" := rfl
  have htrap : Session.reply (Session.afterLines ∅ ["a = 2"]) quotient = .trap := by decide +kernel
  obtain ⟨-, -, hwith⟩ := ofArguments_pruned htrapping hfirst ⟨rfl, rfl, rfl, rfl⟩ rfl htext htext'
    (.inl (by decide +kernel))
  obtain ⟨hcode', hprefix, -⟩ := hwith ["a = 2"] quotient ["a"] (by decide +kernel) htrap
  exact ⟨hkept, hnotrap, by decide +kernel, by decide +kernel, houtput.symm, hcode.symm, herrors, htrap,
    hcode', hprefix⟩

/-- A quotient of zero traps, so that its line has no value. Without the line the program ends in another
way. -/
theorem ofArguments_aborted_at_zero :
    let script := "a = 2\n0 / (-9223372036854775807\\3 - 1\\3)"
    let files : String → Option String := fun _ => none
    Script.lines "a = 2" = Session.productive ∅ (Script.lines script) ∧
      ofArguments ["-s", script] files "" = ⟨["2"], [], 101⟩ ∧
      ofArguments ["-s", "a = 2"] files "" = ⟨["2", "a\t2\tInteger"], [], 0⟩ := by
  refine ⟨?_, ?_, ?_⟩ <;> decide +kernel

end Transcript

end LineCalc.CommandLine
