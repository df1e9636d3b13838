import LineCalc.Battery
import LineCalc.CommandLine.Script

/-!
# Transcripts

A transcript is what the program writes and how it ends. `ofArguments` is the whole program, as a
function of its arguments, the files and the standard input. The results of the lines come first,
then the points of the plot, then the list of symbols; a line that fails is reported and the session
goes on. A trap ends the program at once: what was written until then stays, and nothing comes after it.
-/

namespace LineCalc.CommandLine

/-- The lines written to each of the two outputs, and the exit code. -/
structure Transcript where
  output : List String
  errors : List String
  exitCode : UInt32
deriving DecidableEq, Repr

/-- The report of a failure. A line that could not be read gets some advice. -/
def describe (e : Failure) : String :=
  match e.kind with
  | .lex | .parse =>
    "Please make sure you have the correct symbols in the query. (" ++ e.message ++ ")"
  | _ => e.message

namespace Transcript

def empty : Transcript := ⟨[], [], 0⟩

def result (line : String) : Transcript := ⟨[line], [], 0⟩

/-- One report of a failure. The program goes on. -/
def report (e : Failure) : Transcript := ⟨[], [describe e], 0⟩

/-- The end of a program that has trapped. What the machine itself says of it is left out. -/
def aborted : Transcript := ⟨[], [], 101⟩

/-- What is written by one part of a program and then by another, which decides the exit code. The
other part is not reached if the first one ends the program. -/
def andThen (first second : Transcript) : Transcript :=
  if first.exitCode = 0 then
    ⟨first.output ++ second.output, first.errors ++ second.errors, second.exitCode⟩
  else first

def ofReply : Result Failure Session.Reply → Transcript
  | .ok r => match r.text with
    | some text => result text
    | none => empty
  | .error e => report e
  | .trap => aborted

def ofReplies (replies : List (Result Failure Session.Reply)) : Transcript :=
  replies.foldr (fun r rest => (ofReply r).andThen rest) empty

/-- The points of a plot, or why there are none. -/
def ofPlot (table : SymbolTable) (orientation : Plot.Orientation) (plot : String × String) :
    Transcript :=
  match Plot.sweep table plot.1 plot.2 Plot.defaultStart Plot.defaultStop orientation with
  | .ok points => ⟨points.map fun p => Binary64.text p.1 ++ "\t" ++ Binary64.text p.2, [], 0⟩
  | .error e => report e
  | .trap => aborted

/-- The bindings of a table, with their kinds. -/
def ofSymbols (table : SymbolTable) : Transcript :=
  ⟨table.entries.map fun b => b.1 ++ "\t" ++ b.2.text ++ "\t" ++ b.2.typeName, [], 0⟩

/-- A session over some lines, and what is asked for after it. -/
def ofLines (o : Options) (lines : List String) : Transcript :=
  let table := Session.afterLines ∅ lines
  let session := ofReplies (Session.replies ∅ lines)
  let plot := (o.plot?.map (ofPlot table o.orientation)).getD empty
  let symbols := if o.has .symbols then ofSymbols table else empty
  session.andThen (plot.andThen symbols)

/-- The report of a self-test, which fails if a case does. -/
def ofBattery (r : Battery.Report) : Transcript where
  output := [toString r.passed ++ "/" ++ toString r.total ++ " tests passed"]
  errors := r.failures.map fun o => "FAILED: " ++ o.label
  exitCode := if r.passed = r.total then 0 else 1

/-- What the program does with valid options. -/
def ofOptions (o : Options) (files : String → Option String) (input : String) : Transcript :=
  if o.has .tests then ((Battery.Report.ofCases? Battery.builtin).map ofBattery).getD aborted
  else
    match (Script.Source.ofOptions o).read files input with
    | .ok script => ofLines o (Script.lines script)
    | .error path =>
      let report := s!"Failed to read the input file '{path}'. Perhaps this file does not exist?"
      ⟨[], [report], 1⟩

def ofArguments (arguments : List String) (files : String → Option String) (input : String) :
    Transcript :=
  match Options.ofArguments arguments with
  | .ok o => ofOptions o files input
  | .error e => ⟨[], [e.message], 2⟩

end Transcript

end LineCalc.CommandLine
