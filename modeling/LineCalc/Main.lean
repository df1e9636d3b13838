import LineCalc.CommandLine.Transcript

/-!
# The command line

Reads what the arguments ask for, and writes the transcript of the program.
-/

namespace LineCalc.CommandLine

/-- The lines of a stream up to the first that is no text. -/
partial def readLines (stream : IO.FS.Stream) (begun : String) : IO String := do
  let line ← try stream.getLine catch _ => pure ""
  if line.isEmpty then return begun
  readLines stream (begun ++ line)

/-- The text of a file that can be read. -/
def readText? (path : String) : IO (Option String) := do
  try
    return some (← IO.FS.readFile path)
  catch _ =>
    return none

/-- The transcript of the program, for which only the source of its script is read. -/
def transcript (arguments : List String) : IO Transcript := do
  let unread := Transcript.ofArguments arguments (fun _ => none) ""
  match Options.ofArguments arguments with
  | .error _ => return unread
  | .ok o =>
    if o.has .tests then return unread
    match Script.Source.ofOptions o with
    | .argument _ => return unread
    | .file path =>
      let text ← readText? path
      return .ofArguments arguments (fun _ => text) ""
    | .input =>
      let input ← readLines (← IO.getStdin) ""
      return .ofArguments arguments (fun _ => none) input

end LineCalc.CommandLine

/-- Runs the program. -/
def main (arguments : List String) : IO UInt32 := do
  let t ← LineCalc.CommandLine.transcript arguments
  for line in t.errors do
    IO.eprintln line
  for line in t.output do
    IO.println line
  return t.exitCode
