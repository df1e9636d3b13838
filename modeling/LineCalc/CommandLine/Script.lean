import LineCalc.CommandLine.Options

/-!
# Scripts

A script is a text of lines. A line ends with a line feed, or with a carriage return and a line
feed; text after the last line end is a line too, and keeps a carriage return at its end.
-/

namespace LineCalc.CommandLine.Script

/-- The lines of a text that goes on a line of which `begun` has been read, last character first. -/
def linesFrom (begun : List Char) : List Char → List (List Char)
  | [] => if begun.isEmpty then [] else [begun.reverse]
  | '\n' :: cs => begun.reverse :: linesFrom [] cs
  | '\r' :: '\n' :: cs => begun.reverse :: linesFrom [] cs
  | c :: cs => linesFrom (c :: begun) cs

/-- The lines of a text, without their ends. -/
def lines (text : String) : List String :=
  (linesFrom [] text.toList).map String.ofList

/-- Where a script comes from. -/
inductive Source where
  | argument (text : String)
  | file (path : String)
  | input
deriving DecidableEq, Repr

namespace Source

/-- The argument left over is the script or names its file; without one it is the standard input,
even if a file was asked for. -/
def ofOptions (o : Options) : Source :=
  match o.contents with
  | some contents => if o.has .file then .file contents else .argument contents
  | none => .input

/-- The script, where `files` gives the texts of the files that can be read. The standard input is
taken line by line, with a line feed between two lines. -/
def read (files : String → Option String) (input : String) : Source → Except String String
  | .argument text => .ok text
  | .file path =>
    match files path with
    | some text => .ok text
    | none => .error path
  | .input => .ok (String.intercalate "\n" (lines input))

end Source

end LineCalc.CommandLine.Script
