import LineCalc.Session.Basic

/-!
# The self-test

A case is a line, the lines that prepare its table, and what should come of it. `builtin` is the
battery that the program runs on itself. A trap in a case ends the battery without a report.
-/

namespace LineCalc.Battery

/-- What should come of a line. -/
inductive Expected where
  | value (text : String)
  | failure (kind : Failure.Kind)
deriving DecidableEq, Repr

/-- What did come of a line; a blank line has no value. -/
inductive Actual where
  | value (text : Option String)
  | failure (kind : Failure.Kind)
deriving DecidableEq, Repr

/-- A line and what should come of it after the lines of `setup`. -/
structure Case where
  setup : List String
  input : String
  expected : Expected
deriving DecidableEq, Repr

/-- A case that has been run; the label of a failed one tells why. -/
structure Outcome where
  label : String
  passed : Bool
deriving DecidableEq, Repr

def Expected.text : Expected → String
  | .value text => text
  | .failure kind => kind.text

def Actual.text : Actual → String
  | .value (some text) => text
  | .value none => "no value"
  | .failure kind => kind.text

/-- What came of a line that did not trap. -/
def Actual.ofReply? : Result Failure Session.Reply → Option Actual
  | .ok r => some (.value r.text)
  | .error e => some (.failure e.kind)
  | .trap => none

/-- The expected result came about. -/
def Actual.meets : Actual → Expected → Bool
  | .value (some actual), .value expected => actual == expected
  | .failure actual, .failure expected => actual == expected
  | _, _ => false

/-- The table after the lines of a setup, or the first line that fails and its failure. -/
def prepare (table : SymbolTable) : List String → Result (String × Failure) SymbolTable
  | [] => .ok table
  | source :: rest => do
    let r ← (Session.reply table source).mapError fun e => (source, e)
    prepare r.table rest

namespace Case

def label (c : Case) : String := c.input ++ " => " ++ c.expected.text

/-- What came of a case, if none of its lines traps. -/
def run? (c : Case) : Option Outcome :=
  match prepare ∅ c.setup with
  | .error (source, e) =>
    some ⟨c.label ++ " (setup '" ++ source ++ "' failed: " ++ e.message ++ ")", false⟩
  | .ok table => do
    let actual ← Actual.ofReply? (Session.reply table c.input)
    if actual.meets c.expected then return ⟨c.label, true⟩
    else return ⟨c.label ++ " (got " ++ actual.text ++ ")", false⟩
  | .trap => none

end Case

/-- The outcomes of some cases, in order. -/
structure Report where
  outcomes : List Outcome
deriving DecidableEq, Repr

namespace Report

/-- Every case is run against a table of its own. There is a report if no case traps. -/
def ofCases? (cases : List Case) : Option Report := (cases.mapM Case.run?).map Report.mk

def passed (r : Report) : Nat := r.outcomes.countP Outcome.passed

def total (r : Report) : Nat := r.outcomes.length

def failures (r : Report) : List Outcome := r.outcomes.filter fun o => !o.passed

def allPassed (r : Report) : Bool := r.outcomes.all Outcome.passed

end Report

/-- A case without setup that has a value. -/
def yields (input text : String) : Case := ⟨[], input, .value text⟩

/-- A case without setup that fails. -/
def fails (input : String) (kind : Failure.Kind) : Case := ⟨[], input, .failure kind⟩

/-- The cases that the program runs on itself. -/
def builtin : List Case := [
  yields "2 + 3" "5",
  yields "7 - 10" "-3",
  yields "6 * 7" "42",
  yields "8 / 4" "2",
  yields "6 / 4" "3\\2",
  yields "2 + 3 * 4" "14",
  yields "(2 + 3) * 4" "20",
  yields "8 - 3 - 2" "3",
  yields "16 / 4 / 2" "2",
  yields "2 ^ 3 ^ 2" "512",
  yields "-2 ^ 2" "4",
  yields "-(2 + 3)" "-5",
  yields "2 ^ -2" "1\\4",
  yields "6\\4" "3\\2",
  yields "2\\3 + 1\\3" "1",
  yields "1\\3 + 1\\3" "2\\3",
  yields "1\\2 * 4" "2",
  yields "1\\2 + 0.5" "1",
  yields "1.5 + 1" "2.5",
  yields "4 ^ 0.5" "2",
  yields "x = 5" "5",
  ⟨["x = 5"], "x * 2", .value "10"⟩,
  ⟨["x = 3", "y = 4"], "x = x + y", .value "7"⟩,
  fails "2 $ 3" .lex,
  fails "2 + " .parse,
  fails "- - 2" .parse,
  fails "(1 + 2" .parse,
  fails "x + 1" .unbound,
  fails "1 / 0" .divisionByZero,
  fails "1 / 0.0" .divisionByZero,
  fails "1\\0" .divisionByZero,
  fails "1.2.3" .parse,
  fails "9223372036854775807 + 1" .overflow,
  fails "99999999999999999999" .overflow]

end LineCalc.Battery
