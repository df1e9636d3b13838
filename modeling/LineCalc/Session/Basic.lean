import LineCalc.Statement

/-!
# Sessions

A session is a table and the lines that are entered against it, one after the other. A line that
fails or traps changes nothing, and neither does a blank one.
-/

namespace LineCalc.Session

/-- What a line gives back: its value, which a blank line lacks, and the table after it. -/
structure Reply where
  value : Option Number
  table : SymbolTable
deriving DecidableEq

/-- The value of a reply in digits. -/
def Reply.text (r : Reply) : Option String := r.value.map Number.text

/-- The reply to a line. -/
def reply (table : SymbolTable) (source : String) : Result Failure Reply := do
  match ← .ofExcept ((Token.ofLine source).mapError .lex) with
  | [] => return ⟨none, table⟩
  | tokens =>
    let statement ← .ofExcept ((Statement.ofTokens tokens).mapError .parse)
    let evaluation ← (statement.run table).mapError .eval
    return ⟨some evaluation.value, table.merge evaluation.delta⟩

/-- What can happen to the table of a session. -/
inductive Action where
  | line (source : String)
  | merge (delta : SymbolTable)
  | clear
deriving DecidableEq

/-- The table after a line. -/
def afterLine (table : SymbolTable) (source : String) : SymbolTable :=
  match reply table source with
  | .ok r => r.table
  | _ => table

/-- The table after an action. -/
def after (table : SymbolTable) : Action → SymbolTable
  | .line source => afterLine table source
  | .merge delta => table.merge delta
  | .clear => ∅

/-- The replies to some lines in order. -/
def replies (table : SymbolTable) : List String → List (Result Failure Reply)
  | [] => []
  | source :: rest => reply table source :: replies (afterLine table source) rest

/-- The table after some lines. -/
def afterLines (table : SymbolTable) (sources : List String) : SymbolTable :=
  sources.foldl afterLine table

end LineCalc.Session
