import LineCalc.Main
import LineCalc.Token.Editing
import LineCalc.Viability
import LineCalc.Proofs.Outcome
import LineCalc.Proofs.Word
import LineCalc.Proofs.Power
import LineCalc.Proofs.Fraction.Lowest
import LineCalc.Proofs.Fraction.Arithmetic
import LineCalc.Proofs.Fraction.Completeness
import LineCalc.Proofs.Number.Value
import LineCalc.Proofs.Number.WellFormed
import LineCalc.Proofs.Number.Tiers
import LineCalc.Proofs.Number.Text
import LineCalc.Proofs.Number.Power
import LineCalc.Proofs.Number.Product
import LineCalc.Proofs.Number.Traps
import LineCalc.Proofs.Binary64.Division
import LineCalc.Proofs.Number.Widening
import LineCalc.Proofs.Number.Collapse
import LineCalc.Proofs.Number.Canonical
import LineCalc.Proofs.Number.Commutativity
import LineCalc.Proofs.SymbolTable
import LineCalc.Proofs.SymbolTable.Merge
import LineCalc.Proofs.Token.Lexeme
import LineCalc.Proofs.Token.Munch
import LineCalc.Proofs.Token.Reading
import LineCalc.Proofs.Token.Substitution
import LineCalc.Proofs.Token.Parentheses
import LineCalc.Proofs.Token.Blank
import LineCalc.Proofs.Token.Spacing
import LineCalc.Proofs.Token.Concatenation
import LineCalc.Proofs.Expr.Levels
import LineCalc.Proofs.Expr.Soundness
import LineCalc.Proofs.Expr.Completeness
import LineCalc.Proofs.Expr.Completion
import LineCalc.Proofs.Expr.Exactness
import LineCalc.Proofs.Expr.Doubles
import LineCalc.Proofs.Expr.Substitution
import LineCalc.Proofs.Expr.Occurrence
import LineCalc.Proofs.Expr.Errors
import LineCalc.Proofs.Statement
import LineCalc.Proofs.Viability
import LineCalc.Proofs.Relocation
import LineCalc.Proofs.Session.Reply
import LineCalc.Proofs.Session.WellFormed
import LineCalc.Proofs.Session.History
import LineCalc.Proofs.Session.Substitution
import LineCalc.Proofs.Session.RoundTrip
import LineCalc.Proofs.Session.Independence
import LineCalc.Proofs.Session.Spacing
import LineCalc.Proofs.Session.Pruning
import LineCalc.Proofs.Plot.Value
import LineCalc.Proofs.Plot.Sweep
import LineCalc.Proofs.CommandLine.Script
import LineCalc.Proofs.CommandLine.Options
import LineCalc.Proofs.CommandLine.Source
import LineCalc.Proofs.CommandLine.Transcript
import LineCalc.Proofs.CommandLine.Pruning
