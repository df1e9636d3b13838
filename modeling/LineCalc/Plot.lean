import LineCalc.Statement

/-!
# Plotting straight lines

A straight line is a coefficient and a constant, each the value of an expression. Points are doubles,
whatever the kinds of the numbers, so sampling a line never fails: only its expressions fail or trap.
-/

namespace LineCalc.Plot

/-- The line of points whose height is `coefficient * x + constant`. -/
structure Line where
  coefficient : Number
  constant : Number
deriving DecidableEq

/-- The axis that the samples are on. -/
inductive Orientation where
  | sampleFirst
  | valueFirst
deriving DecidableEq, Repr

/-- The value of a text that is an expression. -/
def value (table : SymbolTable) (source : String) : Result Failure Number := do
  let tokens ← .ofExcept ((Token.ofLine source).mapError .lex)
  let e ← .ofExcept ((Expr.ofTokens tokens).mapError .parse)
  (e.eval table).mapError .eval

namespace Line

/-- The line of two expressions, the coefficient first. -/
def ofSources (table : SymbolTable) (coefficient constant : String) : Result Failure Line := do
  let k ← value table coefficient
  let c ← value table constant
  return ⟨k, c⟩

/-- The height at `x`, rounded once. -/
def height (line : Line) (x : Number) : Float :=
  Binary64.fma line.coefficient.toFloat x.toFloat line.constant.toFloat

end Line

/-- The height of a line at a point, all given by expressions; the point is evaluated last. -/
def heightAt (table : SymbolTable) (coefficient constant x : String) : Result Failure Float := do
  let line ← Line.ofSources table coefficient constant
  let x ← value table x
  return line.height x

/-- The whole numbers from `start` up to but not including `stop`. -/
def samples (start stop : Int) : List Int :=
  (List.range (stop - start).toNat).map fun (n : Nat) => start + n

/-- A point, its sample and its value in the order of the axes. -/
def point (orientation : Orientation) (line : Line) (sample : Int) : Float × Float :=
  let x := Number.integer sample
  match orientation with
  | .sampleFirst => (x.toFloat, line.height x)
  | .valueFirst => (line.height x, x.toFloat)

/-- The points of a line over a range of samples. The line is evaluated once, before any sample. -/
def sweep (table : SymbolTable) (coefficient constant : String) (start stop : Int)
    (orientation : Orientation) : Result Failure (List (Float × Float)) := do
  let line ← Line.ofSources table coefficient constant
  return (samples start stop).map (point orientation line)

def defaultStart : Int := -100

def defaultStop : Int := 100

end LineCalc.Plot
