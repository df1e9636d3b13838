import LineCalc.Number.Basic

/-!
# Symbol tables

A table binds names to numbers and remembers the order in which the names came. Binding a name anew
changes its number and leaves its place.
-/

namespace LineCalc

/-- Bindings in the order in which the names were first bound. -/
structure SymbolTable where
  entries : List (String × Number)
deriving DecidableEq

namespace SymbolTable

instance : EmptyCollection SymbolTable := ⟨⟨[]⟩⟩

def names (t : SymbolTable) : List String := t.entries.map Prod.fst

/-- No name is bound twice. -/
def Distinct (t : SymbolTable) : Prop := t.names.Nodup

def get? (t : SymbolTable) (name : String) : Option Number := t.entries.lookup name

/-- Bindings with one more or one changed. -/
def insertEntry (name : String) (value : Number) : List (String × Number) → List (String × Number)
  | [] => [(name, value)]
  | (n, v) :: rest =>
    if n = name then (n, value) :: rest else (n, v) :: insertEntry name value rest

/-- Binds a name: in its place if it is bound already, else at the end. -/
def insert (t : SymbolTable) (name : String) (value : Number) : SymbolTable :=
  ⟨insertEntry name value t.entries⟩

/-- Binds names one after the other. -/
def insertMany (t : SymbolTable) (bindings : List (String × Number)) : SymbolTable :=
  bindings.foldl (fun t b => t.insert b.1 b.2) t

/-- The table with the bindings of `delta` made in order. -/
def merge (t delta : SymbolTable) : SymbolTable := t.insertMany delta.entries

/-- The table of a list of bindings, in which names may come more than once. -/
def ofList (bindings : List (String × Number)) : SymbolTable := insertMany ∅ bindings

def singleton (name : String) (value : Number) : SymbolTable := ⟨[(name, value)]⟩

def size (t : SymbolTable) : Nat := t.entries.length

def isEmpty (t : SymbolTable) : Bool := t.entries.isEmpty

def WellFormed (t : SymbolTable) : Prop := ∀ b ∈ t.entries, b.2.WellFormed

instance (t : SymbolTable) : Decidable t.WellFormed :=
  inferInstanceAs (Decidable (∀ b ∈ t.entries, b.2.WellFormed))

/-- The same names in the same order with equal numbers. -/
def equals (t u : SymbolTable) : Bool :=
  t.entries.length == u.entries.length &&
    (t.entries.zip u.entries).all fun (a, b) => a.1 == b.1 && a.2.equals b.2

/-- The bindings in order, in brackets. -/
def text (t : SymbolTable) : String :=
  "[" ++ String.intercalate ", " (t.entries.map fun b => b.1 ++ " = " ++ b.2.text) ++ "]"

end SymbolTable

end LineCalc
