import LineCalc.Plot

/-!
# Options

The arguments of the program. Flags may be given in short, and short ones joined; `--plot` takes the
two arguments after it, whatever they look like; after `--` nothing is an option. At most one
argument is left over, and no flag may come twice. The flags that only ask for help or for the version,
and what is written for them, are left out.
-/

namespace LineCalc.CommandLine

/-- A switch that is on or off. -/
inductive Flag where
  | file
  | tests
  | symbols
  | yFirst
deriving DecidableEq, Repr

namespace Flag

def ofLetter? : Char → Option Flag
  | 'f' => some .file
  | 't' => some .tests
  | 's' => some .symbols
  | _ => none

def ofLong? : String → Option Flag
  | "--file" => some .file
  | "--tests" => some .tests
  | "--symbols" => some .symbols
  | "--y-first" => some .yFirst
  | _ => none

end Flag

/-- What the arguments ask for. -/
structure Options where
  /-- The flags that are on. -/
  flags : List Flag
  /-- The coefficient and the constant of each `--plot`. -/
  plots : List (String × String)
  /-- The argument left over: lines to evaluate, or the file that holds them. -/
  contents : Option String
deriving DecidableEq, Repr

inductive UsageError where
  | unknown (argument : String)
  | repeated (flag : Flag)
  | surplus (argument : String)
  | incompletePlot
  | yFirstAlone
deriving DecidableEq, Repr

def UsageError.message : UsageError → String
  | .unknown argument => s!"error: unexpected argument '{argument}' found"
  | .repeated _ => "error: an option cannot be used multiple times"
  | .surplus argument => s!"error: unexpected argument '{argument}' found"
  | .incompletePlot => "error: two values are required for '--plot <COEF> <CONST>'"
  | .yFirstAlone => "error: '--y-first' requires '--plot <COEF> <CONST>'"

namespace Options

def bare : Options := ⟨[], [], none⟩

def has (o : Options) (flag : Flag) : Bool := o.flags.contains flag

def turnOn (o : Options) (flag : Flag) : Except UsageError Options :=
  if o.has flag then .error (.repeated flag) else .ok { o with flags := flag :: o.flags }

def turnOnLetter (o : Options) (letter : Char) : Except UsageError Options :=
  match Flag.ofLetter? letter with
  | some flag => o.turnOn flag
  | none => .error (.unknown ("-" ++ letter.toString))

/-- Takes an argument that is no option. -/
def take (o : Options) (argument : String) : Except UsageError Options :=
  match o.contents with
  | some _ => .error (.surplus argument)
  | none => .ok { o with contents := some argument }

/-- Takes an argument other than `--` and `--plot`. A single hyphen is no option. -/
def takeArgument (o : Options) (argument : String) : Except UsageError Options :=
  match argument.toList with
  | '-' :: '-' :: _ =>
    match Flag.ofLong? argument with
    | some flag => o.turnOn flag
    | none => .error (.unknown argument)
  | '-' :: c :: cs => (c :: cs).foldlM turnOnLetter o
  | _ => o.take argument

/-- The options after some more arguments. -/
def addArguments (o : Options) : List String → Except UsageError Options
  | [] => .ok o
  | "--" :: rest => rest.foldlM take o
  | "--plot" :: coefficient :: constant :: rest =>
    addArguments { o with plots := o.plots ++ [(coefficient, constant)] } rest
  | "--plot" :: _ => .error .incompletePlot
  | argument :: rest => do
    let o ← o.takeArgument argument
    addArguments o rest

def ofArguments (arguments : List String) : Except UsageError Options := do
  let o ← bare.addArguments arguments
  if o.has .yFirst && o.plots.isEmpty then .error .yFirstAlone else .ok o

/-- The line to plot, if there is exactly one. -/
def plot? (o : Options) : Option (String × String) :=
  match o.plots with
  | [p] => some p
  | _ => none

def orientation (o : Options) : Plot.Orientation :=
  if o.has .yFirst then .valueFirst else .sampleFirst

end Options

end LineCalc.CommandLine
