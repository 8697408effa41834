/-!
# Arguments of the command line

Arguments are taken one at a time.  Long flags follow two hyphens and short ones, of which several
may stand together, one; behind a bare `--` everything is positional.  The value of an option is in
the same argument, behind an equals sign, or it is the next one, unless that is a flag itself.  A
request for help ends the reading at once.
-/

namespace StyleGrammar

/-- What the command line asks for. -/
structure Arguments where
  property? : Option String
  value? : Option String
  suggest : Bool
  minify : Bool
  json : Bool
  audit : Bool
  properties? : Option String
  definitions? : Option String
  deriving DecidableEq, Repr, Inhabited

/-- Why there is nothing to do. -/
inductive UsageFault
  | help
  | unknown (argument : String)
  | unexpectedValue (flag : String)
  | repeated (flag : String)
  | missingValue (option : String)
  | missingProperty
  | loneTable
  deriving DecidableEq, Repr, Inhabited

namespace Arguments

/-- The options, which take a value. -/
inductive Choice
  | properties
  | syntaxes
  deriving DecidableEq, Repr

/-- The flags, which take none. -/
inductive Flag
  | suggest
  | minify
  | json
  | audit
  | help
  deriving DecidableEq, Repr

def Choice.name : Choice → String
  | properties => "properties"
  | syntaxes => "syntaxes"

def Flag.name : Flag → String
  | suggest => "suggest"
  | minify => "minify"
  | json => "json"
  | audit => "audit"
  | help => "help"

def choiceNamed? (name : String) : Option Choice :=
  [Choice.properties, .syntaxes].find? fun c => c.name = name

def flagNamed? (name : String) : Option Flag :=
  [Flag.suggest, .minify, .json, .audit, .help].find? fun f => f.name = name

def shortFlag? : Char → Option Flag
  | 's' => some .suggest
  | 'm' => some .minify
  | 'h' => some .help
  | _ => none

/-- The arguments so far.  `awaiting` is the option whose value comes next; with `onlyPositional`
no more flags follow. -/
structure State where
  positional : List String
  flags : List Flag
  choices : List (Choice × Option String)
  awaiting : Option Choice
  onlyPositional : Bool

def State.initial : State := ⟨[], [], [], none, false⟩

namespace State

/-- An option without a value keeps its place. -/
def closed (s : State) : State :=
  match s.awaiting with
  | some c => { s with choices := s.choices ++ [(c, none)], awaiting := none }
  | none => s

def addPositional (s : State) (argument : String) : Except UsageFault State :=
  if s.positional.length < 2 then .ok { s with positional := s.positional ++ [argument] }
  else .error (.unknown argument)

def addFlag (s : State) (f : Flag) : Except UsageFault State :=
  if f = .help then .error .help else .ok { s with flags := s.flags ++ [f] }

def addChoice (s : State) (c : Choice) (value : String) : State :=
  { s with choices := s.choices ++ [(c, some value)] }

/-- A flag or an option by its name, perhaps with a value behind an equals sign. -/
def addLong (s : State) (name : String) (value? : Option String) : Except UsageFault State :=
  match choiceNamed? name, value? with
  | some c, some value => .ok (s.addChoice c value)
  | some c, none => .ok { s with awaiting := some c }
  | none, _ =>
    match flagNamed? name with
    | none => .error (.unknown ("--" ++ name))
    | some f => if value?.isSome then .error (.unexpectedValue name) else s.addFlag f

/-- Flags of one letter each. -/
def addShort (s : State) : List Char → Except UsageFault State
  | [] => .ok s
  | c :: rest =>
    match shortFlag? c with
    | some f => do (← s.addFlag f).addShort rest
    | none => .error (.unknown (String.singleton c))

/-- Takes one more argument. -/
def step (s : State) (argument : String) : Except UsageFault State :=
  if s.onlyPositional then s.addPositional argument
  else
    match argument.toList with
    | ['-', '-'] => .ok { s.closed with onlyPositional := true }
    | '-' :: '-' :: rest =>
      let name := String.ofList (rest.takeWhile (· != '='))
      match rest.dropWhile (· != '=') with
      | _ :: value => s.closed.addLong name (some (String.ofList value))
      | [] => s.closed.addLong name none
    | '-' :: c :: rest => s.closed.addShort (c :: rest)
    | _ =>
      match s.awaiting with
      | some c => .ok { s.addChoice c argument with awaiting := none }
      | none => s.addPositional argument

def has (s : State) (f : Flag) : Bool := s.flags.contains f

def choice? (s : State) (c : Choice) : Option String := (s.choices.lookup c).join

/-- An option that came more than once, or without a value. -/
def choiceFault? (s : State) (c : Choice) : Option UsageFault :=
  match s.choices.filter (·.1 = c) with
  | [] => none
  | [(_, some _)] => none
  | [_] => some (.missingValue c.name)
  | _ => some (.repeated c.name)

def fault? (s : State) : Option UsageFault :=
  (s.choiceFault? .properties) <|> (s.choiceFault? .syntaxes) <|>
    (s.flags.find? fun f => 1 < s.flags.count f).map (.repeated ·.name) <|>
    (if s.positional.isEmpty && !s.has .audit then some .missingProperty else none) <|>
    (if (s.choice? .properties).isSome = (s.choice? .syntaxes).isSome then none
      else some .loneTable)

/-- What all arguments add up to. -/
def finish (s : State) : Except UsageFault Arguments :=
  let s := s.closed
  match s.fault? with
  | some fault => .error fault
  | none =>
    .ok {
      property? := s.positional[0]?
      value? := s.positional[1]?
      suggest := s.has .suggest
      minify := s.has .minify
      json := s.has .json
      audit := s.has .audit
      properties? := s.choice? .properties
      definitions? := s.choice? .syntaxes }

end State

def ofList (arguments : List String) : Except UsageFault Arguments := do
  (← arguments.foldlM State.step .initial).finish

/-- The files that have to be read. -/
def files (a : Arguments) : List String := a.properties?.toList ++ a.definitions?.toList

end Arguments

end StyleGrammar
