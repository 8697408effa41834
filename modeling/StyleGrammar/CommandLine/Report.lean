import StyleGrammar.CommandLine.Arguments
import StyleGrammar.Registry.View

/-!
# The command line

What a call prints and the code that it exits with, given the contents of the files that it names.
-/

namespace StyleGrammar

/-- The exit code of a call, and what it writes to the output and the error stream. -/
structure Report where
  code : Nat
  output : String
  errors : String
  deriving DecidableEq, Repr, Inhabited

def UsageFault.message : UsageFault → String
  | help => "help was asked for"
  | unknown argument => "unexpected argument '" ++ argument ++ "'"
  | unexpectedValue flag => "'--" ++ flag ++ "' takes no value"
  | repeated flag => "'--" ++ flag ++ "' is given more than once"
  | missingValue option => "'--" ++ option ++ "' needs a value"
  | missingProperty => "a property is required"
  | loneTable => "'--properties' and '--syntaxes' go together"

namespace Report

def line (s : String) : String := s ++ "\n"

def success (output : String) : Report := ⟨0, output, ""⟩

def failure (message : String) : Report := ⟨1, "", line message⟩

def usage : String := String.join (List.map line [
  "Usage: [options] <property> [<value>]",
  "",
  "  -s, --suggest        what may follow the value",
  "  -m, --minify         write the value compactly",
  "      --json           answer in JSON",
  "      --properties <file>  a table of properties",
  "      --syntaxes <file>    a table of named definitions",
  "      --audit          check the grammars of all properties",
  "  -h, --help           this text"])

/-- The registry that the arguments ask for. -/
def registryFor (read? : String → Option String) (a : Arguments) : Except Report Registry :=
  match a.properties?, a.definitions? with
  | some properties, some definitions =>
    match read? properties, read? definitions with
    | some properties, some definitions =>
      match Registry.ofTexts (some properties) (some definitions) .standard with
      | .ok r => .ok r
      | .error fault => .error (failure (RegistryFault.invalidTable fault).message)
    | none, _ => .error (failure ("Error: cannot read '" ++ properties ++ "'"))
    | _, none => .error (failure ("Error: cannot read '" ++ definitions ++ "'"))
  | _, _ => .ok Registry.standard

def auditLines (r : Registry) (failures : List AuditFailure) : List String :=
  let problems := failures.length + r.excluded.length
  r.excluded.map (fun e => e.1 ++ ": excluded: " ++ e.2.message) ++
    failures.map (fun f => f.property ++ ": " ++ f.fault.message) ++
    ["Checked " ++ toString r.properties.rows.length ++ " properties, " ++ toString problems ++
      " problems found"]

def audit (r : Registry) (json : Bool) : Report :=
  let failures := r.audit
  let output :=
    if json then line (Json.array (failures.map AuditFailure.toJson)).render
    else String.join ((auditLines r failures).map line)
  ⟨if failures.isEmpty && r.excluded.isEmpty then 0 else 1, output, ""⟩

def suggestions (r : Registry) (a : Arguments) (property : String) : Report :=
  match r.suggest property (a.value?.getD "") with
  | .error fault => failure fault.message
  | .ok s =>
    if a.json then
      success (line (Json.array (s.map fun x => Json.record x.toMembers)).render)
    else success (String.join (s.map fun x => line x.label))

def definition (r : Registry) (a : Arguments) (property : String) : Report :=
  match r.entry property with
  | .error fault => failure fault.message
  | .ok e => success (line (if a.json then e.toJson.render else e.definition))

/-- A valid declaration is written again; of one that is not, the fault is told. -/
def verdictReport (a : Arguments) (property : String) (v : Validation) : Report :=
  let text := Value.listText a.minify v.values
  match v.verdict with
  | .complete => success (line text)
  | .incomplete => failure ("Incomplete value for " ++ property ++ ": " ++ text)
  | .invalid index =>
    let value := (v.values[index]?.map (textOf false)).getD ""
    failure ("Invalid value for " ++ property ++ ": unexpected '" ++ value ++ "' at component " ++
      toString index)

def validation (r : Registry) (a : Arguments) (property value : String) : Report :=
  match r.validate property value with
  | .error fault => failure fault.message
  | .ok v =>
    if a.json then ⟨if v.verdict = .complete then 0 else 1, line v.toJson.render, ""⟩
    else verdictReport a property v

/-- The answer to arguments. -/
def ofArguments (read? : String → Option String) (a : Arguments) : Report :=
  match registryFor read? a with
  | .error report => report
  | .ok r =>
    if a.audit then audit r a.json
    else
      match a.property?, a.value? with
      | none, _ => success ""
      | some property, value? =>
        if a.suggest then suggestions r a property
        else
          match value? with
          | none => definition r a property
          | some value => validation r a property value

/-- The answer to a call. -/
def ofCall (read? : String → Option String) (arguments : List String) : Report :=
  match Arguments.ofList arguments with
  | .ok a => ofArguments read? a
  | .error .help => success usage
  | .error fault => ⟨2, "", line ("error: " ++ fault.message)⟩

end Report

end StyleGrammar
