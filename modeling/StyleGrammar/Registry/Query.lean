import StyleGrammar.Grammar.Suggestion
import StyleGrammar.Registry.Basic
import StyleGrammar.Registry.Standard.Definitions
import StyleGrammar.Registry.Standard.Properties

/-!
# Questions to a registry

Whether the text of a declaration is valid for a property, what may follow it, and whether the
grammars of all properties are fit to answer that.
-/

namespace StyleGrammar

/-- Why a registry gives no answer. -/
inductive RegistryFault
  | invalidTable (fault : TableFault)
  | unknownProperty (name : String)
  | invalidValue (fault : Fault)
  | noSuggestions (fault : SuggestionFault)
  deriving DecidableEq, Repr, Inhabited

def RegistryFault.message : RegistryFault → String
  | invalidTable fault => "Invalid data table: " ++ fault.message
  | unknownProperty name => "Unknown property '" ++ name ++ "'"
  | invalidValue fault => "Invalid value: " ++ fault.message
  | noSuggestions fault => fault.message

/-- How far a declaration is valid. -/
inductive Verdict
  | complete
  | incomplete
  | invalid (index : Nat)
  deriving DecidableEq, Repr, Inhabited

/-- The values of a declaration and what they are worth. -/
structure Validation where
  values : List Value
  verdict : Verdict

/-- A property whose grammar does not yield suggestions everywhere. -/
structure AuditFailure where
  property : String
  fault : SuggestionFault
  deriving DecidableEq, Repr, Inhabited

namespace Registry

/-- The registry of the standard tables. -/
def standard : Registry := build Standard.properties Standard.definitions .standard

/-- The registry of two tables given as JSON.  A table that is left out is the standard one. -/
def ofTexts (properties? definitions? : Option String) (o : RegistryOptions) :
    Except TableFault Registry := do
  let properties ←
    match properties? with
    | some s => Table.properties s
    | none => .ok Standard.properties
  let definitions ←
    match definitions? with
    | some s => Table.definitions s
    | none => .ok Standard.definitions
  return build properties definitions o

variable (r : Registry)

def property? (name : String) : Option PropertyEntry := r.properties.get? name

def matcher (e : PropertyEntry) : Matcher := ⟨r.arena, e.forbidden⟩

def entry (name : String) : Except RegistryFault PropertyEntry :=
  match r.property? name with
  | some e => .ok e
  | none => .error (.unknownProperty name)

/-- The entry of a property and the values of a declaration. -/
def declaration (name text : String) : Except RegistryFault (PropertyEntry × List Value) := do
  let e ← r.entry name
  match Value.listOfText text with
  | .ok vs => return (e, vs)
  | .error fault => .error (.invalidValue fault)

/-- Whether a declaration consists of a keyword that every property takes. -/
def isWide : List Value → Bool
  | [.leaf (.keyword i)] => isWideKeyword i.name
  | _ => false

def verdict (e : PropertyEntry) (vs : List Value) : Verdict :=
  if isWide vs then .complete
  else
    match (r.matcher e).takeAll e.root vs with
    | .error index => .invalid index
    | .ok p => if (r.matcher e).isSatisfied p then .complete else .incomplete

/-- Whether a text is a valid declaration of a property. -/
def validate (name text : String) : Except RegistryFault Validation := do
  let (e, vs) ← r.declaration name text
  return ⟨vs, r.verdict e vs⟩

/-- What may follow a text in a declaration of a property. -/
def suggest (name text : String) : Except RegistryFault (List Suggestion) := do
  let (e, vs) ← r.declaration name text
  match (r.matcher e).suggestionsAfter (.start e.root) vs with
  | .ok s => return s
  | .error fault => .error (.noSuggestions fault)

/-- The nodes that a match may go to from a node.  The arguments of functions are not matched. -/
def successors (id : NodeId) : List NodeId :=
  match (r.arena.node id).kind with
  | .reference _ target => if r.arena.isFilled target then [target] else []
  | .function _ _ => []
  | kind => kind.children

/-- The nodes that can be reached from a stack of nodes, without those in `seen`, in the order in
which they are met. -/
def reachableWithin : (steps : Nat) → (stack seen : List NodeId) → List NodeId
  | 0, _, _ => []
  | _, [], _ => []
  | n + 1, id :: stack, seen =>
    if seen.contains id then reachableWithin n stack seen
    else id :: reachableWithin n (r.successors id ++ stack) (id :: seen)

/-- The nodes that can be reached from a node.  Every node puts its successors on the stack once. -/
def reachable (root : NodeId) : List NodeId :=
  let edges := r.arena.nodes.foldl (fun sum n => sum + n.children.length + 1) 0
  r.reachableWithin (edges + 1) [root] []

/-- The faults of the grammar of a property, each one once. -/
def faults (e : PropertyEntry) : List SuggestionFault :=
  let all := (r.reachable e.root).filterMap fun id =>
    match (r.matcher e).suggestions (.start id) with
    | .ok _ => none
    | .error fault => some fault
  all.eraseDupsBy fun a b => a.message == b.message

/-- Looks for nodes without suggestions in the grammars of all properties. -/
def audit : List AuditFailure :=
  r.properties.entries.flatMap fun e => (r.faults e).map (⟨e.name, ·⟩)

end Registry

end StyleGrammar
