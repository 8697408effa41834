import StyleGrammar.Grammar.Definition
import StyleGrammar.Registry.Options
import StyleGrammar.Registry.Property

/-!
# Registries

A registry holds the grammars of properties, all in one arena.  First the named definitions are
compiled, then the properties that are taken up.  At last the slots are filled that still refer to
other properties of the table.  What does not compile is excluded and leaves the others as they are.
-/

namespace StyleGrammar

/-- A property with its grammar. -/
structure PropertyEntry where
  name : String
  definition : String
  root : NodeId
  forbidden : List String
  property : Property
  deriving Inhabited

/-- Compiled grammars, and what did not compile. -/
structure Registry where
  arena : Arena
  properties : Table PropertyEntry
  definitions : Table NodeId
  excluded : List (String × GrammarFault)
  deriving Inhabited

namespace Registry

def empty : Registry := ⟨.empty, .empty, .empty, []⟩

/-- The slot of a property, as references write it. -/
def propertySlot (name : String) : String := "'" ++ name ++ "'"

/-- The text between two apostrophes. -/
def unquoted? (slot : String) : Option String :=
  match slot.toList with
  | '\'' :: rest =>
    if rest.getLast? = some '\'' then some (String.ofList rest.dropLast) else none
  | _ => none

/-- Compiles a definition into a slot.  A fault is filed under `name`. -/
def compile (r : Registry) (name slot definition : String) : Option NodeId × Registry :=
  match r.arena.defineNamed slot definition with
  | (.ok id, arena) => (some id, { r with arena })
  | (.error e, arena) => (none, { r with arena, excluded := r.excluded ++ [(name, e)] })

/-- The order in which named definitions are compiled: the first ones as listed, the others by
name. -/
def definitionOrder (definitions : Table String) (o : RegistryOptions) : List String :=
  o.firstDefinitions.filter definitions.contains ++
    (definitions.names.filter (!o.firstDefinitions.contains ·)).mergeSort (· ≤ ·)

def addDefinition (definitions : Table String) (o : RegistryOptions) (r : Registry)
    (name : String) : Registry :=
  let definition := (o.namedDefinitions.get? name <|> definitions.get? name).getD ""
  match r.compile name name definition with
  | (some id, r) => { r with definitions := r.definitions.insert name id }
  | (none, r) => r

def addProperty (o : RegistryOptions) (r : Registry) (name : String) (p : Property) : Registry :=
  if o.admits name p.status? then
    let definition := (o.propertyDefinitions.get? name).getD p.definition
    match r.compile name (propertySlot name) definition with
    | (some root, r) =>
      let forbidden := (o.forbidden.get? name).getD [] ++ p.forbidden
      { r with properties := r.properties.insert name ⟨name, definition, root, forbidden, p⟩ }
    | (none, r) => r
  else r

/-- The slots that refer to properties of the table and are not filled, unless the property is
excluded. -/
def pending (properties : Table Property) (r : Registry) : List (String × String) :=
  r.arena.names.filterMap fun (slot, id) =>
    if r.arena.isFilled id || r.excluded.any (fun e => propertySlot e.1 = slot) then none
    else do
      let p ← properties.get? (← unquoted? slot)
      return (slot, p.definition)

/-- The name under which a fault of a pending slot is filed: the slot without the apostrophes at
its ends, however many there are. -/
def filedName (slot : String) : String := String.ofList (trimmed (· = '\'') slot.toList)

/-- Fills a slot that is pending. -/
def settle (r : Registry) (slot definition : String) : Registry :=
  (r.compile (filedName slot) slot definition).2

/-- Fills the slots that are pending.  New ones may come up. -/
def settleRound (properties : Table Property) (r : Registry) : Registry :=
  (pending properties r).foldl (fun r s => r.settle s.1 s.2) r

/-- Fills slots until none is pending.  This does not end if a slot stays pending, as one does that
has a broken definition filed under another name. -/
def settleAll (properties : Table Property) (r : Registry) : Option Registry :=
  if (pending properties r).isEmpty then some r
  else settleRound properties r |>.settleAll properties
partial_fixpoint

/-- The registry of the definitions and the properties that are taken up, before the slots of other
properties are filled. -/
def collect (properties : Table Property) (definitions : Table String) (o : RegistryOptions) :
    Registry :=
  let named := (definitionOrder definitions o).foldl (addDefinition definitions o) empty
  properties.rows.foldl (fun r row => r.addProperty o row.1 row.2) named

/-- The registry of two tables, if building it ends. -/
def build? (properties : Table Property) (definitions : Table String) (o : RegistryOptions) :
    Option Registry :=
  settleAll properties (collect properties definitions o)

/-- The registry of two tables.  None is ever returned if building does not end. -/
def build (properties : Table Property) (definitions : Table String) (o : RegistryOptions) :
    Registry :=
  (build? properties definitions o).getD empty

end Registry

end StyleGrammar
