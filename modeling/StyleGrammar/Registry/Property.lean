import StyleGrammar.Json.Read
import StyleGrammar.Table

/-!
# Tables of properties and syntaxes

What a table says of a property: the definition of its grammar and some data about it.  The names of
the fields in JSON are listed once, in the order in which they are written.
-/

namespace StyleGrammar

/-- A single value, or the properties that it is derived from. -/
inductive Setting
  | value (text : String)
  | derived (properties : List String)
  deriving DecidableEq, Repr, Inhabited

/-- What a table says of a property.  `forbidden` are the identifiers that are no custom ones. -/
structure Property where
  definition : String
  media? : Option Setting
  inherited : Bool
  animationType? : Option Setting
  percentages? : Option Setting
  groups : List String
  initial? : Option Setting
  appliesTo? : Option String
  computed? : Option Setting
  order? : Option String
  status? : Option String
  reference? : Option String
  stacking? : Option Bool
  alsoAppliesTo : List String
  forbidden : List String
  deriving DecidableEq, Repr, Inhabited

namespace Setting

def toJson : Setting → Json
  | value text => .text text
  | derived properties => .texts properties

end Setting

namespace Json

def asText? : Json → Option String
  | string text? => text?
  | _ => none

def asTexts? : Json → Option (List String)
  | array items => items.mapM asText?
  | _ => none

def asBool? : Json → Option Bool
  | bool b => some b
  | _ => none

def asSetting? (j : Json) : Option Setting :=
  (Setting.value <$> j.asText?) <|> (Setting.derived <$> j.asTexts?)

/-- A field that may be missing or null. -/
def ofOptional? {α : Type} (f : Json → Option α) : Option Json → Option (Option α)
  | none | some null => some none
  | some j => some <$> f j

/-- A field that may be missing, but not null. -/
def ofDefault? {α : Type} (f : Json → Option α) (a : α) : Option Json → Option α
  | none => some a
  | some j => f j

/-- The known members of an object, none of which may come twice.  All names have to be texts. -/
def knownMembers? (known : List String) :
    List (Option String × Json) → Option (List (String × Json))
  | [] => some []
  | (name?, j) :: rest => do
    let name ← name?
    let others ← knownMembers? known rest
    if !known.contains name then return others
    if (others.lookup name).isSome then none else return (name, j) :: others

/-- The known fields of an entry.  An entry may also be the list of its fields' values. -/
def fields? (known : List String) : Json → Option (List (String × Json))
  | object members => knownMembers? known members
  | array items => if items.length ≤ known.length then some (known.zip items) else none
  | _ => none

/-- A table with entries of one type. -/
def table? {α : Type} (row? : Json → Option α) : Json → Option (Table α)
  | object members =>
    members.foldlM (fun t m => do return t.insert (← m.1) (← row? m.2)) Table.empty
  | _ => none

end Json

/-- The field that holds a definition. -/
def definitionField : String := "syntax"

namespace Property

/-- The names of the fields. -/
def fields : List String :=
  [definitionField, "media", "inherited", "animationType", "percentages", "groups", "initial",
    "appliesto", "computed", "order", "status", "mdn_url", "stacking", "alsoAppliesTo",
    "forbiddenIdents"]

def ofJson? (j : Json) : Option Property := do
  let fields ← j.fields? fields
  let field (name : String) : Option Json := fields.lookup name
  let setting (name : String) : Option (Option Setting) :=
    Json.ofOptional? Json.asSetting? (field name)
  let text (name : String) : Option (Option String) := Json.ofOptional? Json.asText? (field name)
  let texts (name : String) : Option (List String) := Json.ofDefault? Json.asTexts? [] (field name)
  return {
    definition := ← (← field definitionField).asText?
    media? := ← setting "media"
    inherited := ← Json.ofDefault? Json.asBool? false (field "inherited")
    animationType? := ← setting "animationType"
    percentages? := ← setting "percentages"
    groups := ← texts "groups"
    initial? := ← setting "initial"
    appliesTo? := ← text "appliesto"
    computed? := ← setting "computed"
    order? := ← text "order"
    status? := ← text "status"
    reference? := ← text "mdn_url"
    stacking? := ← Json.ofOptional? Json.asBool? (field "stacking")
    alsoAppliesTo := ← texts "alsoAppliesTo"
    forbidden := ← texts "forbiddenIdents" }

/-- The fields with their values.  Those without a value are left out. -/
def toMembers (p : Property) : List (String × Json) :=
  [(definitionField, .text p.definition)] ++ Json.optional "media" Setting.toJson p.media? ++
    [("inherited", .bool p.inherited)] ++
    Json.optional "animationType" Setting.toJson p.animationType? ++
    Json.optional "percentages" Setting.toJson p.percentages? ++
    Json.nonempty "groups" p.groups ++ Json.optional "initial" Setting.toJson p.initial? ++
    Json.optional "appliesto" .text p.appliesTo? ++
    Json.optional "computed" Setting.toJson p.computed? ++
    Json.optional "order" .text p.order? ++ Json.optional "status" .text p.status? ++
    Json.optional "mdn_url" .text p.reference? ++ Json.optional "stacking" .bool p.stacking? ++
    Json.nonempty "alsoAppliesTo" p.alsoAppliesTo ++
    Json.nonempty "forbiddenIdents" p.forbidden

end Property

/-- Why a text is no table. -/
inductive TableFault
  | malformed
  | unexpected
  deriving DecidableEq, Repr, Inhabited

def TableFault.message : TableFault → String
  | malformed => "the text is no JSON"
  | unexpected => "the entries have not the expected fields"

namespace Table

def ofText {α : Type} (row? : Json → Option α) (s : String) : Except TableFault (Table α) :=
  match Json.ofText? s with
  | none => .error .malformed
  | some j =>
    match j.table? row? with
    | none => .error .unexpected
    | some t => .ok t

/-- A table of properties. -/
def properties (s : String) : Except TableFault (Table Property) := ofText Property.ofJson? s

/-- A table of definitions. -/
def definitions (s : String) : Except TableFault (Table String) :=
  ofText (fun j => do (← (← j.fields? [definitionField]).lookup definitionField).asText?) s

end Table

end StyleGrammar
