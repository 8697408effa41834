import StyleGrammar.Registry.Query

/-!
# Answers as JSON

The members of entries, verdicts and suggestions, in the order in which they are written.
-/

namespace StyleGrammar

def PropertyEntry.toJson (e : PropertyEntry) : Json :=
  .record ([("name", .text e.name), ("compiledSyntax", .text e.definition)] ++
    Json.nonempty "forbidden_idents" e.forbidden ++ e.property.toMembers)

def Verdict.toMembers : Verdict → List (String × Json)
  | complete => [("state", .text "complete")]
  | incomplete => [("state", .text "incomplete")]
  | invalid index => [("state", .text "invalid"), ("index", .nat index)]

def Validation.toJson (v : Validation) : Json :=
  .record (("values", .texts (v.values.map (textOf false))) :: v.verdict.toMembers)

def Suggestion.toMembers : Suggestion → List (String × Json)
  | keyword text => [("type", .text "keyword"), ("keyword", .text text)]
  | dataType name kinds =>
    [("type", .text "data-type"), ("name", .text name), ("kinds", .texts (kinds.map Kind.name))]
  | function name kind =>
    [("type", .text "function"), ("name", .text name), ("kind", .text kind.name)]
  | delimiter c => [("type", .text "delimiter"), ("delimiter", .text (String.singleton c))]

def AuditFailure.toJson (f : AuditFailure) : Json :=
  .record [("property", .text f.property), ("error", .text f.fault.message)]

end StyleGrammar
