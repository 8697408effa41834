import StyleGrammar.Table

/-!
# Options of a registry

Which properties of a table a registry takes up, and what replaces the definitions in the tables.
-/

namespace StyleGrammar

/-- Properties are taken up by their status or by their name, unless they are left out by name.
Definitions listed in `firstDefinitions` are compiled before the others. -/
structure RegistryOptions where
  statuses : List String
  included : List String
  left : List String
  propertyDefinitions : Table String
  namedDefinitions : Table String
  forbidden : Table (List String)
  firstDefinitions : List String
  deriving Inhabited

namespace RegistryOptions

/-- Whether a property is taken up. -/
def admits (o : RegistryOptions) (name : String) (status? : Option String) : Bool :=
  (status?.any o.statuses.contains || o.included.contains name) && !o.left.contains name

/-- Properties whose values are names that sheets define. -/
def namingProperties : List String :=
  ["animation-name", "counter-reset", "counter-increment", "list-style-type",
    "view-transition-name"]

def gridLines : List String :=
  ["grid-row-start", "grid-row-end", "grid-column-start", "grid-column-end"]

/-- The identifiers that are no custom ones in a property. -/
def standardForbidden : List (String × List String) :=
  namingProperties.map (·, ["unset", "initial", "inherit", "none"]) ++
    gridLines.map (·, ["span"]) ++
    [("will-change",
      ["unset", "initial", "inherit", "will-change", "auto", "scroll-position", "contents"])]

/-- The options that suit the standard tables. -/
def standard : RegistryOptions where
  statuses := ["standard"]
  included := ["font-smooth"]
  left := ["font-palette"]
  propertyDefinitions := .ofList [("offset-path", "none | <url> | <basic-shape> || <coord-box>")]
  namedDefinitions :=
    .ofList [("keyframe-block", "<keyframe-selector># '\x7b' <declaration-list> '\x7d'")]
  forbidden := .ofList standardForbidden
  firstDefinitions :=
    ["length-percentage", "visual-box", "box", "line-names", "name-repeat", "masking-mode",
      "mask-source", "target", "cubic-bezier-timing-function", "step-timing-function",
      "single-animation-iteration-count", "single-animation-direction",
      "single-animation-fill-mode", "single-animation-play-state", "bg-position",
      "transition-behavior-value", "single-animation-timeline", "single-transition-property",
      "easing-function", "shape-box", "quote", "display-outside", "counter-style-name",
      "mask-reference", "paint-box"]

end RegistryOptions

end StyleGrammar
