import StyleGrammar.Value.Form

/-!
# Data types

A data type of a grammar is primitive if it accepts values of certain kinds.  All others are defined
by a grammar of their own; of those, positions and ratios can also be filled by one whole value.
-/

namespace StyleGrammar

namespace DataType

/-- The kinds of values that a primitive data type is about. -/
def kinds? : String → Option (List Kind)
  | "length" => some [.length]
  | "length-percentage" => some [.length, .percentage]
  | "percentage" => some [.percentage]
  | "number" => some [.number, .integer]
  | "integer" => some [.integer]
  | "angle" => some [.angle]
  | "angle-percentage" => some [.angle, .percentage]
  | "time" => some [.time]
  | "time-percentage" => some [.time, .percentage]
  | "frequency" => some [.frequency]
  | "frequency-percentage" => some [.frequency, .percentage]
  | "resolution" => some [.resolution]
  | "flex" => some [.flex]
  | "dimension" => some [.length, .angle, .time, .frequency, .resolution, .flex]
  | "string" => some [.string]
  | "url" => some [.url]
  | "ident" | "custom-ident" => some [.keyword]
  | "dashed-ident" | "custom-property-name" => some [.dashedIdent]
  | "color" => some [.color, .colorMix, .lightDark, .deviceCmyk]
  | "hex-color" | "named-color" | "system-color" | "deprecated-system-color" => some [.color]
  | "gradient" => some [.linearGradient, .radialGradient, .conicGradient]
  | "image" =>
    some [.url, .linearGradient, .radialGradient, .conicGradient, .imageSet, .crossFade, .element,
      .paint]
  | "basic-shape" => some [.circle, .ellipse, .inset, .rect, .xywh, .polygon, .path]
  | "transform-function" => some [.transform]
  | "filter-function" => some [.filter]
  | "declaration-value" | "any-value" => some Kind.all
  | _ => none

/-- The kind of the whole values that fill a composite data type. -/
def compositeKinds? : String → Option (List Kind)
  | "position" => some [.position]
  | "ratio" => some [.ratio]
  | _ => none

def isPrimitive (name : String) : Bool := (kinds? name).isSome

/-- Kinds that can be calculated. -/
def isNumeric : Kind → Bool
  | .length | .percentage | .number | .integer | .angle | .time | .frequency | .resolution
  | .flex => true
  | _ => false

/-- Whether a value is zero and has no unit. -/
def isUnitlessZero {V : Type} : Form V → Bool
  | .leaf (.integer n) => n = 0
  | .leaf (.number v) => v.isZero
  | _ => false

/-- Whether a primitive data type admits a value.  What stands for unknown values always passes.  A
custom identifier must be none of the forbidden ones.  Numeric types take calculations, and lengths
a zero without a unit. -/
def accepts {V : Type} (name : String) (forbidden : List String) (v : Form V) : Bool :=
  match kinds? name with
  | none => false
  | some kinds =>
    if v.isSubstitution then true
    else
      match name with
      | "ident" => v.ident?.any fun i => !isWideKeyword i
      | "custom-ident" =>
        v.ident?.any fun i => !isWideKeyword i && !forbidden.any (Reader.sameName i)
      | "hex-color" => match v with | .leaf (.color (.hex _)) => true | _ => false
      | "named-color" =>
        match v with
        | .leaf (.color (.named _)) | .leaf (.color .current) => true
        | _ => false
      | "system-color" | "deprecated-system-color" =>
        match v with | .leaf (.color (.system _)) => true | _ => false
      | _ =>
        let numeric := kinds.any isNumeric
        (numeric && v.kind = .math) || (kinds.contains .length && isUnitlessZero v) ||
          kinds.contains v.kind

end DataType

end StyleGrammar
