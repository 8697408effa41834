import StyleGrammar.Value.Sequence

/-!
# Transforms and filters

The arguments of these functions are sequences of values.  Their number is checked, their types are
left to the grammar of the property.
-/

namespace StyleGrammar

open Reader

variable {V : Type}

/-- The number of arguments between the commas of a sequence. -/
def argumentCount [Term V] (vs : List V) : Nat :=
  if vs.isEmpty then 0 else 1 + vs.countP fun v => Sequence.delimiter? v = some ','

/-- The transform functions. -/
inductive TransformName
  | translate | translateX | translateY | translateZ | translate3d
  | rotate | rotateX | rotateY | rotateZ | rotate3d
  | scale | scaleX | scaleY | scaleZ | scale3d
  | skew | skewX | skewY | matrix | matrix3d | perspective
  deriving DecidableEq, Repr, Inhabited

instance : Keyword TransformName where
  all := [.translate, .translateX, .translateY, .translateZ, .translate3d, .rotate, .rotateX,
    .rotateY, .rotateZ, .rotate3d, .scale, .scaleX, .scaleY, .scaleZ, .scale3d, .skew, .skewX,
    .skewY, .matrix, .matrix3d, .perspective]
  name
    | .translate => "translate" | .translateX => "translateX" | .translateY => "translateY"
    | .translateZ => "translateZ" | .translate3d => "translate3d" | .rotate => "rotate"
    | .rotateX => "rotateX" | .rotateY => "rotateY" | .rotateZ => "rotateZ"
    | .rotate3d => "rotate3d" | .scale => "scale" | .scaleX => "scaleX" | .scaleY => "scaleY"
    | .scaleZ => "scaleZ" | .scale3d => "scale3d" | .skew => "skew" | .skewX => "skewX"
    | .skewY => "skewY" | .matrix => "matrix" | .matrix3d => "matrix3d"
    | .perspective => "perspective"

/-- The least and the greatest number of arguments. -/
def TransformName.arity : TransformName → Nat × Nat
  | .translate | .scale | .skew => (1, 2)
  | .translate3d | .scale3d => (3, 3)
  | .rotate3d => (4, 4)
  | .matrix => (6, 6)
  | .matrix3d => (16, 16)
  | _ => (1, 1)

/-- A transform function and its arguments. -/
structure Transform (V : Type) where
  name : TransformName
  arguments : List V
  deriving BEq, Repr, Inhabited

instance [Term V] : Readable (Transform V) where
  read := do
    let l ← place
    let name ← expect fun | .function n => Keyword.ofName? TransformName n | _ => none
    let arguments : List V ← block Sequence.read
    let count := argumentCount arguments
    if count < name.arity.1 || name.arity.2 < count then failAt l .invalidValue
    return ⟨name, arguments⟩

instance [Term V] : Printable (Transform V) where
  print compact t := Output.call (Keyword.name t.name) (Sequence.print compact t.arguments)

/-- The filter functions. -/
inductive FilterName
  | blur | brightness | contrast | dropShadow | grayscale | hueRotate | invert | opacity | saturate
  | sepia
  deriving DecidableEq, Repr, Inhabited

instance : Keyword FilterName where
  all := [.blur, .brightness, .contrast, .dropShadow, .grayscale, .hueRotate, .invert, .opacity,
    .saturate, .sepia]
  name
    | .blur => "blur" | .brightness => "brightness" | .contrast => "contrast"
    | .dropShadow => "drop-shadow" | .grayscale => "grayscale" | .hueRotate => "hue-rotate"
    | .invert => "invert" | .opacity => "opacity" | .saturate => "saturate" | .sepia => "sepia"

/-- Whether a filter takes the values.  A shadow takes several without commas; the others take at
most one. -/
def FilterName.admits [Term V] (f : FilterName) (vs : List V) : Bool :=
  match f with
  | .dropShadow => argumentCount vs = 1
  | _ => vs.length ≤ 1

/-- A filter function and its arguments. -/
structure Filter (V : Type) where
  name : FilterName
  arguments : List V
  deriving BEq, Repr, Inhabited

instance [Term V] : Readable (Filter V) where
  read := do
    let l ← place
    let name ← expect fun | .function n => Keyword.ofName? FilterName n | _ => none
    let arguments : List V ← block Sequence.read
    if !name.admits arguments then failAt l .invalidValue
    return ⟨name, arguments⟩

instance [Term V] : Printable (Filter V) where
  print compact f := Output.call (Keyword.name f.name) (Sequence.print compact f.arguments)

end StyleGrammar
