import StyleGrammar.Value.Anchor
import StyleGrammar.Value.Counter
import StyleGrammar.Value.Easing
import StyleGrammar.Value.Font
import StyleGrammar.Value.FunctionTable
import StyleGrammar.Value.Grid
import StyleGrammar.Value.Shape
import StyleGrammar.Value.Transform

/-!
# Values

A form is a leaf, a function over values, or a position.  `Nested n` holds the values in which
functions nest at most `n` deep: with none they are leaves, and with one more they are forms over
the values with one fewer.  So reading, writing and comparing values go by recursion on the depth.
The type `Value` has the depth at which reading stops.
-/

namespace StyleGrammar

/-- A value over the values inside it. -/
inductive Form (V : Type)
  | leaf (l : Leaf)
  | color (x : ColorFunction V)
  | colorMix (x : ColorMix V)
  | lightDark (x : LightDark V)
  | deviceCmyk (x : DeviceCmyk V)
  | linearGradient (x : LinearGradient V)
  | radialGradient (x : RadialGradient V)
  | conicGradient (x : ConicGradient V)
  | imageSet (x : ImageSet V)
  | crossFade (x : CrossFade V)
  | element (x : Element)
  | paint (x : Paint V)
  | circle (x : Circle V)
  | ellipse (x : Ellipse V)
  | inset (x : InsetRect V)
  | rect (x : RectShape V)
  | xywh (x : Xywh V)
  | polygon (x : Polygon V)
  | path (x : Path)
  | minmax (x : MinMax V)
  | repetition (x : Repetition V)
  | fitContent (x : FitContent V)
  | cubicBezier (x : CubicBezier)
  | steps (x : Steps)
  | linear (x : Linear)
  | counter (x : Counter V)
  | counters (x : Counters V)
  | symbols (x : Symbols V)
  | attr (x : Attr V)
  | env (x : Env V)
  | var (x : Var V)
  | leader (x : Leader)
  | targetCounter (x : TargetCounter V)
  | targetCounters (x : TargetCounters V)
  | targetText (x : TargetText V)
  | transform (x : Transform V)
  | filter (x : Filter V)
  | math (x : MathFunction V)
  | anchorSize (x : AnchorSize V)
  | add (x : Add)
  | alternateGlyph (x : AlternateGlyph)
  | view (x : View V)
  | scroll (x : Scroll)
  | position (x : Position V)
  deriving BEq

namespace Form

variable {V : Type}

def kind : Form V → Kind
  | leaf l => l.kind
  | color _ => .color
  | colorMix _ => .colorMix
  | lightDark _ => .lightDark
  | deviceCmyk _ => .deviceCmyk
  | linearGradient _ => .linearGradient
  | radialGradient _ => .radialGradient
  | conicGradient _ => .conicGradient
  | imageSet _ => .imageSet
  | crossFade _ => .crossFade
  | element _ => .element
  | paint _ => .paint
  | circle _ => .circle
  | ellipse _ => .ellipse
  | inset _ => .inset
  | rect _ => .rect
  | xywh _ => .xywh
  | polygon _ => .polygon
  | path _ => .path
  | minmax _ => .minmax
  | repetition _ => .repetition
  | fitContent _ => .fitContent
  | cubicBezier _ => .cubicBezier
  | steps _ => .steps
  | linear _ => .linear
  | counter _ => .counter
  | counters _ => .counters
  | symbols _ => .symbols
  | attr _ => .attr
  | env _ => .env
  | var _ => .var
  | leader _ => .leader
  | targetCounter _ => .targetCounter
  | targetCounters _ => .targetCounters
  | targetText _ => .targetText
  | transform _ => .transform
  | filter _ => .filter
  | math _ => .math
  | anchorSize _ => .anchorSize
  | add _ => .add
  | alternateGlyph _ => .alternateGlyph
  | view _ => .view
  | scroll _ => .scroll
  | position _ => .position

def leaf? : Form V → Option Leaf
  | leaf l => some l
  | _ => none

/-- The identifier that a value is: a keyword as it was written, or the name of a color. -/
def ident? : Form V → Option String
  | leaf (.keyword i) => some i.name
  | leaf (.color c) => c.keyword?
  | _ => none

def gradientName (name : String) (repeating : Bool) : String :=
  if repeating then "repeating-" ++ name else name

/-- The name of the function that a value is written with. -/
def functionName? : Form V → Option String
  | leaf (.url _) => some "url"
  | leaf _ => none
  | color x => some (Keyword.name x.space)
  | colorMix _ => some "color-mix"
  | lightDark _ => some "light-dark"
  | deviceCmyk _ => some "device-cmyk"
  | linearGradient x => some (gradientName "linear-gradient" x.repeating)
  | radialGradient x => some (gradientName "radial-gradient" x.repeating)
  | conicGradient x => some (gradientName "conic-gradient" x.repeating)
  | imageSet _ => some "image-set"
  | crossFade _ => some "cross-fade"
  | element _ => some "element"
  | paint _ => some "paint"
  | circle _ => some "circle"
  | ellipse _ => some "ellipse"
  | inset _ => some "inset"
  | rect _ => some "rect"
  | xywh _ => some "xywh"
  | polygon _ => some "polygon"
  | path _ => some "path"
  | minmax _ => some "minmax"
  | repetition _ => some "repeat"
  | fitContent _ => some "fit-content"
  | cubicBezier _ => some "cubic-bezier"
  | steps _ => some "steps"
  | linear _ => some "linear"
  | counter _ => some "counter"
  | counters _ => some "counters"
  | symbols _ => some "symbols"
  | attr _ => some "attr"
  | env _ => some "env"
  | var _ => some "var"
  | leader _ => some "leader"
  | targetCounter _ => some "target-counter"
  | targetCounters _ => some "target-counters"
  | targetText _ => some "target-text"
  | transform x => some (Keyword.name x.name)
  | filter x => some (Keyword.name x.name)
  | math x => some (Keyword.name x.name)
  | anchorSize _ => some "anchor-size"
  | add _ => some "add"
  | alternateGlyph x => some (Keyword.name x.choice)
  | view _ => some "view"
  | scroll _ => some "scroll"
  | position _ => none

/-- Whether a value is a call of a function.  Older names of color functions count as well. -/
def matchesFunction (name : String) : Form V → Bool
  | color f => ColorSpace.ofFunction? name = some f.space
  | v => v.functionName?.any (Reader.sameName name)

/-- Whether a value stands for others that are known only later. -/
def isSubstitution : Form V → Bool
  | attr _ | env _ | var _ => true
  | _ => false

def isComma (v : Form V) : Bool := v.leaf? = some (.delimiter ',')

instance [Term V] : Printable (Form V) where
  print compact
    | leaf l => Printable.print compact l
    | color x => Printable.print compact x
    | colorMix x => Printable.print compact x
    | lightDark x => Printable.print compact x
    | deviceCmyk x => Printable.print compact x
    | linearGradient x => Printable.print compact x
    | radialGradient x => Printable.print compact x
    | conicGradient x => Printable.print compact x
    | imageSet x => Printable.print compact x
    | crossFade x => Printable.print compact x
    | element x => Printable.print compact x
    | paint x => Printable.print compact x
    | circle x => Printable.print compact x
    | ellipse x => Printable.print compact x
    | inset x => Printable.print compact x
    | rect x => Printable.print compact x
    | xywh x => Printable.print compact x
    | polygon x => Printable.print compact x
    | path x => Printable.print compact x
    | minmax x => Printable.print compact x
    | repetition x => Printable.print compact x
    | fitContent x => Printable.print compact x
    | cubicBezier x => Printable.print compact x
    | steps x => Printable.print compact x
    | linear x => Printable.print compact x
    | counter x => Printable.print compact x
    | counters x => Printable.print compact x
    | symbols x => Printable.print compact x
    | attr x => Printable.print compact x
    | env x => Printable.print compact x
    | var x => Printable.print compact x
    | leader x => Printable.print compact x
    | targetCounter x => Printable.print compact x
    | targetCounters x => Printable.print compact x
    | targetText x => Printable.print compact x
    | transform x => Printable.print compact x
    | filter x => Printable.print compact x
    | math x => Printable.print compact x
    | anchorSize x => Printable.print compact x
    | add x => Printable.print compact x
    | alternateGlyph x => Printable.print compact x
    | view x => Printable.print compact x
    | scroll x => Printable.print compact x
    | position x => Printable.print compact x

def ofSimpleColor : SimpleColor V → Form V
  | .plain c => leaf (.color c)
  | .function f => color f

/-- The function of a kind. -/
def readFunction [Term V] : Kind → Reader (Form V)
  | .url => (fun u => leaf (.url u)) <$> read
  | .color => ofSimpleColor <$> read
  | .colorMix => colorMix <$> read
  | .lightDark => lightDark <$> read
  | .deviceCmyk => deviceCmyk <$> read
  | .linearGradient => linearGradient <$> read
  | .radialGradient => radialGradient <$> read
  | .conicGradient => conicGradient <$> read
  | .imageSet => imageSet <$> read
  | .crossFade => crossFade <$> read
  | .element => element <$> read
  | .paint => paint <$> read
  | .circle => circle <$> read
  | .ellipse => ellipse <$> read
  | .inset => inset <$> read
  | .rect => rect <$> read
  | .xywh => xywh <$> read
  | .polygon => polygon <$> read
  | .path => path <$> read
  | .minmax => minmax <$> read
  | .repetition => repetition <$> read
  | .fitContent => fitContent <$> read
  | .cubicBezier => cubicBezier <$> read
  | .steps => steps <$> read
  | .linear => linear <$> read
  | .counter => counter <$> read
  | .counters => counters <$> read
  | .symbols => symbols <$> read
  | .attr => attr <$> read
  | .env => env <$> read
  | .var => var <$> read
  | .leader => leader <$> read
  | .targetCounter => targetCounter <$> read
  | .targetCounters => targetCounters <$> read
  | .targetText => targetText <$> read
  | .transform => transform <$> read
  | .filter => filter <$> read
  | .math => math <$> read
  | .anchorSize => anchorSize <$> read
  | .add => add <$> read
  | .alternateGlyph => alternateGlyph <$> read
  | .view => view <$> read
  | .scroll => scroll <$> read
  | _ => Reader.fail .invalidValue

/-- A single value.  Functions are known by their name and count as one level of nesting. -/
def readForm [Term V] : Reader (Form V) := fun c => do
  let (t, c') ← c.next
  match t with
  | .function n =>
    match functionKind? n with
    | some k => Reader.nested (readFunction k) c
    | none => .error ⟨.unknownFunction n, c.here⟩
  | t =>
    match Leaf.ofToken t with
    | .ok l => .ok (leaf l, c')
    | .error cause => .error ⟨cause, c.here⟩

instance [Term V] : Term (Form V) where
  read := readForm
  ofLeaf := leaf
  leaf? := leaf?
  kind := kind

end Form

/-- A value at the limit of nesting has no room for a function. -/
def Leaf.readLeaf : Reader Leaf := fun c => do
  let (t, c') ← c.next
  match t with
  | .function n =>
    if (functionKind? n).isSome then .error ⟨.invalidValue, c.here⟩
    else .error ⟨.unknownFunction n, c.here⟩
  | t =>
    match Leaf.ofToken t with
    | .ok l => .ok (l, c')
    | .error cause => .error ⟨cause, c.here⟩

instance : Term Leaf where
  read := Leaf.readLeaf
  ofLeaf := id
  leaf? := some
  kind := Leaf.kind

/-- The values in which functions nest at most `depth` deep. -/
def Nested : (depth : Nat) → Type
  | 0 => Leaf
  | n + 1 => Form (Nested n)

instance Nested.term : (depth : Nat) → Term (Nested depth)
  | 0 => inferInstanceAs (Term Leaf)
  | n + 1 =>
    have := Nested.term n
    inferInstanceAs (Term (Form (Nested n)))

/-- A value, of any depth that can be read. -/
abbrev Value := Form (Nested (Reader.nestingLimit - 1))

namespace Value

/-- The values of a declaration. -/
def listOfText (s : String) : Except Fault (List Value) :=
  (Sequence.read : Reader (List Value)).run s

/-- The text of a declaration. -/
def listText (compact : Bool) (vs : List Value) : String := (Sequence.print compact vs).render

end Value

namespace Kind

/-- The value of a kind that a whole text stands for.  Only composite kinds read in a way of their
own. -/
def valueOfText (k : Kind) (s : String) : Except Fault Value :=
  match k with
  | .position => .position <$> readText (Position _) s
  | .ratio => (.leaf <| .ratio ·) <$> readText Ratio s
  | _ => readText Value s

/-- A plain value of the kind. -/
def defaultValue? (k : Kind) : Option Value := do
  (k.valueOfText (← k.defaultText?)).toOption

end Kind

end StyleGrammar
