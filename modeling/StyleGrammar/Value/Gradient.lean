import StyleGrammar.Value.Color.Basic
import StyleGrammar.Value.Position

/-!
# Gradients

A gradient runs along a line, outward from a point, or around one.  Its items are color stops and
hints between them.  A stop written with two positions is two stops of one color, and two stops of
one color that both have a position are written as one.
-/

namespace StyleGrammar

/-- A color at a place of the gradient, if it is given. -/
structure ColorStop (P V : Type) where
  color : Color V
  position? : Option P
  deriving BEq, Inhabited

inductive GradientItem (P V : Type)
  | stop (s : ColorStop P V)
  | hint (p : P)
  deriving BEq, Inhabited

namespace GradientItem

variable {P V : Type}

open Reader

def isStop : GradientItem P V → Bool
  | stop _ => true
  | hint _ => false

def isHint (i : GradientItem P V) : Bool := !i.isStop

/-- The stops of one color, with one position, two, or none. -/
def readStops [Readable P] [Term V] : Reader (List (GradientItem P V)) := do
  let color ← read
  let position? : Option P ← attempt read
  match ← attempt read with
  | some second => return [stop ⟨color, position?⟩, stop ⟨color, some second⟩]
  | none => return [stop ⟨color, position?⟩]

/-- What stands between two commas.  Only behind a stop may it be a hint. -/
def readEntry [Readable P] [Term V] (afterStop : Bool) : Reader (List (GradientItem P V)) := do
  if afterStop then
    if let some p ← attempt read then return [hint p]
  readStops

/-- At most `count + 1` entries between commas. -/
def readEntries [Readable P] [Term V] :
    (count : Nat) → (afterStop : Bool) → Reader (List (GradientItem P V))
  | 0, afterStop => untilComma (readEntry afterStop)
  | n + 1, afterStop => do
    let items ← untilComma (readEntry afterStop)
    if ← takeComma then
      return items ++ (← readEntries n (items.any isStop))
    else return items

/-- The items of a gradient: at least two stops, and none but a stop at the end. -/
def readAll [Readable P] [Term V] : Reader (List (GradientItem P V)) := do
  let items ← readEntries ((← get).rest.countP Component.isComma) false
  if items.countP isStop < 2 || items.getLast?.any isHint then fail .invalidValue
  return items

instance [Printable P] [Printable V] : Printable (GradientItem P V) where
  print compact
    | stop ⟨color, none⟩ => Printable.print compact color
    | stop ⟨color, some p⟩ =>
      Printable.print compact color ++ Output.char ' ' ++ Printable.print compact p
    | hint p => Printable.print compact p

/-- The second position of two stops that are written as one. -/
def merged? [BEq V] : Option (GradientItem P V) → GradientItem P V → Option P
  | some (stop ⟨c, some _⟩), stop ⟨c', some p⟩ => if c == c' then some p else none
  | _, _ => none

/-- The items behind some others, of which `last?` is the last unless it was merged already. -/
def printRest [Printable P] [Printable V] [BEq V] (compact : Bool) :
    (last? : Option (GradientItem P V)) → List (GradientItem P V) → Output
  | _, [] => []
  | last?, i :: is =>
    match merged? last? i with
    | some p => Output.char ' ' ++ Printable.print compact p ++ printRest compact none is
    | none => Output.comma compact ++ Printable.print compact i ++ printRest compact (some i) is

def printAll [Printable P] [Printable V] [BEq V] (compact : Bool) :
    List (GradientItem P V) → Output
  | [] => []
  | i :: is => Printable.print compact i ++ printRest compact (some i) is

end GradientItem

/-- The function of a gradient; its name says whether the gradient repeats. -/
def readGradientName (name : String) : Reader Bool :=
  Reader.expect fun
    | .function n =>
      if Reader.sameName n name then some false
      else if Reader.sameName n ("repeating-" ++ name) then some true
      else none
    | _ => none

def printGradient (name : String) (repeating : Bool) (arguments : Output) : Output :=
  (if repeating then Output.text "repeating-" else []) ++ Output.call name arguments

/-- Where the line of a gradient leads. -/
inductive LineDirection
  | angle (a : Angle)
  | horizontal (s : HorizontalSide)
  | vertical (s : VerticalSide)
  | corner (horizontal : HorizontalSide) (vertical : VerticalSide)
  deriving BEq, DecidableEq, Repr, Inhabited

namespace LineDirection

open Reader

/-- Sides or a corner, behind `to`. -/
def readTarget : Reader LineDirection := do
  keyword "to"
  let x? : Option HorizontalSide ← attempt read
  match x? with
  | some x =>
    let y? : Option VerticalSide ← attempt read
    match y? with
    | some y => return corner x y
    | none => return horizontal x
  | none =>
    let y ← read
    let x? : Option HorizontalSide ← attempt read
    match x? with
    | some x => return corner x y
    | none => return vertical y

instance : Readable LineDirection where
  read := angle <$> Angle.readWithZero <|> readTarget

instance : Printable LineDirection where
  print compact
    | angle a => Printable.print compact a
    | horizontal s => Output.text "to " ++ Printable.print compact s
    | vertical s => Output.text "to " ++ Printable.print compact s
    | corner h v =>
      Output.text "to " ++ Printable.print compact v ++ Output.char ' ' ++
        Printable.print compact h

/-- Without a direction a gradient leads down. -/
def isDefault : LineDirection → Bool
  | vertical .bottom => true
  | _ => false

end LineDirection

/-- A gradient along a line. -/
structure LinearGradient (V : Type) where
  repeating : Bool
  direction : LineDirection
  items : List (GradientItem (LengthPercentage V) V)
  deriving BEq, Inhabited

namespace LinearGradient

variable {V : Type}

open Reader

instance [Term V] : Readable (LinearGradient V) where
  read := do
    let repeating ← readGradientName "linear-gradient"
    block do
      let direction ← do
        match ← attempt read with
        | some d => comma; pure d
        | none => pure (LineDirection.vertical .bottom)
      return ⟨repeating, direction, ← GradientItem.readAll⟩

instance [Printable V] [BEq V] : Printable (LinearGradient V) where
  print compact g :=
    printGradient "linear-gradient" g.repeating
      ((if g.direction.isDefault then []
        else Printable.print compact g.direction ++ Output.comma compact) ++
        GradientItem.printAll compact g.items)

end LinearGradient

/-- How far a shape extends to the sides or corners of its box. -/
inductive ShapeExtent
  | closestSide | farthestSide | closestCorner | farthestCorner
  deriving DecidableEq, Repr, Inhabited

instance : Keyword ShapeExtent where
  all := [.closestSide, .farthestSide, .closestCorner, .farthestCorner]
  name
    | .closestSide => "closest-side" | .farthestSide => "farthest-side"
    | .closestCorner => "closest-corner" | .farthestCorner => "farthest-corner"

/-- The outline at which a radial gradient ends. -/
inductive EndingShape (V : Type)
  | circleRadius (r : Length)
  | circleExtent (e : ShapeExtent)
  | ellipseRadii (x y : LengthPercentage V)
  | ellipseExtent (e : ShapeExtent)
  deriving BEq, Repr, Inhabited

inductive ShapeKeyword
  | circle | ellipse
  deriving DecidableEq, Repr, Inhabited

instance : Keyword ShapeKeyword where
  all := [.circle, .ellipse]
  name | .circle => "circle" | .ellipse => "ellipse"

namespace EndingShape

variable {V : Type}

open Reader

/-- The shape that is meant without one. -/
def standard : EndingShape V := ellipseExtent .farthestCorner

def isStandard : EndingShape V → Bool
  | ellipseExtent .farthestCorner => true
  | _ => false

/-- One radius or two. -/
def readRadii [Term V] : Reader (LengthPercentage V × Option (LengthPercentage V)) := do
  let x ← read
  return (x, ← attempt read)

/-- The shape that a keyword, an extent and radii describe together. -/
def ofParts? : Option ShapeKeyword → Option ShapeExtent →
    Option (LengthPercentage V × Option (LengthPercentage V)) → Option (EndingShape V)
  | some .circle, none, some (.dimension r, none) => some (circleRadius r)
  | none, none, some (.dimension r, none) => some (circleRadius r)
  | some .ellipse, none, some (x, some y) => some (ellipseRadii x y)
  | none, none, some (x, some y) => some (ellipseRadii x y)
  | some .circle, e, none => some (circleExtent (e.getD .farthestCorner))
  | some .ellipse, e, none => some (ellipseExtent (e.getD .farthestCorner))
  | none, some e, none => some (ellipseExtent e)
  | _, _, _ => none

instance [Term V] : Readable (EndingShape V) where
  read := do
    let before? : Option ShapeKeyword ← attempt read
    let extent? : Option ShapeExtent ← attempt read
    let radii? ← if extent?.isSome then pure none else attempt readRadii
    let keyword? ← if before?.isSome then pure before? else attempt read
    match ofParts? keyword? extent? radii? with
    | some shape => return shape
    | none => fail .invalidValue

instance [Printable V] : Printable (EndingShape V) where
  print compact
    | circleRadius r => Printable.print compact r
    | circleExtent .farthestCorner => Output.text "circle"
    | circleExtent e => Output.text "circle" ++ Output.char ' ' ++ Printable.print compact e
    | ellipseRadii x y =>
      Printable.print compact x ++ Output.char ' ' ++ Printable.print compact y
    | ellipseExtent e => Printable.print compact e

end EndingShape

/-- The position behind `at`. -/
def readAt {V : Type} [Term V] : Reader (Position V) := do
  Reader.keyword "at"
  read

/-- What a gradient begins with, and where its center lies if that is not the center of its box. -/
def printPrelude {V : Type} [Printable V] (compact : Bool) (head : Output) (p : Position V) :
    Output :=
  (if head.isEmpty then []
    else head ++ if p.isCenter then Output.comma compact else Output.char ' ') ++
  if p.isCenter then []
  else Output.text "at " ++ Printable.print compact p ++ Output.comma compact

/-- A gradient outward from a point. -/
structure RadialGradient (V : Type) where
  repeating : Bool
  shape : EndingShape V
  position : Position V
  items : List (GradientItem (LengthPercentage V) V)
  deriving BEq, Inhabited

namespace RadialGradient

variable {V : Type}

open Reader

instance [Term V] : Readable (RadialGradient V) where
  read := do
    let repeating ← readGradientName "radial-gradient"
    block do
      let shape? ← attempt read
      let position? ← attempt readAt
      if shape?.isSome || position?.isSome then comma
      return ⟨repeating, shape?.getD .standard, position?.getD .center, ← GradientItem.readAll⟩

instance [Printable V] [BEq V] : Printable (RadialGradient V) where
  print compact g :=
    printGradient "radial-gradient" g.repeating
      (printPrelude compact
        (if g.shape.isStandard then [] else Printable.print compact g.shape) g.position ++
        GradientItem.printAll compact g.items)

end RadialGradient

/-- A gradient around a point. -/
structure ConicGradient (V : Type) where
  repeating : Bool
  angle : Angle
  position : Position V
  items : List (GradientItem (AnglePercentage V) V)
  deriving BEq, Inhabited

namespace ConicGradient

variable {V : Type}

open Reader

/-- Without an angle a gradient starts at the top. -/
def noAngle : Angle := ⟨Single.zero, .deg⟩

def readFrom : Reader Angle := do
  keyword "from"
  Angle.readWithZero

instance [Term V] : Readable (ConicGradient V) where
  read := do
    let repeating ← readGradientName "conic-gradient"
    block do
      let angle? ← attempt readFrom
      let position? ← attempt readAt
      if angle?.isSome || position?.isSome then comma
      return ⟨repeating, angle?.getD noAngle, position?.getD .center, ← GradientItem.readAll⟩

instance [Printable V] [BEq V] : Printable (ConicGradient V) where
  print compact g :=
    printGradient "conic-gradient" g.repeating
      (printPrelude compact
        (if g.angle == noAngle then [] else Output.text "from " ++ Printable.print compact g.angle)
        g.position ++
        GradientItem.printAll compact g.items)

end ConicGradient

/-- Any gradient. -/
inductive Gradient (V : Type)
  | linear (g : LinearGradient V)
  | radial (g : RadialGradient V)
  | conic (g : ConicGradient V)
  deriving BEq, Inhabited

namespace Gradient

variable {V : Type}

open Reader

instance [Term V] : Readable (Gradient V) where
  read := linear <$> read <|> radial <$> read <|> conic <$> read

instance [Printable V] [BEq V] : Printable (Gradient V) where
  print compact
    | linear g => Printable.print compact g
    | radial g => Printable.print compact g
    | conic g => Printable.print compact g

end Gradient

end StyleGrammar
