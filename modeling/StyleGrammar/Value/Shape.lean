import StyleGrammar.Value.Gradient

/-!
# Basic shapes

Rectangles, circles, ellipses, polygons and paths.  Four sides are written with as few components as
they can be restored from, and defaults are left out.
-/

namespace StyleGrammar

open Reader

/-- A value for each side. -/
structure Sides (α : Type) where
  top : α
  right : α
  bottom : α
  left : α
  deriving BEq, Repr, Inhabited

namespace Sides

variable {α : Type}

/-- One to four components; a missing side takes the value of the one opposite, or of the top. -/
instance [Readable α] : Readable (Sides α) where
  read := do
    let top ← read
    match ← attempt read with
    | none => return ⟨top, top, top, top⟩
    | some right =>
      match ← attempt read with
      | none => return ⟨top, right, top, right⟩
      | some bottom =>
        match ← attempt read with
        | none => return ⟨top, right, bottom, right⟩
        | some left => return ⟨top, right, bottom, left⟩

/-- The components that have to be written. -/
def components [BEq α] (s : Sides α) : List α :=
  let vertical := s.top == s.bottom
  let horizontal := s.right == s.left
  if vertical && horizontal && s.top == s.right then [s.top]
  else if vertical && horizontal then [s.top, s.right]
  else if horizontal then [s.top, s.right, s.bottom]
  else [s.top, s.right, s.bottom, s.left]

instance [BEq α] [Printable α] : Printable (Sides α) where
  print compact s := Color.words (s.components.map (Printable.print compact))

end Sides

/-- The radii of four corners, along each axis if they differ. -/
structure BorderRadius (V : Type) where
  horizontal : Sides (LengthPercentage V)
  vertical? : Option (Sides (LengthPercentage V))
  deriving BEq, Repr, Inhabited

variable {V : Type}

namespace BorderRadius

instance [Term V] : Readable (BorderRadius V) where
  read := do
    let horizontal ← read
    let vertical? ← if ← succeeds (delim '/') then some <$> read else pure none
    return ⟨horizontal, vertical?⟩

instance [Printable V] [BEq V] : Printable (BorderRadius V) where
  print compact r :=
    Printable.print compact r.horizontal ++
      match r.vertical? with
      | some v => Output.delim compact '/' true ++ Printable.print compact v
      | none => []

/-- Radii behind `round`. -/
def read? [Term V] : Reader (Option (BorderRadius V)) := do
  if ← succeeds (keyword "round") then some <$> read else return none

def print? [Printable V] [BEq V] (compact : Bool) : Option (BorderRadius V) → Output
  | some r => Output.text " round " ++ Printable.print compact r
  | none => []

end BorderRadius

/-- A rectangle given by the distances of its sides from those of the box. -/
structure InsetRect (V : Type) where
  sides : Sides (LengthPercentage V)
  radius? : Option (BorderRadius V)
  deriving BEq, Repr, Inhabited

instance [Term V] : Readable (InsetRect V) where
  read := do
    functionNamed "inset"
    block do
      let sides ← read
      return ⟨sides, ← BorderRadius.read?⟩

instance [Printable V] [BEq V] : Printable (InsetRect V) where
  print compact r :=
    Output.call "inset"
      (Printable.print compact r.sides ++ BorderRadius.print? compact r.radius?)

/-- A rectangle given by its sides, measured from the top and left of the box. -/
structure RectShape (V : Type) where
  edges : Sides (LengthPercentageOrAuto V)
  radius? : Option (BorderRadius V)
  deriving BEq, Repr, Inhabited

/-- All four sides are required. -/
instance [Term V] : Readable (RectShape V) where
  read := do
    functionNamed "rect"
    block do
      let top ← read
      let right ← read
      let bottom ← read
      let left ← read
      return ⟨⟨top, right, bottom, left⟩, ← BorderRadius.read?⟩

instance [Printable V] [BEq V] : Printable (RectShape V) where
  print compact r :=
    Output.call "rect"
      (Color.words ([r.edges.top, r.edges.right, r.edges.bottom, r.edges.left].map
        (Printable.print compact)) ++ BorderRadius.print? compact r.radius?)

/-- A rectangle given by its corner and its size. -/
structure Xywh (V : Type) where
  x : LengthPercentage V
  y : LengthPercentage V
  width : LengthPercentage V
  height : LengthPercentage V
  radius? : Option (BorderRadius V)
  deriving BEq, Repr, Inhabited

/-- Whether a measure is below zero as it is written; what a calculation gives is not known. -/
def Measure.isNegative : LengthPercentage V → Bool
  | .dimension d => d.value.isNegative
  | .percentage p => p.fraction.isNegative
  | .math _ => false

def readNonNegative [Term V] : Reader (LengthPercentage V) := do
  let l ← place
  let m : LengthPercentage V ← read
  if m.isNegative then failAt l .invalidValue
  return m

instance [Term V] : Readable (Xywh V) where
  read := do
    functionNamed "xywh"
    block do
      let x ← read
      let y ← read
      let width ← readNonNegative
      let height ← readNonNegative
      return ⟨x, y, width, height, ← BorderRadius.read?⟩

instance [Printable V] [BEq V] : Printable (Xywh V) where
  print compact r :=
    Output.call "xywh"
      (Color.words ([r.x, r.y, r.width, r.height].map (Printable.print compact)) ++
        BorderRadius.print? compact r.radius?)

/-- The radius of a circle or ellipse. -/
inductive ShapeRadius (V : Type)
  | measure (m : LengthPercentage V)
  | closestSide
  | farthestSide
  deriving BEq, Repr, Inhabited

namespace ShapeRadius

instance [Term V] : Readable (ShapeRadius V) where
  read :=
    measure <$> read <|> (fun _ => closestSide) <$> keyword "closest-side" <|>
      (fun _ => farthestSide) <$> keyword "farthest-side"

instance [Printable V] : Printable (ShapeRadius V) where
  print compact
    | measure m => Printable.print compact m
    | closestSide => Output.text "closest-side"
    | farthestSide => Output.text "farthest-side"

/-- A shape without a radius reaches to the closest side. -/
def isDefault : ShapeRadius V → Bool
  | closestSide => true
  | _ => false

end ShapeRadius

/-- The center of a shape behind `at`, or else the center of the box. -/
def readCenter [Term V] : Reader (Position V) := do
  if ← succeeds (keyword "at") then read else return .center

def printCenter [Printable V] (compact spaced : Bool) (p : Position V) : Output :=
  if p.isCenter then []
  else (if spaced then Output.char ' ' else []) ++ Output.text "at " ++ Printable.print compact p

/-- A circle. -/
structure Circle (V : Type) where
  radius : ShapeRadius V
  center : Position V
  deriving BEq, Repr, Inhabited

instance [Term V] : Readable (Circle V) where
  read := do
    functionNamed "circle"
    block do
      let radius? ← attempt read
      return ⟨radius?.getD .closestSide, ← readCenter⟩

instance [Printable V] : Printable (Circle V) where
  print compact c :=
    Output.call "circle"
      ((if c.radius.isDefault then [] else Printable.print compact c.radius) ++
        printCenter compact (!c.radius.isDefault) c.center)

/-- An ellipse. -/
structure Ellipse (V : Type) where
  radiusX : ShapeRadius V
  radiusY : ShapeRadius V
  center : Position V
  deriving BEq, Repr, Inhabited

/-- Both radii. -/
def readRadii [Term V] : Reader (ShapeRadius V × ShapeRadius V) := do
  let x ← read
  return (x, ← read)

instance [Term V] : Readable (Ellipse V) where
  read := do
    functionNamed "ellipse"
    block do
      let (x, y) := (← attempt readRadii).getD (.closestSide, .closestSide)
      return ⟨x, y, ← readCenter⟩

instance [Printable V] : Printable (Ellipse V) where
  print compact e :=
    let plain := e.radiusX.isDefault && e.radiusY.isDefault
    Output.call "ellipse"
      ((if plain then []
        else Printable.print compact e.radiusX ++ Output.char ' ' ++
          Printable.print compact e.radiusY) ++
        printCenter compact (!plain) e.center)

/-- Which points lie inside an outline that crosses itself. -/
inductive FillRule
  | nonzero | evenodd
  deriving DecidableEq, Repr, Inhabited

namespace FillRule

instance : Keyword FillRule where
  all := [.nonzero, .evenodd]
  name | .nonzero => "nonzero" | .evenodd => "evenodd"

/-- A rule and a comma, or the default. -/
def readOrDefault : Reader FillRule := do
  match ← attempt read with
  | some r => comma; return r
  | none => return nonzero

def printUnlessDefault (compact : Bool) : FillRule → Output
  | nonzero => []
  | r => Printable.print compact r ++ Output.comma compact

end FillRule

/-- A corner of a polygon. -/
structure Point (V : Type) where
  x : LengthPercentage V
  y : LengthPercentage V
  deriving BEq, Repr, Inhabited

instance [Term V] : Readable (Point V) where
  read := do
    let x ← read
    return ⟨x, ← read⟩

instance [Printable V] : Printable (Point V) where
  print compact p := Printable.print compact p.x ++ Output.char ' ' ++ Printable.print compact p.y

/-- A polygon. -/
structure Polygon (V : Type) where
  fillRule : FillRule
  points : List (Point V)
  deriving BEq, Repr, Inhabited

instance [Term V] : Readable (Polygon V) where
  read := do
    functionNamed "polygon"
    block do
      let rule ← FillRule.readOrDefault
      return ⟨rule, ← commaSeparated read⟩

instance [Printable V] : Printable (Polygon V) where
  print compact p :=
    Output.call "polygon"
      (FillRule.printUnlessDefault compact p.fillRule ++
        Output.separated (Output.comma compact) (p.points.map (Printable.print compact)))

/-- An outline described by a string. -/
structure Path where
  fillRule : FillRule
  path : Quotation
  deriving BEq, DecidableEq, Repr, Inhabited

instance : Readable Path where
  read := do
    functionNamed "path"
    block do
      let rule ← FillRule.readOrDefault
      return ⟨rule, ← read⟩

instance : Printable Path where
  print compact p :=
    Output.call "path"
      (FillRule.printUnlessDefault compact p.fillRule ++ Printable.print compact p.path)

end StyleGrammar
