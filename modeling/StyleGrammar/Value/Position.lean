import StyleGrammar.Value.Calc

/-!
# Positions

A position in a box has a component along each axis: the center, an offset from the near side, or a
named side with an optional offset from it.  The components may be written in either order where
their words tell them apart.  The written form leaves out what reading puts back.
-/

namespace StyleGrammar

/-- The sides of the horizontal axis. -/
inductive HorizontalSide
  | left | right
  deriving DecidableEq, Repr, Inhabited

instance : Keyword HorizontalSide where
  all := [.left, .right]
  name | .left => "left" | .right => "right"

/-- The sides of the vertical axis. -/
inductive VerticalSide
  | top | bottom
  deriving DecidableEq, Repr, Inhabited

instance : Keyword VerticalSide where
  all := [.top, .bottom]
  name | .top => "top" | .bottom => "bottom"

/-- A place along an axis. -/
inductive AxisPosition (S V : Type)
  | center
  | offset (m : LengthPercentage V)
  | side (s : S) (offset? : Option (LengthPercentage V))
  deriving BEq, Repr, Inhabited

namespace AxisPosition

variable {S V : Type}

open Reader

instance [Readable S] [Term V] : Readable (AxisPosition S V) where
  read :=
    (fun _ => center) <$> keyword "center" <|> offset <$> read <|> do
      let s ← read
      return side s (← attempt read)

instance [Printable S] [Printable V] : Printable (AxisPosition S V) where
  print compact
    | center => Output.text "center"
    | offset m => Printable.print compact m
    | side s none => Printable.print compact s
    | side s (some m) =>
      Printable.print compact s ++ Output.char ' ' ++ Printable.print compact m

end AxisPosition

abbrev HorizontalPosition (V : Type) := AxisPosition HorizontalSide V

abbrev VerticalPosition (V : Type) := AxisPosition VerticalSide V

/-- A position in a box. -/
structure Position (V : Type) where
  x : HorizontalPosition V
  y : VerticalPosition V
  deriving BEq, Repr, Inhabited

namespace Position

variable {V : Type}

open Reader

def center : Position V := ⟨.center, .center⟩

def isCenter : Position V → Bool
  | ⟨.center, .center⟩ => true
  | _ => false

/-- The rest of a position that begins at the horizontal center. -/
def readAfterCenter [Term V] : Reader (Position V) := do
  match ← attempt read with
  | some y => return ⟨.center, y⟩
  | none =>
    match ← attempt read with
    | some x => return ⟨x, .center⟩
    | none => return center

/-- Behind a horizontal offset, only a vertical side without an offset may follow, or an offset. -/
def readAfterOffset [Term V] (m : LengthPercentage V) : Reader (Position V) := do
  match ← attempt read with
  | some s => return ⟨.offset m, .side s none⟩
  | none =>
    match ← attempt read with
    | some n => return ⟨.offset m, .offset n⟩
    | none =>
      let _ ← succeeds (keyword "center")
      return ⟨.offset m, .center⟩

/-- Behind a horizontal side, an offset that no vertical side follows is the vertical one. -/
def readAfterSide [Term V] (s : HorizontalSide) (offset? : Option (LengthPercentage V)) :
    Reader (Position V) := do
  if ← succeeds (keyword "center") then return ⟨.side s offset?, .center⟩
  match ← attempt read with
  | some t => return ⟨.side s offset?, .side t (← attempt read)⟩
  | none =>
    match offset? with
    | some m => return ⟨.side s none, .offset m⟩
    | none => return ⟨.side s none, .center⟩

/-- The horizontal component behind a vertical side, whose offset may come first. -/
def readHorizontal [Term V] : Reader (Option (LengthPercentage V) × HorizontalPosition V) := do
  let offset? ← attempt read
  match ← attempt read with
  | some s => return (offset?, .side s (← attempt read))
  | none =>
    keyword "center"
    return (offset?, .center)

instance [Term V] : Readable (Position V) where
  read := do
    let x? : Option (HorizontalPosition V) ← attempt read
    match x? with
    | some .center => readAfterCenter
    | some (.offset m) => readAfterOffset m
    | some (.side s offset?) => readAfterSide s offset?
    | none =>
      let t ← read
      match ← attempt readHorizontal with
      | some (offset?, x) => return ⟨x, .side t offset?⟩
      | none => return ⟨.center, .side t none⟩

instance [Printable V] : Printable (Position V) where
  print compact p :=
    match p.x, p.y with
    | .center, .center | .offset _, .center | .side _ none, .center =>
      Printable.print compact p.x
    | .center, .side _ none => Printable.print compact p.y
    | .side _ (some _), .offset _ =>
      Printable.print compact p.x ++ Output.text " top " ++ Printable.print compact p.y
    | _, _ => Printable.print compact p.x ++ Output.char ' ' ++ Printable.print compact p.y

end Position

end StyleGrammar
