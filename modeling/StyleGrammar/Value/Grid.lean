import StyleGrammar.Value.Sequence
import StyleGrammar.Value.Calc

/-!
# Grid tracks

The sizes of grid tracks, and their repetition.
-/

namespace StyleGrammar

open Reader

variable {V : Type}

/-- The breadth of a track. -/
inductive TrackBreadth (V : Type)
  | measure (m : LengthPercentage V)
  | flex (f : Flex)
  | minContent
  | maxContent
  | auto
  deriving BEq, Repr, Inhabited

namespace TrackBreadth

def ofName? (s : String) : Option (TrackBreadth V) :=
  if sameName s "auto" then some auto
  else if sameName s "min-content" then some minContent
  else if sameName s "max-content" then some maxContent
  else none

instance [Term V] : Readable (TrackBreadth V) where
  read := measure <$> read <|> flex <$> read <|> expect fun | .ident n => ofName? n | _ => none

instance [Printable V] : Printable (TrackBreadth V) where
  print compact
    | auto => Output.text "auto"
    | minContent => Output.text "min-content"
    | maxContent => Output.text "max-content"
    | measure m => Printable.print compact m
    | flex f => Printable.print compact f

def isFlex : TrackBreadth V → Bool
  | flex _ => true
  | _ => false

end TrackBreadth

/-- The bounds of a track's size. -/
structure MinMax (V : Type) where
  min : TrackBreadth V
  max : TrackBreadth V
  deriving BEq, Repr, Inhabited

/-- The lower bound cannot be a share of the free space. -/
instance [Term V] : Readable (MinMax V) where
  read := do
    functionNamed "minmax"
    block do
      let l ← place
      let min : TrackBreadth V ← read
      if min.isFlex then failAt l .invalidValue
      comma
      return ⟨min, ← read⟩

instance [Printable V] : Printable (MinMax V) where
  print compact m :=
    Output.call "minmax"
      (Printable.print compact m.min ++ Output.comma compact ++ Printable.print compact m.max)

/-- A size that fits the content up to a limit. -/
structure FitContent (V : Type) where
  limit : LengthPercentage V
  deriving BEq, Repr, Inhabited

instance [Term V] : Readable (FitContent V) where
  read := do
    functionNamed "fit-content"
    return ⟨← block read⟩

instance [Printable V] : Printable (FitContent V) where
  print compact f := Output.call "fit-content" (Printable.print compact f.limit)

/-- How often tracks are repeated. -/
inductive RepeatCount
  | times (n : Int)
  | autoFill
  | autoFit
  deriving BEq, DecidableEq, Repr, Inhabited

namespace RepeatCount

def ofName? (s : String) : Option RepeatCount :=
  if sameName s "auto-fill" then some autoFill
  else if sameName s "auto-fit" then some autoFit
  else none

instance : Readable RepeatCount where
  read := do
    let l ← place
    match ← attempt integer with
    | some n => if n < 1 then failAt l .invalidValue else return times n
    | none => expect fun | .ident n => ofName? n | _ => none

instance : Printable RepeatCount where
  print compact
    | autoFill => Output.text "auto-fill"
    | autoFit => Output.text "auto-fit"
    | times n => Printable.print compact n

end RepeatCount

/-- A track, or the names of the line before it. -/
inductive TrackListItem (V : Type)
  | lineNames (names : List CustomIdent)
  | track (v : V)
  deriving BEq, Repr, Inhabited

namespace TrackListItem

def isTrack : TrackListItem V → Bool
  | track _ => true
  | lineNames _ => false

instance [Term V] : Readable (TrackListItem V) where
  read := do
    if ← succeeds square then lineNames <$> block (many read) else track <$> read

instance [Printable V] : Printable (TrackListItem V) where
  print compact
    | lineNames ns =>
      Output.char '[' ++
        Output.separated (Output.char ' ') (ns.map (Printable.print compact)) ++ Output.char ']'
    | track v => Printable.print compact v

end TrackListItem

/-- Repeated tracks. -/
structure Repetition (V : Type) where
  count : RepeatCount
  tracks : List (TrackListItem V)
  deriving BEq, Repr, Inhabited

/-- At least one item has to be a track. -/
instance [Term V] : Readable (Repetition V) where
  read := do
    functionNamed "repeat"
    block do
      let count ← read
      comma
      let tracks : List (TrackListItem V) ← untilEnd read
      if tracks.all (!·.isTrack) then fail .invalidValue
      return ⟨count, tracks⟩

instance [Printable V] : Printable (Repetition V) where
  print compact r :=
    Output.call "repeat"
      (Printable.print compact r.count ++ Output.comma compact ++
        Output.separated (Output.char ' ') (r.tracks.map (Printable.print compact)))

end StyleGrammar
