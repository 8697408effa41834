import StyleGrammar.Value.Number

/-!
# Easing functions

How a change proceeds in time: along a curve, in steps, or between points.
-/

namespace StyleGrammar

open Reader

/-- A cubic curve through two control points. -/
structure CubicBezier where
  x1 : Single
  y1 : Single
  x2 : Single
  y2 : Single
  deriving BEq, DecidableEq, Repr, Inhabited

/-- Whether a value lies between zero and one. -/
def Single.inUnitInterval (v : Single) : Bool :=
  !v.isNaN && !v.isNegative && !Single.one.below v

/-- Time does not leave the interval of the change. -/
instance : Readable CubicBezier where
  read := do
    functionNamed "cubic-bezier"
    block do
      let l ← place
      let x1 : Single ← read
      comma
      let y1 ← read
      comma
      let x2 : Single ← read
      comma
      let y2 ← read
      if !(x1.inUnitInterval && x2.inUnitInterval) then failAt l .invalidValue
      return ⟨x1, y1, x2, y2⟩

instance : Printable CubicBezier where
  print compact c :=
    Output.call "cubic-bezier"
      (Output.separated (Output.comma compact)
        ([c.x1, c.y1, c.x2, c.y2].map (Printable.print compact)))

/-- Where the steps jump. -/
inductive StepPosition
  | start | finish | jumpStart | jumpEnd | jumpNone | jumpBoth
  deriving DecidableEq, Repr, Inhabited

instance : Keyword StepPosition where
  all := [.start, .finish, .jumpStart, .jumpEnd, .jumpNone, .jumpBoth]
  name
    | .start => "start" | .finish => "end" | .jumpStart => "jump-start" | .jumpEnd => "jump-end"
    | .jumpNone => "jump-none" | .jumpBoth => "jump-both"

/-- A number of steps. -/
structure Steps where
  count : Int
  position? : Option StepPosition
  deriving BEq, DecidableEq, Repr, Inhabited

namespace Steps

/-- The least number of steps: two if there is no jump at either end, else one. -/
def least (position? : Option StepPosition) : Int :=
  if position? = some .jumpNone then 2 else 1

def readPosition : Reader StepPosition := do
  comma
  read

instance : Readable Steps where
  read := do
    functionNamed "steps"
    block do
      let l ← place
      let count : Int ← read
      let position? ← attempt readPosition
      if count < least position? then failAt l .invalidValue
      return ⟨count, position?⟩

instance : Printable Steps where
  print compact s :=
    Output.call "steps"
      (Printable.print compact s.count ++
        match s.position? with
        | some p => Output.comma compact ++ Printable.print compact p
        | none => [])

end Steps

/-- A point of a piecewise linear change: the value reached, and the times at which it holds. -/
structure LinearStop where
  value : Single
  times : List Percentage
  deriving BEq, DecidableEq, Repr, Inhabited

/-- At most two times, of which one may stand in front. -/
instance : Readable LinearStop where
  read := do
    let before? : Option Percentage ← attempt read
    let value ← read
    let first? : Option Percentage ← if before?.isSome then pure before? else attempt read
    let second? : Option Percentage ← if first?.isSome then attempt read else pure none
    return ⟨value, first?.toList ++ second?.toList⟩

instance : Printable LinearStop where
  print compact s :=
    Printable.print compact s.value ++
      s.times.flatMap fun t => Output.char ' ' ++ Printable.print compact t

/-- A piecewise linear change. -/
structure Linear where
  stops : List LinearStop
  deriving BEq, DecidableEq, Repr, Inhabited

instance : Readable Linear where
  read := do
    functionNamed "linear"
    return ⟨← block (commaSeparated read)⟩

instance : Printable Linear where
  print compact l :=
    Output.call "linear"
      (Output.separated (Output.comma compact) (l.stops.map (Printable.print compact)))

end StyleGrammar
