import StyleGrammar.Value.Calc

/-!
# Timelines

Timelines that follow the scrolling of a container, or of a subject through one.
-/

namespace StyleGrammar

open Reader

/-- The axis that is scrolled. -/
inductive ScrollAxis
  | block | inline | x | y
  deriving DecidableEq, Repr, Inhabited

instance : Keyword ScrollAxis where
  all := [.block, .inline, .x, .y]
  name | .block => "block" | .inline => "inline" | .x => "x" | .y => "y"

/-- The container that is scrolled. -/
inductive Scroller
  | root | nearest | itself
  deriving DecidableEq, Repr, Inhabited

instance : Keyword Scroller where
  all := [.root, .nearest, .itself]
  name | .root => "root" | .nearest => "nearest" | .itself => "self"

/-- Two keywords or values in either order, each of them optional. -/
def readEitherOrder {α β : Type} (p : Reader α) (q : Reader β) :
    Reader (Option α × Option β) := do
  let a? ← attempt p
  let b? ← attempt q
  if a?.isSome then return (a?, b?) else return (← attempt p, b?)

/-- A timeline of scrolling. -/
structure Scroll where
  scroller? : Option Scroller
  axis? : Option ScrollAxis
  deriving BEq, DecidableEq, Repr, Inhabited

instance : Readable Scroll where
  read := do
    functionNamed "scroll"
    Reader.block do
      let (scroller?, axis?) ← readEitherOrder read read
      return ⟨scroller?, axis?⟩

instance : Printable Scroll where
  print compact s :=
    Output.call "scroll"
      (Output.separated (Output.char ' ')
        (s.scroller?.toList.map (Printable.print compact) ++
          s.axis?.toList.map (Printable.print compact)))

/-- A timeline of the way through a container, of which the ends can be moved. -/
structure View (V : Type) where
  axis? : Option ScrollAxis
  insets : List (LengthPercentageOrAuto V)
  deriving BEq, Repr, Inhabited

variable {V : Type}

/-- The axis may stand before the insets or behind them. -/
instance [Term V] : Readable (View V) where
  read := do
    functionNamed "view"
    Reader.block do
      let before? : Option ScrollAxis ← attempt read
      let insets : List (LengthPercentageOrAuto V) ← manyWithin read 2
      let axis? ← if before?.isNone && !insets.isEmpty then attempt read else pure before?
      return ⟨axis?, insets⟩

instance [Printable V] : Printable (View V) where
  print compact v :=
    Output.call "view"
      (Output.separated (Output.char ' ')
        (v.axis?.toList.map (Printable.print compact) ++
          v.insets.map (Printable.print compact)))

end StyleGrammar
