import StyleGrammar.Value.Name
import StyleGrammar.Value.Number

/-!
# Font functions

The choice of alternate glyphs, and the depth that is added in formulas.
-/

namespace StyleGrammar

open Reader

/-- The ways to choose alternate glyphs. -/
inductive GlyphChoice
  | stylistic | styleset | characterVariant | swash | ornament | annotated
  deriving DecidableEq, Repr, Inhabited

instance : Keyword GlyphChoice where
  all := [.stylistic, .styleset, .characterVariant, .swash, .ornament, .annotated]
  name
    | .stylistic => "stylistic" | .styleset => "styleset"
    | .characterVariant => "character-variant" | .swash => "swash" | .ornament => "ornament"
    | .annotated => "annotation"

/-- Whether several names can be given. -/
def GlyphChoice.isList (c : GlyphChoice) : Bool := c = .styleset || c = .characterVariant

/-- Named alternate glyphs. -/
structure AlternateGlyph where
  choice : GlyphChoice
  names : List CustomIdent
  deriving BEq, DecidableEq, Repr, Inhabited

instance : Readable AlternateGlyph where
  read := do
    let l ← place
    let choice ← expect fun | .function n => Keyword.ofName? GlyphChoice n | _ => none
    let names ← block (commaSeparated read)
    if !choice.isList && 1 < names.length then failAt l .invalidValue
    return ⟨choice, names⟩

instance : Printable AlternateGlyph where
  print compact g :=
    Output.call (Keyword.name g.choice)
      (Output.separated (Output.comma compact) (g.names.map (Printable.print compact)))

/-- A depth added to that of the parent. -/
structure Add where
  depth : Int
  deriving BEq, DecidableEq, Repr, Inhabited

instance : Readable Add where
  read := do
    functionNamed "add"
    return ⟨← block read⟩

instance : Printable Add where
  print compact a := Output.call "add" (Printable.print compact a.depth)

end StyleGrammar
