import StyleGrammar.Value.Timeline

/-!
# Sizes of anchors
-/

namespace StyleGrammar

open Reader

/-- The dimension of an anchor. -/
inductive AnchorDimension
  | width | height | block | inline | selfBlock | selfInline
  deriving DecidableEq, Repr, Inhabited

instance : Keyword AnchorDimension where
  all := [.width, .height, .block, .inline, .selfBlock, .selfInline]
  name
    | .width => "width" | .height => "height" | .block => "block" | .inline => "inline"
    | .selfBlock => "self-block" | .selfInline => "self-inline"

/-- The size of an anchor, and what to take without one. -/
structure AnchorSize (V : Type) where
  anchor? : Option DashedIdent
  dimension? : Option AnchorDimension
  fallback? : Option (LengthPercentage V)
  deriving BEq, Repr, Inhabited

variable {V : Type}

/-- The fallback stands behind a comma, unless it is all there is. -/
instance [Term V] : Readable (AnchorSize V) where
  read := do
    functionNamed "anchor-size"
    Reader.block do
      let (anchor?, dimension?) ← readEitherOrder read read
      let wanted ←
        if anchor?.isSome || dimension?.isSome then succeeds comma else (!·) <$> atEnd
      let fallback? ← if wanted then some <$> read else pure none
      return ⟨anchor?, dimension?, fallback?⟩

instance [Printable V] : Printable (AnchorSize V) where
  print compact a :=
    let head := a.anchor?.toList.map (Printable.print compact) ++
      a.dimension?.toList.map (Printable.print compact)
    Output.call "anchor-size"
      (Output.separated (Output.char ' ') head ++
        match a.fallback? with
        | some f => (if head.isEmpty then [] else Output.comma compact) ++ Printable.print compact f
        | none => [])

end StyleGrammar
