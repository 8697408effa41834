import StyleGrammar.Proofs.Nesting.Functions
import StyleGrammar.Proofs.Value.Delimiters
import StyleGrammar.Proofs.Value.Lawful

/-!
# Values keep within the limit and are formed

Of a text that is accepted, the blocks that count nest no deeper than the limit.
What it is read as is formed at every depth: brackets stand in pairs in every
sequence, the other delimiters are commas and slashes, and no value is a whole
position or ratio.
-/

namespace StyleGrammar

open Reader Component

/-- A leaf that stands among values: of the delimiters only those that separate, and no ratio. -/
def Leaf.Formed : Leaf → Prop
  | delimiter c => c = ',' ∨ c = '/'
  | ratio _ => False
  | _ => True

theorem Leaf.ofDimension?_ne_ratio (t : Token) (r : Ratio) :
    Leaf.ofDimension? t ≠ some (.ratio r) := by
  simp [Leaf.ofDimension?, Option.map_eq_map]

theorem Leaf.formed_of_ofToken {t : Token} {l : Leaf} (h : Leaf.ofToken t = .ok l) : l.Formed := by
  unfold Leaf.ofToken at h
  split at h
  case h_4 =>
    split at h
    next hdimension =>
      cases h
      cases l with
      | delimiter c => exact absurd hdimension (ofDimension?_ne_delimiter _ c)
      | ratio r => exact absurd hdimension (ofDimension?_ne_ratio _ r)
      | _ => trivial
    next => cases h
  case h_7 | h_8 => split at h <;> cases h; trivial
  case h_9 =>
    split at h
    next =>
      cases h
      trivial
    next => split at h <;> cases h <;> trivial
  case h_10 =>
    cases h
    exact .inl rfl
  case h_11 =>
    cases h
    exact .inr rfl
  all_goals cases h
  all_goals trivial

/-- What a token stands for is formed, and it is no level. -/
theorem Leaf.formed_of_next {free : Token → Bool} {c d : Cursor} {t : Token} {l : Leaf}
    (hc : c.Ready) (hnext : c.next = .ok (t, d)) (h : Leaf.ofToken t = .ok l) :
    l.Formed ∧ Passed free c d := by
  refine ⟨formed_of_ofToken h, ?_⟩
  cases stepped_next free hc hnext with
  | token _ hpassed => exact hpassed
  | opener e hopen =>
    rw [closer?_of_ofToken h] at hopen
    cases hopen

theorem Leaf.readsGood : ReadsGood Leaf.Formed := by
  intro free c v c' hc h
  change readLeaf c = _ at h
  cases hnext : c.next with
  | error e =>
    rw [readLeaf, hnext] at h
    cases h
  | ok x =>
    obtain ⟨t, d⟩ := x
    cases t with
    | function n =>
      unfold readLeaf at h
      rw [hnext] at h
      change (if (functionKind? n).isSome then (.error _ : Except Fault (Leaf × Cursor))
          else .error _) = _
        at h
      split at h <;> cases h
    | _ =>
      rw [readLeaf_eq hnext (by simp)] at h
      cases hl : Leaf.ofToken _ with
      | error cause =>
        rw [hl] at h
        cases h
      | ok l =>
        rw [hl] at h
        cases h
        exact formed_of_next hc hnext hl

namespace Form

variable {V : Type} [Term V] {good : V → Prop}

/-- The values inside a value are good, and the brackets of its sequences stand in pairs. -/
def Formed (good : V → Prop) : Form V → Prop
  | leaf l => l.Formed
  | color x => Color.Formed good (.function x)
  | colorMix x => Color.Formed good (.mix x)
  | lightDark x => Color.Formed good (.lightDark x)
  | deviceCmyk x => Color.Formed good (.deviceCmyk x)
  | linearGradient x => x.Formed good
  | radialGradient x => x.Formed good
  | conicGradient x => x.Formed good
  | imageSet x => Image.Formed good (.imageSet x.options)
  | crossFade x => Image.Formed good (.crossFade x.items)
  | paint x => x.Formed good
  | circle x => x.Formed good
  | ellipse x => x.Formed good
  | inset x => x.Formed good
  | rect x => x.Formed good
  | xywh x => x.Formed good
  | polygon x => x.Formed good
  | minmax x => x.Formed good
  | repetition x => x.Formed good
  | fitContent x => x.Formed good
  | counter x => x.Formed good
  | counters x => x.Formed good
  | symbols x => x.Formed good
  | attr x => x.Formed good
  | env x => x.Formed good
  | var x => x.Formed good
  | targetCounter x => x.Formed good
  | targetCounters x => x.Formed good
  | targetText x => x.Formed good
  | transform x => x.Formed good
  | filter x => x.Formed good
  | math x => x.Formed good
  | anchorSize x => x.Formed good
  | view x => x.Formed good
  | position _ => False
  | element _ | path _ | cubicBezier _ | steps _ | linear _ | leader _ | add _ | alternateGlyph _
  | scroll _ => True

/-- The function of a kind keeps within the limit, one level below. -/
theorem bounded_readFunction (hV : ReadsGood good) (k : Kind) :
    Bounded (fun _ => true) (Formed good) (readFunction k : Reader (Form V)) := by
  have hall := imagesFree_all
  cases k with
  | url => exact (bounded_url fun _ _ => rfl).map fun _ _ => trivial
  | color =>
    refine (SimpleColor.bounded_read hV).map fun x hx => ?_
    cases x with
    | plain c => exact trivial
    | function f => exact hx f rfl
  | colorMix => exact (ColorMix.bounded_read hV).map fun _ h => h
  | lightDark => exact (LightDark.bounded_read hV).map fun _ h => h
  | deviceCmyk => exact (DeviceCmyk.bounded_read hV).map fun _ h => h
  | linearGradient => exact (LinearGradient.bounded_read hV hall).map fun _ h => h
  | radialGradient => exact (RadialGradient.bounded_read hV hall).map fun _ h => h
  | conicGradient => exact (ConicGradient.bounded_read hV hall).map fun _ h => h
  | imageSet => exact (ImageSet.bounded_read hV hall).map fun _ h => h
  | crossFade => exact (CrossFade.bounded_read hV hall).map fun _ h => h
  | element => exact (Element.bounded_read hall).map fun _ _ => trivial
  | paint => exact (Paint.bounded_read hV hall).map fun _ h => h
  | circle => exact (Circle.bounded_read hV).map fun _ h => h
  | ellipse => exact (Ellipse.bounded_read hV).map fun _ h => h
  | inset => exact (InsetRect.bounded_read hV).map fun _ h => h
  | rect => exact (RectShape.bounded_read hV).map fun _ h => h
  | xywh => exact (Xywh.bounded_read hV).map fun _ h => h
  | polygon => exact (Polygon.bounded_read hV).map fun _ h => h
  | path => exact Path.bounded_read.map fun _ _ => trivial
  | minmax => exact (MinMax.bounded_read hV).map fun _ h => h
  | repetition => exact (Repetition.bounded_read hV).map fun _ h => h
  | fitContent => exact (FitContent.bounded_read hV).map fun _ h => h
  | cubicBezier => exact CubicBezier.bounded_read.map fun _ _ => trivial
  | steps => exact Steps.bounded_read.map fun _ _ => trivial
  | linear => exact Linear.bounded_read.map fun _ _ => trivial
  | counter => exact (Counter.bounded_read hV).map fun _ h => h
  | counters => exact (Counters.bounded_read hV).map fun _ h => h
  | symbols => exact (Symbols.bounded_read hV fun _ _ => rfl).map fun _ h => h
  | attr => exact (Attr.bounded_read hV fun _ _ => rfl).map fun _ h => h
  | env => exact (Env.bounded_read hV).map fun _ h => h
  | var => exact (Var.bounded_read hV).map fun _ h => h
  | leader => exact Leader.bounded_read.map fun _ _ => trivial
  | targetCounter => exact (TargetCounter.bounded_read hV).map fun _ h => h
  | targetCounters => exact (TargetCounters.bounded_read hV).map fun _ h => h
  | targetText => exact (TargetText.bounded_read hV).map fun _ h => h
  | transform => exact (Transform.bounded_read hV).map fun _ h => h
  | filter => exact (Filter.bounded_read hV).map fun _ h => h
  | math => exact (MathFunction.bounded_read hV).map fun _ h => h
  | anchorSize => exact (AnchorSize.bounded_read hV).map fun _ h => h
  | add => exact Add.bounded_read.map fun _ _ => trivial
  | alternateGlyph => exact AlternateGlyph.bounded_read.map fun _ _ => trivial
  | view => exact (View.bounded_read hV).map fun _ h => h
  | scroll => exact Scroll.bounded_read.map fun _ _ => trivial
  | _ => exact .fail _

theorem readsGood (hV : ReadsGood good) : ReadsGood (Formed good) := by
  intro free c v c' hc h
  change readForm c = _ at h
  cases hnext : c.next with
  | error e =>
    rw [readForm, hnext] at h
    cases h
  | ok x =>
    by_cases hfunction : ∃ n, x.1 = .function n
    · obtain ⟨n, hn⟩ := hfunction
      have hnext : c.next = .ok (.function n, x.2) := by rw [hnext, ← hn]
      cases hk : functionKind? n with
      | none =>
        rw [readForm_unknown hnext hk] at h
        cases h
      | some k =>
        rw [readForm_function hnext hk] at h
        exact (bounded_readFunction hV k).nested c v c' hc h
    · rw [readForm_token hnext (not_exists.mp hfunction)] at h
      cases hl : Leaf.ofToken x.1 with
      | error cause =>
        rw [hl] at h
        cases h
      | ok l =>
        rw [hl] at h
        cases h
        exact Leaf.formed_of_next hc hnext hl

end Form

namespace Nested

/-- A value of some depth that stands among others is formed, with the values inside it. -/
def Formed : (depth : Nat) → Nested depth → Prop
  | 0 => Leaf.Formed
  | n + 1 => Form.Formed (Nested.Formed n)

theorem readsGood (depth : Nat) : ReadsGood (Nested.Formed depth) := by
  induction depth with
  | zero => exact Leaf.readsGood
  | succ n ih => exact Form.readsGood ih

end Nested

namespace Value

/-- A value among the values of a text is formed. -/
def Formed : Value → Prop := Form.Formed (Nested.Formed (nestingLimit - 1))

theorem bounded_listOfText (free : Token → Bool) :
    Bounded free (Sequence.Bracketed Formed) (Sequence.read : Reader (List Value)) :=
  Sequence.bounded_read (Form.readsGood (Nested.readsGood _))

/-- What a text is read as is formed at every depth: brackets stand in pairs in every sequence, the
other delimiters are commas and slashes, and no value is a whole position or ratio. -/
theorem bracketed_of_listOfText {s : String} {vs : List Value} (h : listOfText s = .ok vs) :
    Sequence.Bracketed Formed vs :=
  ((bounded_listOfText fun _ => false).of_run h).1

theorem bracketed_fallback : ∃ vs : List Value,
    listOfText "[1 / 2] var(--x, [3], 4)" = .ok vs ∧ Sequence.Bracketed Formed vs := by
  have hread : (listOfText "[1 / 2] var(--x, [3], 4)").toOption.any (fun _ => true) = true := by
    decide +kernel
  obtain ⟨vs, hvs, -⟩ := exists_of_any hread
  exact ⟨vs, hvs, bracketed_of_listOfText hvs⟩

/-- The blocks of an accepted text that count nest no deeper than the limit. -/
theorem levels_le_of_listOfText {s : String} {vs : List Value} (h : listOfText s = .ok vs) :
    levelsAll (fun _ => false) (ofText s.toList) ≤ nestingLimit :=
  ((bounded_listOfText _).of_run h).2

theorem levels_image : ∃ vs : List Value,
    listOfText "[image-set(image-set(\"a\"))]" = .ok vs ∧
      levelsAll (fun _ => false) (ofText "[image-set(image-set(\"a\"))]".toList) ≤ nestingLimit ∧
      levelsAll (fun _ => false) (ofText "[image-set(image-set(\"a\"))]".toList) = 2 ∧
      depthAll (ofText "[image-set(image-set(\"a\"))]".toList) = 3 := by
  have hread : (listOfText "[image-set(image-set(\"a\"))]").toOption.any
      (fun _ => true) = true := by
    decide +kernel
  obtain ⟨vs, hvs, -⟩ := exists_of_any hread
  exact ⟨vs, hvs, levels_le_of_listOfText hvs, by decide +kernel, by decide +kernel⟩

/-- Where all blocks count, the limit holds for their depth. -/
theorem depth_le_of_counted {s : String} {vs : List Value} (h : listOfText s = .ok vs)
    (hcounted : CountedAll (fun _ => false) (ofText s.toList)) :
    depthAll (ofText s.toList) ≤ nestingLimit := by
  rw [← levelsAll_eq_depthAll hcounted]
  exact ((bounded_listOfText _).of_run h).2

/-- An image inside another, in as many brackets as there may be around one. -/
def imageInImage : List Char :=
  List.replicate 127 '[' ++ "image-set(image-set(\"a\"))".toList ++ List.replicate 127 ']'

/-- A text is accepted whose blocks nest deeper than the limit. -/
theorem not_depth_le_imageInImage :
    (∃ vs : List Value, listOfText (String.ofList imageInImage) = .ok vs) ∧
      nestingLimit < depthAll (ofText (String.ofList imageInImage).toList) := by
  have htext : Cursor.ofText (String.ofList imageInImage) =
      ⟨ofText imageInImage, .start, none, 0⟩ := by
    rw [Cursor.ofText, String.toList_ofList]
  have hread : (entirely (Sequence.read : Reader (List Value))
      ⟨ofText imageInImage, .start, none, 0⟩).toOption.any (fun _ => true) = true := by
    decide +kernel
  obtain ⟨x, hx, -⟩ := exists_of_any hread
  refine ⟨⟨x.1, ?_⟩, ?_⟩
  · rw [listOfText, Reader.run, htext, hx]
    rfl
  · rw [String.toList_ofList]
    decide +kernel

end Value

end StyleGrammar
