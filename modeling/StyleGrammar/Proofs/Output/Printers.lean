import StyleGrammar.Proofs.Output.Limits
import StyleGrammar.Value.Form

/-!
# No printer drops a refusal

Every type that can be written has a printer of its own, over the printers of its parts.  `PassesOn`
says of a type that the printer of its values passes refusals on.  It holds of the outputs that
write a piece, is kept by the ways of putting outputs together, and goes from the parts of a value
to the value; over calculations, colors and images by induction, and over values by the depth of
their functions.  So under a limit every value is either written as a whole or reported as refused.
-/

namespace StyleGrammar

namespace Output

variable {α : Type} {a b o : Output}

@[simp] theorem passesOn_nil : PassesOn [] := by
  intro p hp
  cases hp

@[simp] theorem passesOn_append : (a ++ b).PassesOn ↔ a.PassesOn ∧ b.PassesOn :=
  List.forall_mem_append

@[simp] theorem passesOn_flatMap {xs : List α} {f : α → Output} :
    PassesOn (xs.flatMap f) ↔ ∀ x ∈ xs, (f x).PassesOn := by
  constructor
  · intro h x hx p hp
    exact h p (List.mem_flatMap.mpr ⟨x, hx, hp⟩)
  · intro h p hp
    obtain ⟨x, hx, hp⟩ := List.mem_flatMap.mp hp
    exact h x hx p hp

@[simp] theorem passesOn_text (s : String) : (text s).PassesOn :=
  List.forall_mem_singleton.mpr (Step.passesOn_write _)

@[simp] theorem passesOn_char (c : Char) : (char c).PassesOn :=
  List.forall_mem_singleton.mpr (Step.passesOn_write _)

@[simp] theorem passesOn_space (compact : Bool) : (space compact).PassesOn := by
  cases compact <;> simp [space]

@[simp] theorem passesOn_delim (compact : Bool) (c : Char) (before : Bool) :
    (delim compact c before).PassesOn := by
  cases before <;> simp [delim]

@[simp] theorem passesOn_comma (compact : Bool) : (comma compact).PassesOn :=
  passesOn_delim compact ',' false

/-- Each escape is written apart from the characters around it. -/
theorem passesOn_escaped (escape : Char → List Char) (kept s : List Char) :
    (escaped escape kept s).PassesOn := by
  induction s generalizing kept with
  | nil => exact passesOn_text _
  | cons c s ih =>
    rw [escaped]
    split
    · exact ih (c :: kept)
    · simp [ih]

@[simp] theorem passesOn_escapedName (s : List Char) : (escapedName s).PassesOn :=
  passesOn_escaped _ _ _

@[simp] theorem passesOn_leading (s : List Char) : (leading s).PassesOn := by
  cases s with
  | nil => exact passesOn_nil
  | cons c s =>
    rw [leading]
    split <;> simp

@[simp] theorem passesOn_identifier (s : String) : (identifier s).PassesOn := by
  rw [identifier]
  unfold identifier.hyphened
  split <;> simp

@[simp] theorem passesOn_dashedIdentifier (s : String) : (dashedIdentifier s).PassesOn := by
  simp [dashedIdentifier]

@[simp] theorem passesOn_quoted (s : String) : (quoted s).PassesOn := by
  simp [quoted, passesOn_escaped]

@[simp] theorem passesOn_separated {os : List Output} (ho : o.PassesOn)
    (hos : ∀ a ∈ os, a.PassesOn) : (separated o os).PassesOn := by
  induction os with
  | nil => exact passesOn_nil
  | cons a os ih =>
    obtain ⟨ha, hos⟩ := List.forall_mem_cons.mp hos
    cases os with
    | nil => exact ha
    | cons b os =>
      rw [separated]
      · simp [ha, ho, ih hos]
      · simp

@[simp] theorem passesOn_words {os : List Output} (hos : ∀ a ∈ os, a.PassesOn) :
    (Color.words os).PassesOn :=
  passesOn_separated (passesOn_char ' ') hos

@[simp] theorem passesOn_call (name : String) : (call name o).PassesOn ↔ o.PassesOn := by
  simp [call]

/-! Numbers are written in parts, or put together in a buffer first. -/

@[simp] theorem passesOn_fraction (negative : Bool) (s : String) :
    (fraction negative s).PassesOn := by
  cases negative <;> simp [fraction]

@[simp] theorem passesOn_numericToken (v : Single) (integer : Bool) :
    (numericToken v integer).PassesOn := by
  unfold numericToken
  split <;> simp

@[simp] theorem passesOn_number (v : Single) (integral : Bool) : (number v integral).PassesOn := by
  unfold number
  split
  · simp
  · simp
  · split <;> simp

@[simp] theorem passesOn_dimension (v : Single) (unit : String) : (dimension v unit).PassesOn := by
  unfold dimension
  split <;> simp

end Output

open Output

/-- Types whose printer passes refusals on. -/
class PassesOn (α : Type) [Printable α] : Prop where
  passesOn : ∀ (compact : Bool) (a : α), (print compact a).PassesOn

attribute [simp] PassesOn.passesOn

/-! ## Leaves -/

instance (priority := low) {α : Type} [Keyword α] : PassesOn α where
  passesOn _ a := passesOn_text (Keyword.name a)

instance : PassesOn Single where
  passesOn _ v := passesOn_number v false

instance : PassesOn Int where
  passesOn _ n := passesOn_number (Single.ofInt n) true

instance : PassesOn Percentage where
  passesOn compact p := by
    unfold print instPrintablePercentage
    dsimp only
    split <;> simp

instance : PassesOn NumberOrPercentage where
  passesOn compact p := by
    unfold print instPrintableNumberOrPercentage
    cases p <;> simp

instance : PassesOn Ratio where
  passesOn compact r := by
    unfold print instPrintableRatio
    simp

instance {U : Type} [Keyword U] : PassesOn (Dimension U) where
  passesOn _ d := passesOn_dimension d.value (Keyword.name d.unit)

instance : PassesOn Ident where
  passesOn _ i := passesOn_identifier i.name

instance : PassesOn CustomIdent where
  passesOn _ i := passesOn_identifier i.name

instance : PassesOn DashedIdent where
  passesOn _ i := passesOn_dashedIdentifier i.name

instance : PassesOn Quotation where
  passesOn _ s := passesOn_quoted s.content

instance : PassesOn Url where
  passesOn compact u := by
    unfold print instPrintableUrl
    dsimp only
    split
    · split <;> simp
    · simp

instance : PassesOn Rgba where
  passesOn compact c := by
    have hpair (n : UInt8) : (Rgba.printPair n).PassesOn := by
      unfold Rgba.printPair
      split <;> simp
    unfold print instPrintableRgba
    dsimp only
    split <;> simp [hpair]

instance : PassesOn PlainColor where
  passesOn compact c := by
    unfold print instPrintablePlainColor
    cases c <;> simp

instance : PassesOn Leaf where
  passesOn compact l := by
    unfold print instPrintableLeaf
    cases l <;> simp

/-! ## Calculations and measures -/

namespace Calc

variable {V : Type} [Printable V]

theorem passesOn_parenthesized {o : Output} (wanted : Bool) (h : o.PassesOn) :
    (parenthesized wanted o).PassesOn := by
  cases wanted <;> simp [parenthesized, h]

mutual

theorem passesOn_print [PassesOn V] (compact : Bool) :
    (c : Calc V) → (print compact c).PassesOn
  | sum a b => by
    have hb := passesOn_parenthesized (b.level = .sum) (passesOn_print compact b)
    simp [print, additive, passesOn_print compact a, hb]
  | difference a b => by
    have hb := passesOn_parenthesized (b.level = .sum) (passesOn_print compact b)
    simp [print, additive, passesOn_print compact a, hb]
  | product a b => by
    have ha := passesOn_parenthesized (a.level = .sum) (passesOn_print compact a)
    have hb := passesOn_parenthesized (b.level != .operand) (passesOn_print compact b)
    simp [print, ha, hb]
  | quotient a b => by
    have ha := passesOn_parenthesized (a.level = .sum) (passesOn_print compact a)
    have hb := passesOn_parenthesized (b.level != .operand) (passesOn_print compact b)
    simp [print, ha, hb]
  | value v => by simp [print]
  | keyword k => by simp [print]
  | function f xs => by simp [print, passesOn_printAll compact xs]

theorem passesOn_printAll [PassesOn V] (compact : Bool) :
    (cs : List (Calc V)) → (printAll compact cs).PassesOn
  | [] => by simp [printAll]
  | [a] => by simp [printAll, passesOn_print compact a]
  | a :: b :: cs => by
    simp [printAll, passesOn_print compact a, passesOn_printAll compact (b :: cs)]

end

end Calc

section Measures

variable {D V : Type} [Printable D] [PassesOn D] [Printable V] [PassesOn V]

instance : PassesOn (MathFunction V) where
  passesOn compact f := Calc.passesOn_print compact (.function f.name f.arguments)

instance : PassesOn (Measure D V) where
  passesOn compact m := by
    unfold print Measure.instPrintable
    cases m <;> simp

instance : PassesOn (LengthPercentageOrAuto V) where
  passesOn compact m := by
    unfold print LengthPercentageOrAuto.instPrintable
    cases m <;> simp

end Measures

/-! ## Colors -/

namespace Color

variable {V : Type} [Printable V]

instance [PassesOn V] : PassesOn (ColorChannel V) where
  passesOn compact c := by
    unfold Printable.print ColorChannel.instPrintable
    cases c <;> simp

@[simp] theorem passesOn_printAlpha {α : Type} [Printable α] [PassesOn α] (compact : Bool)
    (a? : Option α) : (printAlpha compact a?).PassesOn := by
  cases a? <;> simp [printAlpha]

@[simp] theorem passesOn_printShare (compact : Bool) (p? : Option Percentage) :
    (printShare compact p?).PassesOn := by
  cases p? <;> simp [printShare]

mutual

theorem passesOn_print [PassesOn V] (compact : Bool) : (c : Color V) → (print compact c).PassesOn
  | plain c => by simp [print]
  | function f => by simp [print, passesOn_printFunction compact f]
  | mix m => by simp [print, passesOn_printMix compact m]
  | lightDark l => by simp [print, passesOn_printLightDark compact l]
  | deviceCmyk d => by simp [print, passesOn_printCmyk compact d]

theorem passesOn_printOrigin [PassesOn V] (compact : Bool) :
    (c? : Option (Color V)) → ∀ o ∈ printOrigin compact c?, o.PassesOn
  | some c => by simp [printOrigin, passesOn_print compact c]
  | none => by simp [printOrigin]

theorem passesOn_printFunction [PassesOn V] (compact : Bool) :
    (f : ColorFunction V) → (printFunction compact f).PassesOn
  | ⟨space, predefined?, origin?, channels, alpha?⟩ => by
    have hwords : (words (printOrigin compact origin? ++
        predefined?.toList.map identifier ++ channels.map (Printable.print compact))).PassesOn := by
      refine passesOn_words ?_
      simp only [List.forall_mem_append, List.forall_mem_map]
      refine ⟨⟨passesOn_printOrigin compact origin?, fun n _ => ?_⟩, fun c _ => ?_⟩
      · exact passesOn_identifier n
      · exact PassesOn.passesOn compact c
    rw [printFunction, passesOn_call, passesOn_append]
    exact ⟨hwords, passesOn_printAlpha compact alpha?⟩

theorem passesOn_printMix [PassesOn V] (compact : Bool) :
    (m : ColorMix V) → (printMix compact m).PassesOn
  | ⟨interpolation, first, firstShare?, second, secondShare?⟩ => by
    simp [printMix, passesOn_print compact first, passesOn_print compact second]

theorem passesOn_printLightDark [PassesOn V] (compact : Bool) :
    (l : LightDark V) → (printLightDark compact l).PassesOn
  | ⟨light, dark⟩ => by
    simp [printLightDark, passesOn_print compact light, passesOn_print compact dark]

theorem passesOn_printFallback [PassesOn V] (compact : Bool) :
    (c? : Option (Color V)) → (printFallback compact c?).PassesOn
  | some c => by simp [printFallback, passesOn_print compact c]
  | none => by simp [printFallback]

theorem passesOn_printCmyk [PassesOn V] (compact : Bool) :
    (d : DeviceCmyk V) → (printCmyk compact d).PassesOn
  | ⟨cyan, magenta, yellow, black, alpha?, fallback?⟩ => by
    simp [printCmyk, passesOn_printFallback compact fallback?]

end

end Color

section Colors

variable {V : Type} [Printable V] [PassesOn V]

instance : PassesOn (Color V) := ⟨Color.passesOn_print⟩

instance : PassesOn (ColorFunction V) := ⟨Color.passesOn_printFunction⟩

instance : PassesOn (ColorMix V) := ⟨Color.passesOn_printMix⟩

instance : PassesOn (LightDark V) := ⟨Color.passesOn_printLightDark⟩

instance : PassesOn (DeviceCmyk V) := ⟨Color.passesOn_printCmyk⟩

instance : PassesOn (SimpleColor V) where
  passesOn compact c := by
    unfold print SimpleColor.instPrintable
    cases c <;> simp

end Colors

/-! ## Positions and shapes -/

section Shapes

variable {S V : Type} [Printable S] [PassesOn S] [Printable V] [PassesOn V]

instance : PassesOn (AxisPosition S V) where
  passesOn compact p := by
    unfold print AxisPosition.instPrintable
    dsimp only
    split <;> simp

instance : PassesOn (Position V) where
  passesOn compact p := by
    unfold print Position.instPrintable
    dsimp only
    split <;> simp

@[simp] theorem passesOn_printCenter (compact spaced : Bool) (p : Position V) :
    (printCenter compact spaced p).PassesOn := by
  unfold printCenter
  split
  · simp
  · cases spaced <;> simp

instance : PassesOn (ShapeRadius V) where
  passesOn compact r := by
    unfold print ShapeRadius.instPrintable
    cases r <;> simp

instance : PassesOn (Circle V) where
  passesOn compact c := by
    unfold print instPrintableCircle
    dsimp only
    split <;> simp

instance : PassesOn (Ellipse V) where
  passesOn compact e := by
    unfold print instPrintableEllipse
    dsimp only
    split <;> simp

@[simp] theorem passesOn_printUnlessDefault (compact : Bool) (r : FillRule) :
    (r.printUnlessDefault compact).PassesOn := by
  cases r <;> simp [FillRule.printUnlessDefault]

instance : PassesOn (Point V) where
  passesOn compact p := by
    unfold print instPrintablePoint
    simp

instance : PassesOn (Polygon V) where
  passesOn compact p := by
    unfold print instPrintablePolygon
    simp

instance : PassesOn Path where
  passesOn compact p := by
    unfold print instPrintablePath
    simp

variable [BEq S] [BEq V]

instance : PassesOn (Sides S) where
  passesOn compact s := by
    unfold print Sides.instPrintableOfBEq
    simp

instance : PassesOn (BorderRadius V) where
  passesOn compact r := by
    unfold print BorderRadius.instPrintableOfBEq
    dsimp only
    split <;> simp

@[simp] theorem passesOn_printRadius (compact : Bool) (r? : Option (BorderRadius V)) :
    (BorderRadius.print? compact r?).PassesOn := by
  cases r? <;> simp [BorderRadius.print?]

instance : PassesOn (InsetRect V) where
  passesOn compact r := by
    unfold print instPrintableInsetRectOfBEq
    simp

instance : PassesOn (RectShape V) where
  passesOn compact r := by
    unfold print instPrintableRectShapeOfBEq
    simp

instance : PassesOn (Xywh V) where
  passesOn compact r := by
    unfold print instPrintableXywhOfBEq
    simp

end Shapes

/-! ## Gradients -/

section Gradients

variable {P V : Type} [Printable P] [PassesOn P] [Printable V] [PassesOn V]

instance : PassesOn (GradientItem P V) where
  passesOn compact i := by
    unfold print GradientItem.instPrintable
    dsimp only
    split <;> simp

instance : PassesOn LineDirection where
  passesOn compact d := by
    unfold print LineDirection.instPrintable
    cases d <;> simp

instance : PassesOn (EndingShape V) where
  passesOn compact s := by
    unfold print EndingShape.instPrintable
    dsimp only
    split <;> simp

theorem passesOn_printPrelude (compact : Bool) {head : Output} (h : head.PassesOn)
    (p : Position V) : (printPrelude compact head p).PassesOn := by
  unfold printPrelude
  split <;> split <;> simp [h]

theorem passesOn_printGradient (name : String) (repeating : Bool) {arguments : Output}
    (h : arguments.PassesOn) : (printGradient name repeating arguments).PassesOn := by
  cases repeating <;> simp [printGradient, h]

variable [BEq V]

theorem passesOn_printRest (compact : Bool) (last? : Option (GradientItem P V))
    (is : List (GradientItem P V)) : (GradientItem.printRest compact last? is).PassesOn := by
  induction is generalizing last? with
  | nil => exact passesOn_nil
  | cons i is ih =>
    rw [GradientItem.printRest]
    split <;> simp [ih]

@[simp] theorem passesOn_printItems (compact : Bool) (is : List (GradientItem P V)) :
    (GradientItem.printAll compact is).PassesOn := by
  cases is with
  | nil => exact passesOn_nil
  | cons i is => simp [GradientItem.printAll, passesOn_printRest]

instance : PassesOn (LinearGradient V) where
  passesOn compact g := by
    refine passesOn_printGradient "linear-gradient" g.repeating ?_
    split <;> simp

instance : PassesOn (RadialGradient V) where
  passesOn compact g := by
    refine passesOn_printGradient "radial-gradient" g.repeating ?_
    rw [passesOn_append]
    refine ⟨passesOn_printPrelude compact ?_ g.position, passesOn_printItems compact g.items⟩
    split <;> simp

instance : PassesOn (ConicGradient V) where
  passesOn compact g := by
    refine passesOn_printGradient "conic-gradient" g.repeating ?_
    rw [passesOn_append]
    refine ⟨passesOn_printPrelude compact ?_ g.position, passesOn_printItems compact g.items⟩
    split <;> simp

instance : PassesOn (Gradient V) where
  passesOn compact g := by
    unfold print Gradient.instPrintableOfBEq
    cases g <;> simp

end Gradients

/-! ## Sequences and the functions over them -/

section Sequences

variable {V : Type} [Term V] [PassesOn V]

@[simp] theorem passesOn_printFrom (compact spaced : Bool) (vs : List V) :
    (Sequence.printFrom compact spaced vs).PassesOn := by
  induction vs generalizing spaced with
  | nil => exact passesOn_nil
  | cons v vs ih =>
    have hgap : (if spaced then char ' ' else []).PassesOn := by cases spaced <;> simp
    rw [Sequence.printFrom]
    split <;> simp [ih, hgap]

@[simp] theorem passesOn_sequence (compact : Bool) (vs : List V) :
    (Sequence.print compact vs).PassesOn :=
  passesOn_printFrom compact false vs

@[simp] theorem passesOn_sequenceFallback (compact : Bool) (vs? : Option (List V)) :
    (Sequence.printFallback compact vs?).PassesOn := by
  unfold Sequence.printFallback
  split <;> simp

instance : PassesOn (Attr V) where
  passesOn compact a := by
    unfold print instPrintableAttrOfTerm
    dsimp only
    split <;> simp

instance : PassesOn (Env V) where
  passesOn compact e := by
    unfold print instPrintableEnvOfTerm
    simp

instance : PassesOn (Var V) where
  passesOn compact v := by
    unfold print instPrintableVarOfTerm
    simp

instance : PassesOn (Transform V) where
  passesOn compact t := by
    unfold print instPrintableTransformOfTerm
    simp

instance : PassesOn (Filter V) where
  passesOn compact f := by
    unfold print instPrintableFilterOfTerm
    simp

end Sequences

/-! ## Images -/

instance : PassesOn Element where
  passesOn compact e := by
    unfold print instPrintableElement
    simp

namespace Image

variable {V : Type} [Term V]

instance [PassesOn V] : PassesOn (Paint V) where
  passesOn compact p := by
    unfold Printable.print instPrintablePaintOfTerm
    dsimp only
    split <;> simp

@[simp] theorem passesOn_printFileType (t? : Option String) : (printFileType t?).PassesOn := by
  cases t? <;> simp [printFileType]

@[simp] theorem passesOn_printResolution (compact : Bool) (r? : Option Resolution) :
    (printResolution compact r?).PassesOn := by
  cases r? <;> simp [printResolution]

mutual

theorem passesOn_print [PassesOn V] (compact : Bool) : (i : Image V) → (print compact i).PassesOn
  | url u => by simp [print]
  | gradient g => by simp [print]
  | imageSet os => by simp [print, passesOn_printOptions compact os]
  | crossFade is => by simp [print, passesOn_printItems compact is]
  | element e => by simp [print]
  | paint p => by simp [print]

theorem passesOn_printOption [PassesOn V] (compact : Bool) :
    (o : ImageSetOption V) → (printOption compact o).PassesOn
  | ⟨i, r, t⟩ => by simp [printOption, passesOn_print compact i]

theorem passesOn_printItem [PassesOn V] (compact : Bool) :
    (i : CrossFadeItem V) → (printItem compact i).PassesOn
  | .image i s => by simp [printItem, passesOn_print compact i]
  | .color c s => by simp [printItem]

theorem passesOn_printOptions [PassesOn V] (compact : Bool) :
    (os : List (ImageSetOption V)) → (printOptions compact os).PassesOn
  | [] => by simp [printOptions]
  | [o] => by simp [printOptions, passesOn_printOption compact o]
  | o :: o' :: os => by
    simp [printOptions, passesOn_printOption compact o, passesOn_printOptions compact (o' :: os)]

theorem passesOn_printItems [PassesOn V] (compact : Bool) :
    (is : List (CrossFadeItem V)) → (printItems compact is).PassesOn
  | [] => by simp [printItems]
  | [i] => by simp [printItems, passesOn_printItem compact i]
  | i :: i' :: is => by
    simp [printItems, passesOn_printItem compact i, passesOn_printItems compact (i' :: is)]

end

end Image

section Images

variable {V : Type} [Term V] [PassesOn V]

instance : PassesOn (Image V) := ⟨Image.passesOn_print⟩

instance : PassesOn (ImageSet V) where
  passesOn compact s := Image.passesOn_print compact (.imageSet s.options)

instance : PassesOn (CrossFade V) where
  passesOn compact f := Image.passesOn_print compact (.crossFade f.items)

end Images

/-! ## Counters and generated content -/

section Counters

variable {V : Type} [Term V] [PassesOn V]

instance : PassesOn (CounterSymbol V) where
  passesOn compact s := by
    unfold print instPrintableCounterSymbolOfTerm
    cases s <;> simp

instance : PassesOn (Symbols V) where
  passesOn compact s := by
    unfold print instPrintableSymbolsOfTerm
    simp [or_imp, forall_and]

instance : PassesOn (CounterStyle V) where
  passesOn compact s := by
    unfold print CounterStyle.instPrintableOfTerm
    cases s <;> simp

@[simp] theorem passesOn_printStyle (compact : Bool) (s? : Option (CounterStyle V)) :
    (CounterStyle.print? compact s?).PassesOn := by
  cases s? <;> simp [CounterStyle.print?]

instance : PassesOn (Counter V) where
  passesOn compact c := by
    unfold print instPrintableCounterOfTerm
    simp

instance : PassesOn (Counters V) where
  passesOn compact c := by
    unfold print instPrintableCountersOfTerm
    simp

instance : PassesOn Leader where
  passesOn compact l := by
    unfold print Leader.instPrintable
    cases l <;> simp

instance : PassesOn (TargetUrl V) where
  passesOn compact u := by
    unfold print instPrintableTargetUrlOfTerm
    cases u <;> simp

instance : PassesOn (TargetCounter V) where
  passesOn compact c := by
    unfold print instPrintableTargetCounterOfTerm
    simp

instance : PassesOn (TargetCounters V) where
  passesOn compact c := by
    unfold print instPrintableTargetCountersOfTerm
    simp

instance : PassesOn (TargetText V) where
  passesOn compact t := by
    unfold print instPrintableTargetTextOfTerm
    dsimp only
    split <;> simp

end Counters

/-! ## Tracks, easing, timelines and fonts -/

section Tracks

variable {V : Type} [Printable V] [PassesOn V]

instance : PassesOn (TrackBreadth V) where
  passesOn compact b := by
    unfold print TrackBreadth.instPrintable
    cases b <;> simp

instance : PassesOn (MinMax V) where
  passesOn compact m := by
    unfold print instPrintableMinMax
    simp

instance : PassesOn (FitContent V) where
  passesOn compact f := by
    unfold print instPrintableFitContent
    simp

instance : PassesOn RepeatCount where
  passesOn compact n := by
    unfold print RepeatCount.instPrintable
    cases n <;> simp

instance : PassesOn (TrackListItem V) where
  passesOn compact i := by
    unfold print TrackListItem.instPrintable
    cases i <;> simp

instance : PassesOn (Repetition V) where
  passesOn compact r := by
    unfold print instPrintableRepetition
    simp

instance : PassesOn CubicBezier where
  passesOn compact c := by
    unfold print instPrintableCubicBezier
    simp

instance : PassesOn Steps where
  passesOn compact s := by
    unfold print Steps.instPrintable
    dsimp only
    split <;> simp

instance : PassesOn LinearStop where
  passesOn compact s := by
    unfold print instPrintableLinearStop
    simp

instance : PassesOn Linear where
  passesOn compact l := by
    unfold print instPrintableLinear
    simp

instance : PassesOn Scroll where
  passesOn compact s := by
    unfold print instPrintableScroll
    simp [or_imp, forall_and]

instance : PassesOn (View V) where
  passesOn compact v := by
    unfold print instPrintableView
    simp [or_imp, forall_and]

instance : PassesOn (AnchorSize V) where
  passesOn compact a := by
    have hhead : ((char ' ').separated (a.anchor?.toList.map (print compact) ++
        a.dimension?.toList.map (print compact))).PassesOn := by
      simp [or_imp, forall_and]
    unfold print instPrintableAnchorSize
    dsimp only
    split
    · split <;> simp [hhead]
    · simp [hhead]

instance : PassesOn AlternateGlyph where
  passesOn compact g := by
    unfold print instPrintableAlternateGlyph
    simp

instance : PassesOn Add where
  passesOn compact a := by
    unfold print instPrintableAdd
    simp

end Tracks

/-! ## Values -/

instance {V : Type} [Term V] [PassesOn V] : PassesOn (Form V) where
  passesOn compact v := by
    unfold print Form.instPrintableOfTerm
    cases v <;> simp

instance Nested.passesOn : (depth : Nat) → PassesOn (Nested depth)
  | 0 => inferInstanceAs (PassesOn Leaf)
  | n + 1 =>
    have := Nested.passesOn n
    inferInstanceAs (PassesOn (Form (Nested n)))

namespace Value

/-- Under a limit a value and a list of values are written as a whole, if there is room for their
text, and else reported as refused. -/
theorem print_within_limit (compact : Bool) (limit : Nat) :
    (∀ v : Value, PrintsWithin limit (print compact v) (textOf compact v)) ∧
      ∀ vs : List Value, PrintsWithin limit (Sequence.print compact vs) (listText compact vs) :=
  ⟨fun v => (PassesOn.passesOn compact v).printsWithin limit,
    fun vs => (passesOn_sequence compact vs).printsWithin limit⟩

end Value

end StyleGrammar
