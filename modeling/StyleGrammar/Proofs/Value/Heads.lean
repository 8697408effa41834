import StyleGrammar.Proofs.Reader.Heads
import StyleGrammar.Proofs.Value.Lawful

/-!
# What colors and measures begin with

A color is told apart from a length, an angle or a percentage by its first token.
-/

namespace StyleGrammar

open Reader Component

theorem Reader.SteadyHead.atHead {α : Type} {good : α → Prop} {p : Reader α}
    (h : SteadyHead good p) : AtHead good p := by
  intro r r' c d hfront
  refine (h r r' c d (hfront.mono (by decide))).mono ?_
  rintro a c' d' ⟨ha, hdone, hn⟩
  exact ⟨ha, hdone.opened, hn⟩

variable {V : Type} [Term V] {good : V → Prop}

/-! Colors. -/

/-- The tokens that colors begin with. -/
def beginsColor : Token → Bool
  | .function n =>
    sameName n "color-mix" || sameName n "light-dark" || sameName n "device-cmyk" ||
      (ColorSpace.ofFunction? n).isSome
  | .hash _ | .idHash _ => true
  | .ident n => PlainColor.isKeyword n
  | _ => false

namespace Color

theorem wants_readSimple (inner : Reader (Color V)) :
    Wants (beginsColor · = true) (readSimple inner) := by
  refine Wants.place fun l => Wants.next fun t c x hx => ?_
  cases t with
  | function n =>
    cases hspace : ColorSpace.ofFunction? n with
    | some space => simp [beginsColor, hspace]
    | none =>
      simp only [hspace] at hx
      cases hx
  | hash | idHash => rfl
  | ident n =>
    cases hname : PlainColor.ofName? n with
    | some c => simp [beginsColor, PlainColor.isKeyword, hname]
    | none =>
      simp only [PlainColor.ofToken?, hname] at hx
      cases hx
  | _ => cases hx

theorem wants_readWith (inner : Reader (Color V)) :
    Wants (beginsColor · = true) (readWith inner) := by
  have hcall {α : Type} {name : String}
      (hname : name = "color-mix" ∨ name = "light-dark" ∨ name = "device-cmyk")
      (f : Unit → Reader α) : Wants (beginsColor · = true) (functionNamed name >>= f) := by
    refine ((Wants.functionNamed name).bind f).mono ?_
    rintro t ⟨n, rfl, hn⟩
    rcases hname with rfl | rfl | rfl <;> simp [beginsColor, hn]
  refine Wants.nested (.orElse ?_ (.orElse ?_ (.orElse ?_ ?_)))
  · exact (hcall (.inl rfl) _).map _
  · exact (hcall (.inr (.inl rfl)) _).map _
  · exact (hcall (.inr (.inr rfl)) _).map _
  · exact (wants_readSimple inner).map _

theorem wants_read : Wants (beginsColor · = true) (read : Reader (Color V)) :=
  wants_readWith _

/-- A color of one token. -/
theorem takes_plain {n : Nat} (hn : n < nestingLimit) {t : Token} {c : PlainColor}
    (h : PlainColor.ofToken? t = some c) (inner : Reader (Color V)) {ls : List Component} :
    Takes (Ahead n (.token t .start :: ls)) (Stand n ls) (.plain c) (readWith inner) := by
  have hfunction : ∀ m, t ≠ .function m := by
    rintro m rfl
    cases h
  have hcall {α : Type} (name : String) (f : Unit → Reader α) :
      Fails (Ahead (n + 1) (.token t .start :: ls)) (functionNamed name >>= f) := by
    refine Fails.bind (fails_token ?_)
    split
    · next m => exact absurd rfl (hfunction m)
    · rfl
  have hsimple : Takes (Ahead (n + 1) (.token t .start :: ls))
      (Stand (n + 1) ls) (.inl c : PlainColor ⊕ ColorFunction V) (readSimple inner) := by
    refine Takes.place fun l => (takes_next t).bind ?_
    split
    · next m => exact absurd rfl (hfunction m)
    · simp only [h]
      exact .pure _
  exact Takes.nestedAhead hn ((Fails.map _ (hcall _ _)).orElse ((Fails.map _ (hcall _ _)).orElse
    ((Fails.map _ (hcall _ _)).orElse (hsimple.map _))))

theorem atHead_read (hV : Lawful V good) : AtHead PrintsSolid (read : Reader (Color V)) :=
  fun r r' => (twin_readWith hV (steady_readWithin hV _) r r').mono (fun _ => Made.prints)
    fun _ _ h => h.opened

end Color

/-! Measures. -/

/-- The tokens that lengths, angles, percentages and calculations begin with. -/
def beginsMeasure : Token → Bool
  | .function n => (Keyword.ofName? MathName n).isSome
  | .dimension .. | .number .. | .percentage .. => true
  | _ => false

/-- Values of one token, which is a number with a unit or without. -/
def OneNumber (D : Type) [Readable D] : Prop :=
  ∃ f : Token → Option D, (read : Reader D) = expect f ∧
    ∀ t, f t ≠ none → beginsMeasure t = true ∧ t.closer? = none

theorem Dimension.beginsMeasure_of_ofToken? {U : Type} [Keyword U] {t : Token}
    (h : (Dimension.ofToken? t : Option (Dimension U)) ≠ none) :
    beginsMeasure t = true ∧ t.closer? = none := by
  cases t with
  | dimension => exact ⟨rfl, rfl⟩
  | _ => exact absurd rfl h

theorem Length.oneNumber : OneNumber Length := by
  refine ⟨Length.ofToken?, rfl, fun t ht => ?_⟩
  cases t with
  | number => exact ⟨rfl, rfl⟩
  | _ => exact Dimension.beginsMeasure_of_ofToken? ht

theorem Angle.oneNumber : OneNumber Angle :=
  ⟨Dimension.ofToken?, rfl, fun _ => Dimension.beginsMeasure_of_ofToken?⟩

namespace Measure

variable {D : Type} [Readable D]

theorem wants_math : Wants (beginsMeasure · = true) (read : Reader (MathFunction V)) := by
  change Wants _ (Calc.readFunction _)
  unfold Calc.readFunction
  refine Wants.bind (Wants.expect fun t ht => ?_) _
  cases t with
  | function n => exact Option.isSome_iff_ne_none.mpr ht
  | _ => exact absurd rfl ht

theorem wants_read (hD : OneNumber D) :
    Wants (beginsMeasure · = true) (read : Reader (Measure D V)) := by
  obtain ⟨f, hread, hf⟩ := hD
  refine .orElse (wants_math.map _) (.orElse ?_ (.orElse ?_ .failNext))
  · rw [hread]
    exact (Wants.expect fun t ht => (hf t ht).1).map _
  · refine ((Wants.expect fun t ht => ?_).map Percentage.mk).map percentage
    cases t with
    | percentage => rfl
    | _ => exact absurd rfl ht

theorem atHead_read (hV : Lawful V good) (hD : OneNumber D) :
    AtHead (fun _ => True) (read : Reader (Measure D V)) := by
  obtain ⟨f, hread, -⟩ := hD
  intro r r'
  refine .orElse ?_ (.orElse ?_ (.orElse ?_ ?_))
  · exact ((MathFunction.steadyHead_read hV).atHead r r').map fun _ _ => trivial
  · rw [hread]
    exact (atHead_expect f r r').map fun _ _ => trivial
  · have hpercentage : AtHead (fun _ => True) (read : Reader Percentage) := fun r r' =>
      (atHead_expect _ r r').map fun _ _ => trivial
    exact (hpercentage r r').map fun _ _ => trivial
  · exact Twin.next.bind fun _ _ => .fail _

/-- A measure of one token. -/
theorem takes_dimension {f : Token → Option D} (hread : (read : Reader D) = expect f) {t : Token}
    (hfunction : ∀ m, t ≠ .function m) {d : D} (h : f t = some d) {n : Nat} {ls : List Component} :
    Takes (Ahead n (.token t .start :: ls)) (Stand n ls) (.dimension d : Measure D V) read := by
  have hmath : Fails (Ahead n (.token t .start :: ls)) (read : Reader (MathFunction V)) := by
    change Fails _ (Calc.readFunction _)
    unfold Calc.readFunction
    refine Fails.bind (fails_token ?_)
    split
    · next m => exact absurd rfl (hfunction m)
    · rfl
  refine (Fails.map _ hmath).orElse (Takes.orElse (Takes.map dimension ?_))
  rw [hread]
  exact takes_token h

/-- No token begins both a measure and a color. -/
theorem not_beginsColor {t : Token} (h : beginsMeasure t = true) : ¬ beginsColor t = true := by
  cases t with
  | function n =>
    obtain ⟨f, hf⟩ := Option.isSome_iff_exists.mp
      (show (Keyword.ofName? MathName n).isSome = true from h)
    have hname : (Keyword.name f).toLower = n.toLower := by
      simpa [sameName] using List.find?_some hf
    have hcolor : beginsColor (.function n) = beginsColor (.function (Keyword.name f)) := by
      unfold beginsColor ColorSpace.ofFunction? Keyword.ofName? sameName
      dsimp only
      rw [hname]
    have hall : ((Keyword.all : List MathName).all fun f =>
        !beginsColor (.function (Keyword.name f))) = true := by decide +kernel
    simpa [hcolor] using List.all_eq_true.mp hall f (Form.mathName_mem_all f)
  | dimension | number | percentage => simp [beginsColor]
  | _ => cases h

theorem stopsAtComma_read (hV : Lawful V good) (hD : OneNumber D) :
    StopsAtComma (read : Reader (Measure D V)) :=
  (atHead_read hV hD).stopsAtComma (wants_read hD) (by simp [beginsMeasure])

end Measure

/-! Positions. -/

theorem stopsAtComma_keyword {α : Type} [Keyword α] : StopsAtComma (read : Reader α) :=
  stopsAtComma_expect rfl

theorem stopsAtComma_named (name : String) : StopsAtComma (keyword name) :=
  stopsAtComma_expect rfl

theorem AxisPosition.stopsAtComma_read (hV : Lawful V good) {S : Type} [Keyword S] :
    StopsAtComma (read : Reader (AxisPosition S V)) := by
  intro ls
  have hmeasure := Measure.stopsAtComma_read hV Length.oneNumber ls
  refine .orElse ?_ (.orElse ?_ ?_)
  · exact (stopsAtComma_named _ ls).map fun _ _ => trivial
  · exact hmeasure.map fun _ _ => trivial
  · exact (stopsAtComma_keyword ls).bind fun s _ => hmeasure.attempt.bind fun m? _ => .pure trivial

namespace Position

theorem stopsAtComma_readAfterCenter (hV : Lawful V good) :
    StopsAtComma (readAfterCenter : Reader (Position V)) := fun ls =>
  (AxisPosition.stopsAtComma_read hV ls).attemptBind (fun _ _ => .pure trivial)
    ((AxisPosition.stopsAtComma_read hV ls).attemptBind (fun _ _ => .pure trivial) (.pure trivial))

theorem stopsAtComma_readAfterOffset (hV : Lawful V good) (m : LengthPercentage V) :
    StopsAtComma (readAfterOffset m) := by
  intro ls
  refine (stopsAtComma_keyword ls).attemptBind (fun s _ => .pure trivial) ?_
  refine (Measure.stopsAtComma_read hV Length.oneNumber ls).attemptBind
    (fun n _ => .pure trivial) ?_
  exact (stopsAtComma_named _ ls).succeeds.bind fun _ _ => .pure trivial

theorem stopsAtComma_readAfterSide (hV : Lawful V good) (s : HorizontalSide)
    (offset? : Option (LengthPercentage V)) : StopsAtComma (readAfterSide s offset?) := by
  intro ls
  refine (stopsAtComma_named _ ls).succeeds.whether (.pure trivial) ?_
  refine (stopsAtComma_keyword ls).attemptBind (fun t _ => ?_) ?_
  · exact (Measure.stopsAtComma_read hV Length.oneNumber ls).attempt.bind fun n? _ => .pure trivial
  · cases offset? with
    | some m => exact .pure trivial
    | none => exact .pure trivial

theorem stopsAtComma_readHorizontal (hV : Lawful V good) :
    StopsAtComma
      (readHorizontal : Reader (Option (LengthPercentage V) × HorizontalPosition V)) := by
  intro ls
  have hmeasure := Measure.stopsAtComma_read hV Length.oneNumber ls
  refine hmeasure.attempt.bind fun offset? _ =>
    (stopsAtComma_keyword ls).attemptBind (fun s _ => ?_) ?_
  · exact hmeasure.attempt.bind fun m? _ => .pure trivial
  · exact (stopsAtComma_named _ ls).bind fun _ _ => .pure trivial

/-- A position ends where a comma stands. -/
theorem stopsAtComma_read (hV : Lawful V good) : StopsAtComma (read : Reader (Position V)) := by
  intro ls
  refine (AxisPosition.stopsAtComma_read hV ls).attemptBind (fun x _ => ?_) ?_
  · cases x with
    | center => exact stopsAtComma_readAfterCenter hV ls
    | offset m => exact stopsAtComma_readAfterOffset hV m ls
    | side s offset? => exact stopsAtComma_readAfterSide hV s offset? ls
  · refine (stopsAtComma_keyword ls).bind fun t _ =>
      (stopsAtComma_readHorizontal hV ls).attemptBind (fun x _ => ?_) ?_
    · exact .pure trivial
    · exact .pure trivial

end Position

end StyleGrammar
