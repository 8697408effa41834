import StyleGrammar.Proofs.Value.Positions

/-!
# Gradients are read steadily
-/

namespace StyleGrammar

open Reader Output

variable {V : Type}

namespace GradientItem

variable {P : Type}

theorem eq_of_merged? [BEq V] {last? : Option (GradientItem P V)} {i : GradientItem P V} {p : P}
    (h : merged? last? i = some p) : ∃ color, i = .stop ⟨color, some p⟩ := by
  unfold merged? at h
  split at h
  · split at h
    · cases h
      exact ⟨_, rfl⟩
    · cases h
  · cases h

variable [Printable P]

/-- The color and the places of an item print solidly. -/
inductive Good [Printable V] : GradientItem P V → Prop
  | stop {color : Color V} {position? : Option P} (hcolor : PrintsSolid color)
      (hposition : ∀ p ∈ position?, PrintsSolid p) : Good (.stop ⟨color, position?⟩)
  | hint {p : P} (h : PrintsSolid p) : Good (.hint p)

section Printing

variable [Printable V]

theorem Good.neat {i : GradientItem P V} (h : i.Good) : PrintsNeat i := by
  intro compact
  cases h with
  | hint h => exact (h compact).neat
  | @stop color position? hcolor hposition =>
    cases position? with
    | none => exact (hcolor compact).neat
    | some p =>
      have := (hcolor compact).neat.append (trails_space (hposition p rfl compact).neat)
      rwa [← List.append_assoc] at this

variable [BEq V]

theorem trails_printRest (compact : Bool) (last? : Option (GradientItem P V))
    {is : List (GradientItem P V)} (h : ∀ i ∈ is, i.Good) :
    Trails (printRest compact last? is) := by
  induction is generalizing last? with
  | nil => exact trails_nil
  | cons i is ih =>
    obtain ⟨hi, his⟩ := List.forall_mem_cons.mp h
    rw [printRest]
    split
    · next p hp =>
      obtain ⟨color, rfl⟩ := eq_of_merged? hp
      cases hi with
      | stop _ hposition =>
        exact (trails_space (hposition p rfl compact).neat).append (ih none his)
    · exact (trails_comma compact (hi.neat compact)).append (ih (some i) his)

theorem neat_printAll (compact : Bool) {is : List (GradientItem P V)} (h : ∀ i ∈ is, i.Good)
    (hne : is ≠ []) : Neat (printAll compact is) := by
  cases is with
  | nil => exact absurd rfl hne
  | cons i is =>
    obtain ⟨hi, his⟩ := List.forall_mem_cons.mp h
    exact (hi.neat compact).append (trails_printRest compact (some i) his)

end Printing

section Reading

variable [Term V] {good : V → Prop} [Readable P]

abbrev AllGood (is : List (GradientItem P V)) : Prop := ∀ i ∈ is, i.Good

theorem steady_readStops (hV : Lawful V good) (hP : Steady PrintsSolid (read : Reader P)) :
    Steady AllGood (readStops : Reader (List (GradientItem P V))) := by
  apply (Color.steady_read hV).bind
  intro color hcolor
  apply hP.attempt.bind
  intro position? hposition
  refine hP.attemptBind (fun second hsecond => .pure ?_) (.pure ?_)
  · simpa [AllGood] using ⟨Good.stop hcolor hposition, Good.stop hcolor (by simpa using hsecond)⟩
  · simpa [AllGood] using Good.stop hcolor hposition

theorem steady_readEntry (hV : Lawful V good) (hP : Steady PrintsSolid (read : Reader P))
    (afterStop : Bool) :
    Steady AllGood (readEntry afterStop : Reader (List (GradientItem P V))) := by
  have hstops := steady_readStops hV hP
  refine .ite (fun _ => ?_) fun _ => hstops
  refine hP.attemptBind (fun p hp => .pure ?_) hstops
  simpa [AllGood] using Good.hint hp

theorem steady_readEntries (hV : Lawful V good) (hP : Steady PrintsSolid (read : Reader P))
    (count : Nat) (afterStop : Bool) :
    Steady AllGood (readEntries count afterStop : Reader (List (GradientItem P V))) := by
  induction count generalizing afterStop with
  | zero => exact (steady_readEntry hV hP afterStop).untilComma
  | succ n ih =>
    refine (steady_readEntry hV hP afterStop).untilComma.bind fun items hitems => ?_
    refine Twin.takeComma.whether ((ih _).bind fun more hmore => .pure ?_) (.pure hitems)
    exact List.forall_mem_append.mpr ⟨hitems, hmore⟩

/-- Items that make a gradient. -/
structure Made (is : List (GradientItem P V)) : Prop where
  good : AllGood is
  nonempty : is ≠ []
  read : ∃ c c', readAll c = .ok (is, c')

theorem steady_readAll (hV : Lawful V good) (hP : Steady PrintsSolid (read : Reader P)) :
    Steady Made (readAll : Reader (List (GradientItem P V))) := by
  have hitems : Steady (fun is => AllGood is ∧ is ≠ [])
      (readAll : Reader (List (GradientItem P V))) := by
    refine Twin.get fun c d hlike => ?_
    rw [hlike.rest.commas_eq]
    apply (steady_readEntries hV hP _ false).bind
    intro items hitems
    refine .unlessFail fun h => .pure ?_
    refine ⟨hitems, ?_⟩
    rintro rfl
    simp at h
  exact hitems.andRead.weaken fun is h => ⟨h.1.1, h.1.2, h.2⟩

end Reading

end GradientItem

/-- The two names of a gradient. -/
theorem solid_printGradient {name : String} (hname : isFunctionName name = true)
    (hrepeating : isFunctionName ("repeating-" ++ name) = true) (repeating : Bool) {o : Output}
    (h : Tidy o) : Solid (printGradient name repeating o) := by
  cases repeating with
  | false => exact solid_call hname h
  | true => exact (solid_call hrepeating h).of_chars (by simp [printGradient, call])

theorem twin_readGradientName (name : String) {r r' : List Component} :
    Twin (Front 125 r r') (Opened 126 r r') (fun _ => True) (readGradientName name)
      (readGradientName name) :=
  .expectAny _

/-! Gradients along a line. -/

namespace LineDirection

theorem prints (d : LineDirection) : PrintsNeat d := by
  intro compact
  have hto {o : Output} (h : Neat o) : Neat (text "to " ++ o) :=
    (neat_behindWord "to" (by decide) h).of_chars (by simp)
  cases d with
  | angle a => exact (prints_dimension a compact).neat
  | horizontal s => exact hto (prints_keyword s compact).neat
  | vertical s => exact hto (prints_keyword s compact).neat
  | corner h v =>
    have := hto ((prints_keyword v compact).neat.append
      (trails_space (prints_keyword h compact).neat))
    rwa [← List.append_assoc, ← List.append_assoc] at this

theorem steady_readTarget : Steady PrintsNeat readTarget := by
  have hx : Steady PrintsSolid (read : Reader HorizontalSide) := steady_keyword
  have hy : Steady PrintsSolid (read : Reader VerticalSide) := steady_keyword
  refine (steady_keywordNamed _).bind fun _ _ => hx.attemptBind (fun x _ => ?_) ?_
  · exact hy.attemptBind (fun y _ => .pure (prints _)) (.pure (prints _))
  · exact hy.bind fun y _ => hx.attemptBind (fun x _ => .pure (prints _)) (.pure (prints _))

theorem steady_read : Steady PrintsNeat (read : Reader LineDirection) :=
  .orElse (steady_angleWithZero.map fun _ _ => prints _) steady_readTarget

end LineDirection

namespace LinearGradient

open GradientItem (Made)

theorem prints [Term V] {g : LinearGradient V} (h : Made g.items) : PrintsSolid g := by
  obtain ⟨repeating, direction, items⟩ := g
  intro compact
  refine solid_printGradient (by decide) (by decide) repeating ?_
  have hitems := GradientItem.neat_printAll compact h.good h.nonempty
  split
  · exact hitems.1
  · have := (LineDirection.prints direction compact).append (trails_comma compact hitems)
    rw [← List.append_assoc] at this
    exact this.1

theorem steadyHead_made [Term V] {good : V → Prop} (hV : Lawful V good) :
    SteadyHead (fun g => Made g.items) (read : Reader (LinearGradient V)) := by
  refine fun r r' => (twin_readGradientName _).bind fun repeating _ => Twin.block ?_
  have hrest (direction : LineDirection) :
      Steady (fun g : LinearGradient V => Made g.items) (do
        return (⟨repeating, direction, ← GradientItem.readAll⟩ : LinearGradient V)) :=
    (GradientItem.steady_readAll hV (steady_lengthPercentage hV)).bind fun items h => .pure h
  exact LineDirection.steady_read.attemptBind
    (fun d _ => steady_comma.bind fun _ _ => hrest d) (hrest (.vertical .bottom))

theorem steadyHead_read [Term V] {good : V → Prop} (hV : Lawful V good) :
    SteadyHead PrintsSolid (read : Reader (LinearGradient V)) :=
  fun r r' => (steadyHead_made hV r r').weaken fun _ => prints

end LinearGradient

/-! Gradients around a point. -/

instance : PlainKeyword ShapeExtent := ⟨fun e => by cases e <;> decide⟩

instance : PlainKeyword ShapeKeyword := ⟨fun k => by cases k <;> decide⟩

theorem steady_readAt [Term V] {good : V → Prop} (hV : Lawful V good) :
    Steady Position.Good (readAt : Reader (Position V)) :=
  (steady_keywordNamed _).bind fun _ _ => Position.steady_read hV

/-- The head and the center of a gradient stand before its items. -/
theorem tidy_printPrelude [Printable V] (compact : Bool) {head : Output}
    {p : Position V} {o : Output}
    (hhead : head ≠ [] → Neat head) (hp : p.Good) (ho : Neat o) :
    Tidy (printPrelude compact head p ++ o) := by
  have hat : Neat (text "at " ++ print compact p ++ Output.comma compact ++ o) := by
    refine (neat_behindWord "at" (by decide)
      ((hp.neat compact).append (trails_comma compact ho))).of_chars ?_
    simp
  have htail (separator : Output) (h : p.isCenter = true → separator = Output.comma compact)
      (h' : p.isCenter = false → separator = char ' ') :
      Trails (separator ++ ((if p.isCenter then [] else text "at " ++ print compact p ++
        Output.comma compact) ++ o)) := by
    cases hcenter : p.isCenter with
    | true =>
      rw [h hcenter]
      exact trails_comma compact ho
    | false =>
      rw [h' hcenter]
      exact trails_space hat
  unfold printPrelude
  by_cases hnil : head = []
  · subst hnil
    cases p.isCenter with
    | true => exact ho.1
    | false => exact hat.1
  · have hempty : head.isEmpty = false := by simpa using hnil
    rw [hempty, List.append_assoc, if_neg (by simp), List.append_assoc]
    exact ((hhead hnil).append (htail _ (fun h => by rw [if_pos h]) fun h => by rw [h]; rfl)).1

namespace EndingShape

/-- The radii of a shape. -/
def radii : EndingShape V → List (LengthPercentage V)
  | circleRadius r => [.dimension r]
  | ellipseRadii x y => [x, y]
  | circleExtent _ | ellipseExtent _ => []

/-- The radii of a shape print solidly. -/
def Good [Printable V] (s : EndingShape V) : Prop := ∀ m ∈ s.radii, PrintsSolid m

theorem prints_circle [Printable V] (e : ShapeExtent) :
    PrintsNeat (circleExtent e : EndingShape V) := fun compact => by
  have hcircle : Neat (text "circle") := (solid_text (by decide)).neat
  have hboth : Neat (text "circle" ++ char ' ' ++ print compact e) := by
    rw [List.append_assoc]
    exact hcircle.append (trails_space (prints_keyword e compact).neat)
  cases e <;> first | exact hcircle | exact hboth

theorem Good.neat [Printable V] {s : EndingShape V} (h : s.Good) : PrintsNeat s := by
  cases s with
  | circleRadius r => exact fun compact => (h (.dimension r) (by simp [radii]) compact).neat
  | circleExtent e => exact prints_circle e
  | ellipseRadii x y =>
    intro compact
    have hx := (h x (by simp [radii]) compact).neat
    have := hx.append (trails_space (h y (by simp [radii]) compact).neat)
    rwa [← List.append_assoc] at this
  | ellipseExtent e => exact fun compact => (prints_keyword e compact).neat

theorem good_of_ofParts? [Printable V] {k? : Option ShapeKeyword} {e? : Option ShapeExtent}
    {radii? : Option (LengthPercentage V × Option (LengthPercentage V))}
    (hradii : ∀ r ∈ radii?, PrintsSolid r.1 ∧ ∀ y ∈ r.2, PrintsSolid y) {s : EndingShape V}
    (h : ofParts? k? e? radii? = some s) : s.Good := by
  unfold ofParts? at h
  split at h <;> cases h <;> simp only [Good, radii, List.forall_mem_cons, List.not_mem_nil,
    false_implies, implies_true, and_true]
  · exact (hradii _ rfl).1
  · exact (hradii _ rfl).1
  · exact ⟨(hradii _ rfl).1, (hradii _ rfl).2 _ rfl⟩
  · exact ⟨(hradii _ rfl).1, (hradii _ rfl).2 _ rfl⟩

variable [Term V] {good : V → Prop}

theorem steady_readRadii (hV : Lawful V good) :
    Steady (fun x => PrintsSolid x.1 ∧ ∀ y ∈ x.2, PrintsSolid y)
      (EndingShape.readRadii : Reader (LengthPercentage V × Option (LengthPercentage V))) := by
  apply (steady_lengthPercentage hV).bind
  intro _ hx
  apply (steady_lengthPercentage hV).attempt.bind
  intro _ hy
  exact .pure ⟨hx, hy⟩

theorem steady_ofParts (keyword? : Option ShapeKeyword) (extent? : Option ShapeExtent)
    {radii? : Option (LengthPercentage V × Option (LengthPercentage V))}
    (hradii : ∀ r ∈ radii?, PrintsSolid r.1 ∧ ∀ y ∈ r.2, PrintsSolid y) :
    Steady Good (do
      match ofParts? keyword? extent? radii? with
      | some shape => return shape
      | none => fail .invalidValue) := by
  cases h : ofParts? keyword? extent? radii? with
  | some shape => exact .pure (good_of_ofParts? hradii h)
  | none => exact .fail _

/-- The keyword may stand before the radii or behind them. -/
theorem steady_readLastKeyword (before? : Option ShapeKeyword) (extent? : Option ShapeExtent)
    {radii? : Option (LengthPercentage V × Option (LengthPercentage V))}
    (hradii : ∀ r ∈ radii?, PrintsSolid r.1 ∧ ∀ y ∈ r.2, PrintsSolid y) :
    Steady Good (do
      let keyword? : Option ShapeKeyword ← if before?.isSome then pure before? else attempt read
      match ofParts? keyword? extent? radii? with
      | some shape => return shape
      | none => fail .invalidValue) :=
  .ite (fun _ => steady_ofParts before? extent? hradii) fun _ =>
    steady_keyword.attempt.bind fun keyword? _ => steady_ofParts keyword? extent? hradii

theorem steady_read (hV : Lawful V good) : Steady Good (read : Reader (EndingShape V)) := by
  apply steady_keyword.attempt.bind
  intro before? _
  apply steady_keyword.attempt.bind
  intro extent? _
  exact .ite (fun _ => steady_readLastKeyword before? extent? (by simp)) fun _ =>
    (steady_readRadii hV).attempt.bind fun radii? hradii =>
      steady_readLastKeyword before? extent? hradii

end EndingShape

namespace RadialGradient

/-- The parts of a gradient print solidly, and its items make a gradient. -/
structure Good [Term V] (g : RadialGradient V) : Prop where
  shape : g.shape.Good
  position : g.position.Good
  items : GradientItem.Made g.items

theorem Good.prints [Term V] {g : RadialGradient V} (h : g.Good) : PrintsSolid g := by
  obtain ⟨hshape, hposition, hitems⟩ := h
  intro compact
  refine solid_printGradient (by decide) (by decide) g.repeating ?_
  refine tidy_printPrelude compact (fun hnil => ?_) hposition
    (GradientItem.neat_printAll compact hitems.good hitems.nonempty)
  split
  · next hstandard =>
    rw [if_pos hstandard] at hnil
    exact absurd rfl hnil
  · exact hshape.neat compact

theorem steadyHead_good [Term V] {good : V → Prop} (hV : Lawful V good) :
    SteadyHead Good (read : Reader (RadialGradient V)) := by
  refine fun r r' => (twin_readGradientName _).bind fun repeating _ => Twin.block ?_
  refine (EndingShape.steady_read hV).attempt.bind fun shape? hshape => ?_
  refine (steady_readAt hV).attempt.bind fun position? hposition => ?_
  refine .required steady_comma ((GradientItem.steady_readAll hV (steady_lengthPercentage hV)).bind
    fun items h => .pure ⟨?_, ?_, h⟩)
  · cases shape? with
    | some s => exact hshape s rfl
    | none => simp [EndingShape.standard, EndingShape.Good, EndingShape.radii]
  · cases position? with
    | some p => exact hposition p rfl
    | none => exact ⟨.center, .center⟩

theorem steadyHead_read [Term V] {good : V → Prop} (hV : Lawful V good) :
    SteadyHead PrintsSolid (read : Reader (RadialGradient V)) :=
  fun r r' => (steadyHead_good hV r r').weaken fun _ => Good.prints

end RadialGradient

namespace ConicGradient

/-- The parts of a gradient print solidly, and its items make a gradient. -/
structure Good [Term V] (g : ConicGradient V) : Prop where
  position : g.position.Good
  items : GradientItem.Made g.items

theorem Good.prints [Term V] {g : ConicGradient V} (h : g.Good) : PrintsSolid g := by
  obtain ⟨hposition, hitems⟩ := h
  intro compact
  refine solid_printGradient (by decide) (by decide) g.repeating ?_
  refine tidy_printPrelude compact (fun hnil => ?_) hposition
    (GradientItem.neat_printAll compact hitems.good hitems.nonempty)
  split
  · next hstandard =>
    rw [if_pos hstandard] at hnil
    exact absurd rfl hnil
  · refine (neat_behindWord "from" (by decide) (prints_dimension g.angle compact).neat).of_chars ?_
    simp

theorem steadyHead_good [Term V] {good : V → Prop} (hV : Lawful V good) :
    SteadyHead Good (read : Reader (ConicGradient V)) := by
  refine fun r r' => (twin_readGradientName _).bind fun repeating _ => Twin.block ?_
  have hangle : Steady PrintsSolid readFrom :=
    (steady_keywordNamed _).bind fun _ _ => steady_angleWithZero
  refine hangle.attempt.bind fun angle? _ => ?_
  refine (steady_readAt hV).attempt.bind fun position? hposition => ?_
  refine .required steady_comma ((GradientItem.steady_readAll hV (steady_anglePercentage hV)).bind
    fun items h => .pure ⟨?_, h⟩)
  cases position? with
  | some p => exact hposition p rfl
  | none => exact ⟨.center, .center⟩

theorem steadyHead_read [Term V] {good : V → Prop} (hV : Lawful V good) :
    SteadyHead PrintsSolid (read : Reader (ConicGradient V)) :=
  fun r r' => (steadyHead_good hV r r').weaken fun _ => Good.prints

end ConicGradient

theorem Gradient.steadyHead_read [Term V] {good : V → Prop} (hV : Lawful V good) :
    SteadyHead PrintsSolid (read : Reader (Gradient V)) := fun r r' =>
  .orElse ((LinearGradient.steadyHead_read hV r r').map fun _ h => h) <|
    .orElse ((RadialGradient.steadyHead_read hV r r').map fun _ h => h)
      ((ConicGradient.steadyHead_read hV r r').map fun _ h => h)

end StyleGrammar
