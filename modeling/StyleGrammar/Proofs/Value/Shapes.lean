import StyleGrammar.Proofs.Value.Gradients

/-!
# Shapes are read steadily
-/

namespace StyleGrammar

open Reader Output

variable {V : Type}

namespace Sides

variable {α : Type} [Printable α]

structure Good (s : Sides α) : Prop where
  top : PrintsSolid s.top
  right : PrintsSolid s.right
  bottom : PrintsSolid s.bottom
  left : PrintsSolid s.left

/-- The four sides, in the order in which they are written. -/
def all {α : Type} (s : Sides α) : List α := [s.top, s.right, s.bottom, s.left]

omit [Printable α] in
/-- As few components are written as there are sides to tell apart. -/
theorem components_cases [BEq α] (s : Sides α) :
    (s.components = [s.top] ∧
        (s.top == s.bottom) = true ∧ (s.right == s.left) = true ∧ (s.top == s.right) = true) ∨
      (s.components = [s.top, s.right] ∧
        (s.top == s.bottom) = true ∧ (s.right == s.left) = true ∧ (s.top == s.right) = false) ∨
      (s.components = [s.top, s.right, s.bottom] ∧
        (s.top == s.bottom) = false ∧ (s.right == s.left) = true) ∨
      s.components = [s.top, s.right, s.bottom, s.left] ∧ (s.right == s.left) = false := by
  unfold components
  cases s.top == s.bottom <;> cases s.right == s.left <;> cases s.top == s.right <;> simp

omit [Printable α] in
theorem mem_all_of_mem_components [BEq α] {s : Sides α} {x : α} (hx : x ∈ s.components) :
    x ∈ s.all := by
  rcases s.components_cases with ⟨h, -⟩ | ⟨h, -⟩ | ⟨h, -⟩ | ⟨h, -⟩ <;> rw [h] at hx <;>
    simp only [List.mem_cons, List.not_mem_nil, or_false] at hx <;>
    simp only [all, List.mem_cons, List.not_mem_nil, or_false] <;> tauto

omit [Printable α] in
theorem components_ne_nil [BEq α] (s : Sides α) : s.components ≠ [] := by
  rcases s.components_cases with ⟨h, -⟩ | ⟨h, -⟩ | ⟨h, -⟩ | ⟨h, -⟩ <;> simp [h]

theorem Good.of_mem {s : Sides α} (h : s.Good) {x : α} (hx : x ∈ s.all) : PrintsSolid x := by
  obtain ⟨htop, hright, hbottom, hleft⟩ := h
  simp only [all, List.mem_cons, List.not_mem_nil, or_false] at hx
  rcases hx with rfl | rfl | rfl | rfl <;> assumption

theorem Good.neat [BEq α] {s : Sides α} (h : s.Good) : PrintsNeat s := by
  intro compact
  refine neat_separatedPrints separates_space compact (fun x hx => ?_) s.components_ne_nil
  exact fun compact => (h.of_mem (mem_all_of_mem_components hx) compact).neat

theorem steady_read [Readable α] (h : Steady PrintsSolid (read : Reader α)) :
    Steady Good (read : Reader (Sides α)) := by
  refine h.bind fun top htop => h.attemptBind (fun right hright => ?_)
    (.pure ⟨htop, htop, htop, htop⟩)
  refine h.attemptBind (fun bottom hbottom => ?_) (.pure ⟨htop, hright, htop, hright⟩)
  exact h.attemptBind (fun left hleft => .pure ⟨htop, hright, hbottom, hleft⟩)
    (.pure ⟨htop, hright, hbottom, hright⟩)

end Sides

namespace BorderRadius

structure Good [Printable V] (r : BorderRadius V) : Prop where
  horizontal : r.horizontal.Good
  vertical : ∀ v ∈ r.vertical?, v.Good

theorem Good.prints [Printable V] [BEq V] {r : BorderRadius V} (h : r.Good) : PrintsNeat r := by
  obtain ⟨horizontal, vertical?⟩ := r
  intro compact
  refine (h.horizontal.neat compact).append ?_
  cases vertical? with
  | none => exact trails_nil
  | some v => exact trails_slash compact ((h.vertical v rfl).neat compact)

theorem trails_print? [Printable V] [BEq V] (compact : Bool) {r? : Option (BorderRadius V)}
    (h : ∀ r ∈ r?, r.Good) : Trails (print? compact r?) := by
  cases r? with
  | none => exact trails_nil
  | some r =>
    have hround := neat_behindWord "round" (by decide) ((h r rfl).prints compact)
    exact (trails_space hround).of_chars (by simp [print?])

variable [Term V] {good : V → Prop}

theorem steady_read (hV : Lawful V good) : Steady Good (read : Reader (BorderRadius V)) := by
  have hsides := Sides.steady_read (steady_lengthPercentage hV)
  apply hsides.bind
  intro horizontal h
  apply (steady_delim '/').succeeds.bind
  intro more _
  exact .optional more hsides fun vertical? h' => .pure ⟨h, h'⟩

theorem steady_read? (hV : Lawful V good) :
    Steady (fun r? => ∀ r ∈ r?, r.Good) (read? : Reader (Option (BorderRadius V))) :=
  (steady_keywordNamed _).succeeds.whether ((steady_read hV).map fun r h => by simpa using h)
    (.pure (by simp))

end BorderRadius

/-! Rectangles. -/

section Rectangles

/-- Four measures and the radii of the corners. -/
theorem tidy_rectangle [Printable V] [BEq V] {α : Type} [Printable α] (compact : Bool) {as : List α}
    (h : ∀ a ∈ as, PrintsSolid a) (hne : as ≠ []) {r? : Option (BorderRadius V)}
    (h' : ∀ r ∈ r?, r.Good) :
    Tidy (Color.words (as.map (print compact)) ++ BorderRadius.print? compact r?) := by
  have hwords := neat_separatedPrints separates_space compact (fun a ha => (h a ha).neat) hne
  exact (hwords.append (BorderRadius.trails_print? compact h')).1

namespace InsetRect

structure Good [Printable V] (r : InsetRect V) : Prop where
  sides : r.sides.Good
  radius : ∀ r' ∈ r.radius?, r'.Good

theorem Good.prints [Printable V] [BEq V] {r : InsetRect V} (h : r.Good) : PrintsSolid r :=
  fun compact =>
    solid_call (by decide)
      ((h.sides.neat compact).append (BorderRadius.trails_print? compact h.radius)).1

end InsetRect

namespace RectShape

structure Good [Printable V] (r : RectShape V) : Prop where
  edges : r.edges.Good
  radius : ∀ r' ∈ r.radius?, r'.Good

theorem Good.prints [Printable V] [BEq V] {r : RectShape V} (h : r.Good) : PrintsSolid r :=
  fun compact =>
    solid_call (by decide)
    (tidy_rectangle compact (fun _ => h.edges.of_mem) (by simp [Sides.all]) h.radius)

end RectShape

namespace Xywh

/-- The place and the size of a rectangle. -/
def all (r : Xywh V) : List (LengthPercentage V) := [r.x, r.y, r.width, r.height]

structure Good [Printable V] (r : Xywh V) : Prop where
  prints : ∀ m ∈ r.all, PrintsSolid m
  width : r.width.isNegative = false
  height : r.height.isNegative = false
  radius : ∀ r' ∈ r.radius?, r'.Good

theorem Good.printsSolid [Printable V] [BEq V] {r : Xywh V} (h : r.Good) : PrintsSolid r :=
  fun compact => solid_call (by decide) (tidy_rectangle compact h.prints (by simp [all]) h.radius)

end Xywh

variable [Term V] {good : V → Prop} (hV : Lawful V good)

include hV

theorem InsetRect.steadyHead_good : SteadyHead Good (read : Reader (InsetRect V)) := by
  apply steadyHead_call
  apply (Sides.steady_read (steady_lengthPercentage hV)).bind
  intro _ h
  apply (BorderRadius.steady_read? hV).bind
  intro _ h'
  exact .pure ⟨h, h'⟩

theorem InsetRect.steadyHead_read : SteadyHead PrintsSolid (read : Reader (InsetRect V)) :=
  fun r r' => (steadyHead_good hV r r').weaken fun _ => Good.prints

theorem RectShape.steadyHead_good : SteadyHead Good (read : Reader (RectShape V)) := by
  have hedge := steady_lengthPercentageOrAuto hV
  apply steadyHead_call
  apply hedge.bind
  intro top htop
  apply hedge.bind
  intro right hright
  apply hedge.bind
  intro bottom hbottom
  apply hedge.bind
  intro left hleft
  exact (BorderRadius.steady_read? hV).bind fun radius? hradius =>
    .pure ⟨⟨htop, hright, hbottom, hleft⟩, hradius⟩

theorem RectShape.steadyHead_read : SteadyHead PrintsSolid (read : Reader (RectShape V)) :=
  fun r r' => (steadyHead_good hV r r').weaken fun _ => Good.prints

theorem steady_readNonNegative :
    Steady (fun m => PrintsSolid m ∧ m.isNegative = false)
      (readNonNegative : Reader (LengthPercentage V)) := by
  refine Twin.place fun _ _ => ?_
  apply (steady_lengthPercentage hV).bind
  intro _ hm
  exact .unlessFailAt fun h => .pure ⟨hm, by simpa using h⟩

theorem Xywh.steadyHead_good : SteadyHead Good (read : Reader (Xywh V)) := by
  have hoffset := steady_lengthPercentage hV
  have hsize := steady_readNonNegative hV
  apply steadyHead_call
  apply hoffset.bind
  intro x hx
  apply hoffset.bind
  intro y hy
  apply hsize.bind
  intro width hwidth
  apply hsize.bind
  intro height hheight
  refine (BorderRadius.steady_read? hV).bind fun radius? hradius =>
    .pure ⟨fun m hm => ?_, hwidth.2, hheight.2, hradius⟩
  simp only [all, List.mem_cons, List.not_mem_nil, or_false] at hm
  rcases hm with rfl | rfl | rfl | rfl
  exacts [hx, hy, hwidth.1, hheight.1]

theorem Xywh.steadyHead_read : SteadyHead PrintsSolid (read : Reader (Xywh V)) :=
  fun r r' => (steadyHead_good hV r r').weaken fun _ => Good.printsSolid

end Rectangles

/-! Circles and ellipses. -/

theorem trails_printCenter [Printable V] (compact : Bool) {p : Position V} (h : p.Good) :
    Trails (printCenter compact true p) := by
  unfold printCenter
  split
  · exact trails_nil
  · have hat := neat_behindWord "at" (by decide) (h.neat compact)
    exact (trails_space hat).of_chars (by simp)

theorem tidy_printCenter [Printable V] (compact : Bool) {p : Position V} (h : p.Good) :
    Tidy (printCenter compact false p) := by
  unfold printCenter
  split
  · exact tidy_nil
  · have hat := neat_behindWord "at" (by decide) (h.neat compact)
    exact (hat.of_chars (by simp)).1

theorem prints_shapeRadius [Printable V] {r : ShapeRadius V}
    (h : ∀ m, r = .measure m → PrintsSolid m) : PrintsSolid r := by
  intro compact
  cases r with
  | measure m => exact h m rfl compact
  | closestSide => exact solid_text (by decide)
  | farthestSide => exact solid_text (by decide)

namespace Circle

structure Good [Printable V] (c : Circle V) : Prop where
  radius : PrintsSolid c.radius
  center : c.center.Good

theorem Good.prints [Printable V] {c : Circle V} (h : c.Good) : PrintsSolid c := by
  obtain ⟨radius, center⟩ := c
  intro compact
  refine solid_call (by decide) ?_
  cases radius.isDefault with
  | true => exact tidy_printCenter compact h.center
  | false => exact ((h.radius compact).neat.append (trails_printCenter compact h.center)).1

end Circle

namespace Ellipse

structure Good [Printable V] (e : Ellipse V) : Prop where
  radiusX : PrintsSolid e.radiusX
  radiusY : PrintsSolid e.radiusY
  center : e.center.Good

theorem Good.prints [Printable V] {e : Ellipse V} (h : e.Good) : PrintsSolid e := by
  obtain ⟨x, y, center⟩ := e
  intro compact
  refine solid_call (by decide) ?_
  cases x.isDefault && y.isDefault with
  | true => exact tidy_printCenter compact h.center
  | false =>
    have := (h.radiusX compact).neat.append (trails_space (h.radiusY compact).neat)
    rw [← List.append_assoc] at this
    exact (this.append (trails_printCenter compact h.center)).1

end Ellipse

section Rounds

variable [Term V] {good : V → Prop} (hV : Lawful V good)

include hV

theorem ShapeRadius.steady_read : Steady PrintsSolid (read : Reader (ShapeRadius V)) := by
  refine .orElse ?_ (.orElse ?_ ?_)
  · exact (steady_lengthPercentage hV).map fun _ h => h
  · exact (steady_keywordNamed _).map fun _ _ => prints_shapeRadius (by simp)
  · exact (steady_keywordNamed _).map fun _ _ => prints_shapeRadius (by simp)

theorem steady_readCenter : Steady Position.Good (readCenter : Reader (Position V)) :=
  (steady_keywordNamed _).succeeds.whether (Position.steady_read hV) (.pure ⟨.center, .center⟩)

theorem Circle.steadyHead_good : SteadyHead Good (read : Reader (Circle V)) := by
  apply steadyHead_call
  apply (ShapeRadius.steady_read hV).attempt.bind
  intro radius? hradius
  refine (steady_readCenter hV).bind fun center hcenter => .pure ⟨?_, hcenter⟩
  cases radius? with
  | none => exact prints_shapeRadius (by simp)
  | some r => exact hradius r rfl

theorem Circle.steadyHead_read : SteadyHead PrintsSolid (read : Reader (Circle V)) :=
  fun r r' => (steadyHead_good hV r r').weaken fun _ => Good.prints

theorem Ellipse.steadyHead_good : SteadyHead Good (read : Reader (Ellipse V)) := by
  have hradius := ShapeRadius.steady_read hV
  have hradii : Steady (fun x => PrintsSolid x.1 ∧ PrintsSolid x.2)
      (readRadii : Reader (ShapeRadius V × ShapeRadius V)) :=
    hradius.bind fun _ hx => hradius.bind fun _ hy => .pure ⟨hx, hy⟩
  apply steadyHead_call
  apply hradii.attempt.bind
  intro radii? h
  have hboth : PrintsSolid (radii?.getD (.closestSide, .closestSide)).1 ∧
      PrintsSolid (radii?.getD (.closestSide, .closestSide)).2 := by
    cases radii? with
    | none => exact ⟨prints_shapeRadius (by simp), prints_shapeRadius (by simp)⟩
    | some x => exact h x rfl
  exact (steady_readCenter hV).bind fun center hcenter => .pure ⟨hboth.1, hboth.2, hcenter⟩

theorem Ellipse.steadyHead_read : SteadyHead PrintsSolid (read : Reader (Ellipse V)) :=
  fun r r' => (steadyHead_good hV r r').weaken fun _ => Good.prints

end Rounds

/-! Polygons and paths. -/

instance : PlainKeyword FillRule := ⟨fun r => by cases r <;> decide⟩

theorem FillRule.steady_readOrDefault : Steady (fun _ => True) readOrDefault :=
  steady_keyword.attemptBind (fun _ _ => steady_comma.bind fun _ _ => .pure trivial) (.pure trivial)

theorem FillRule.tidy_printUnlessDefault (compact : Bool) (r : FillRule) {o : Output} (h : Neat o) :
    Tidy (printUnlessDefault compact r ++ o) := by
  cases r with
  | nonzero => exact h.1
  | evenodd =>
    have := (prints_keyword evenodd compact).neat.append (trails_comma compact h)
    rw [← List.append_assoc] at this
    exact this.1

theorem Path.steadyHead_read : SteadyHead PrintsSolid (read : Reader Path) :=
  steadyHead_call _ <| FillRule.steady_readOrDefault.bind fun rule _ =>
    steady_quotation.bind fun _ h =>
    .pure fun compact =>
      solid_call (by decide) (FillRule.tidy_printUnlessDefault compact rule (h compact).neat)

structure Point.Good [Printable V] (p : Point V) : Prop where
  x : PrintsSolid p.x
  y : PrintsSolid p.y

theorem Point.Good.prints [Printable V] {p : Point V} (h : p.Good) : PrintsNeat p := by
  intro compact
  have := (h.x compact).neat.append (trails_space (h.y compact).neat)
  rwa [← List.append_assoc] at this

structure Polygon.Good [Printable V] (p : Polygon V) : Prop where
  points_ne_nil : p.points ≠ []
  points : ∀ q ∈ p.points, q.Good

theorem Polygon.Good.prints [Printable V] {p : Polygon V} (h : p.Good) : PrintsSolid p := by
  intro compact
  refine solid_call (by decide) (FillRule.tidy_printUnlessDefault compact p.fillRule ?_)
  exact neat_separatedPrints (separates_comma compact) compact
    (fun q hq => (h.points q hq).prints) h.points_ne_nil

section Polygons

variable [Term V] {good : V → Prop} (hV : Lawful V good)

include hV

theorem Point.steady_read : Steady Good (read : Reader (Point V)) := by
  apply (steady_lengthPercentage hV).bind
  intro _ hx
  apply (steady_lengthPercentage hV).bind
  intro _ hy
  exact .pure ⟨hx, hy⟩

theorem Polygon.steadyHead_good : SteadyHead Good (read : Reader (Polygon V)) := by
  apply steadyHead_call
  apply FillRule.steady_readOrDefault.bind
  intro _ _
  apply (Point.steady_read hV).commaSeparated.bind
  intro _ h
  exact .pure ⟨h.1, h.2⟩

theorem Polygon.steadyHead_read : SteadyHead PrintsSolid (read : Reader (Polygon V)) :=
  fun r r' => (steadyHead_good hV r r').weaken fun _ => Good.prints

end Polygons

end StyleGrammar
