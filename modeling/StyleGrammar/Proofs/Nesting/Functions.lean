import StyleGrammar.Proofs.Nesting.Images
import StyleGrammar.Proofs.Value.Substitutions
import StyleGrammar.Value.Anchor
import StyleGrammar.Value.Counter
import StyleGrammar.Value.Easing
import StyleGrammar.Value.Font
import StyleGrammar.Value.Grid
import StyleGrammar.Value.Shape

/-!
# Functions keep within the limit

The functions over values, one by one, each with what is good in it.  A function
that stands by itself is paid for by the level around it.
-/

namespace StyleGrammar

open Reader Component

variable {V : Type} {good : V → Prop} {free : Token → Bool}

/-! Shapes. -/

structure Sides.Formed {α : Type} (good : α → Prop) (s : Sides α) : Prop where
  top : good s.top
  right : good s.right
  bottom : good s.bottom
  left : good s.left

structure BorderRadius.Formed (good : V → Prop) (r : BorderRadius V) : Prop where
  horizontal : r.horizontal.Formed (Measure.Formed good)
  vertical : ∀ v ∈ r.vertical?, v.Formed (Measure.Formed good)

structure InsetRect.Formed (good : V → Prop) (r : InsetRect V) : Prop where
  sides : r.sides.Formed (Measure.Formed good)
  radius : ∀ r' ∈ r.radius?, r'.Formed good

structure RectShape.Formed (good : V → Prop) (r : RectShape V) : Prop where
  edges : r.edges.Formed (LengthPercentageOrAuto.Formed good)
  radius : ∀ r' ∈ r.radius?, r'.Formed good

structure Xywh.Formed (good : V → Prop) (r : Xywh V) : Prop where
  x : r.x.Formed good
  y : r.y.Formed good
  width : r.width.Formed good
  height : r.height.Formed good
  radius : ∀ r' ∈ r.radius?, r'.Formed good

def ShapeRadius.Formed (good : V → Prop) : ShapeRadius V → Prop
  | measure m => m.Formed good
  | _ => True

structure Circle.Formed (good : V → Prop) (c : Circle V) : Prop where
  radius : c.radius.Formed good
  center : c.center.Formed good

structure Ellipse.Formed (good : V → Prop) (e : Ellipse V) : Prop where
  radiusX : e.radiusX.Formed good
  radiusY : e.radiusY.Formed good
  center : e.center.Formed good

def Polygon.Formed (good : V → Prop) (p : Polygon V) : Prop :=
  ∀ point ∈ p.points, point.x.Formed good ∧ point.y.Formed good

theorem Sides.bounded_read {α : Type} [Readable α] {good : α → Prop}
    (h : Bounded free good (read : Reader α)) :
    Bounded free (Formed good) (read : Reader (Sides α)) := by
  refine h.bind fun top htop => h.attemptBind (fun right hright => ?_)
    (.pure ⟨htop, htop, htop, htop⟩)
  refine h.attemptBind (fun bottom hbottom => ?_) (.pure ⟨htop, hright, htop, hright⟩)
  exact h.attemptBind (fun left hleft => .pure ⟨htop, hright, hbottom, hleft⟩)
    (.pure ⟨htop, hright, hbottom, hright⟩)

theorem FillRule.bounded_readOrDefault : Bounded free (fun _ => True) FillRule.readOrDefault :=
  bounded_keyword.attemptBind (fun _ _ => Bounded.comma.bind fun _ _ => .pure trivial)
    (.pure trivial)

theorem Path.bounded_read : Bounded (fun _ => true) (fun _ => True) (read : Reader Path) := by
  refine .call _ fun _ => ?_
  apply FillRule.bounded_readOrDefault.bind
  intro _ _
  apply bounded_quotation.bind
  intro _ _
  exact .pure trivial

variable [Term V]

section Shapes

variable (hV : ReadsGood good)

include hV

theorem BorderRadius.bounded_read? :
    Bounded free (fun r? => ∀ r ∈ r?, r.Formed good)
      (read? : Reader (Option (BorderRadius V))) := by
  have hsides : Bounded free (Sides.Formed (Measure.Formed good))
      (read : Reader (Sides (LengthPercentage V))) :=
    Sides.bounded_read (bounded_lengthPercentage hV)
  have hread : Bounded free (Formed good) (read : Reader (BorderRadius V)) := by
    apply hsides.bind
    intro horizontal h
    apply (bounded_delim '/').succeeds.bind
    intro more _
    exact .optional more hsides fun vertical? h' => .pure ⟨h, h'⟩
  exact (bounded_keywordNamed _).succeeds.whether (hread.map fun r h => by simpa using h)
    (.pure (by simp))

theorem InsetRect.bounded_read :
    Bounded (fun _ => true) (Formed good) (read : Reader (InsetRect V)) := by
  refine .call _ fun _ => ?_
  apply (Sides.bounded_read (bounded_lengthPercentage hV)).bind
  intro _ h
  apply (BorderRadius.bounded_read? hV).bind
  intro _ h'
  exact .pure ⟨h, h'⟩

theorem RectShape.bounded_read :
    Bounded (fun _ => true) (Formed good) (read : Reader (RectShape V)) := by
  refine .call _ fun free => ?_
  have hedge : Bounded free (LengthPercentageOrAuto.Formed good) read :=
    bounded_lengthPercentageOrAuto hV
  apply hedge.bind
  intro top htop
  apply hedge.bind
  intro right hright
  apply hedge.bind
  intro bottom hbottom
  apply hedge.bind
  intro left hleft
  apply (BorderRadius.bounded_read? hV).bind
  intro radius? hradius
  exact .pure ⟨⟨htop, hright, hbottom, hleft⟩, hradius⟩

theorem bounded_readNonNegative :
    Bounded free (Measure.Formed good) (readNonNegative : Reader (LengthPercentage V)) := by
  refine .place fun _ => ?_
  apply (bounded_lengthPercentage hV).bind
  intro _ hm
  exact .unlessFailAt (.pure hm)

theorem Xywh.bounded_read : Bounded (fun _ => true) (Formed good) (read : Reader (Xywh V)) := by
  refine .call _ fun free => ?_
  have hoffset : Bounded free (Measure.Formed good) (read : Reader (LengthPercentage V)) :=
    bounded_lengthPercentage hV
  have hsize : Bounded free (Measure.Formed good) (readNonNegative : Reader (LengthPercentage V)) :=
    bounded_readNonNegative hV
  apply hoffset.bind
  intro x hx
  apply hoffset.bind
  intro y hy
  apply hsize.bind
  intro width hwidth
  apply hsize.bind
  intro height hheight
  apply (BorderRadius.bounded_read? hV).bind
  intro radius? hradius
  exact .pure ⟨hx, hy, hwidth, hheight, hradius⟩

theorem ShapeRadius.bounded_read : Bounded free (Formed good) (read : Reader (ShapeRadius V)) := by
  refine .orElse ?_ (.orElse ?_ ?_)
  · exact (bounded_lengthPercentage hV).map fun _ h => h
  · exact (bounded_keywordNamed _).map fun _ _ => trivial
  · exact (bounded_keywordNamed _).map fun _ _ => trivial

theorem bounded_readCenter :
    Bounded free (Position.Formed good) (readCenter : Reader (Position V)) :=
  (bounded_keywordNamed _).succeeds.whether (Position.bounded_read hV) (.pure ⟨trivial, trivial⟩)

theorem Circle.bounded_read : Bounded (fun _ => true) (Formed good) (read : Reader (Circle V)) := by
  refine .call _ fun free => ?_
  apply (ShapeRadius.bounded_read hV).attempt.bind
  intro radius? hradius
  apply (bounded_readCenter hV).bind
  intro center hcenter
  refine .pure ⟨?_, hcenter⟩
  cases radius? with
  | none => exact trivial
  | some r => exact hradius r rfl

theorem Ellipse.bounded_read :
    Bounded (fun _ => true) (Formed good) (read : Reader (Ellipse V)) := by
  refine .call _ fun free => ?_
  have hradii : Bounded free (fun x => x.1.Formed good ∧ x.2.Formed good)
      (readRadii : Reader (ShapeRadius V × ShapeRadius V)) := by
    apply (ShapeRadius.bounded_read hV).bind
    intro _ hx
    apply (ShapeRadius.bounded_read hV).bind
    intro _ hy
    exact .pure ⟨hx, hy⟩
  apply hradii.attempt.bind
  intro radii? h
  apply (bounded_readCenter hV).bind
  intro center hcenter
  cases radii? with
  | none => exact .pure ⟨trivial, trivial, hcenter⟩
  | some radii => exact .pure ⟨(h radii rfl).1, (h radii rfl).2, hcenter⟩

theorem Polygon.bounded_read :
    Bounded (fun _ => true) (Formed good) (read : Reader (Polygon V)) := by
  refine .call _ fun free => ?_
  apply FillRule.bounded_readOrDefault.bind
  intro rule _
  have hpoint : Bounded free (fun p => p.x.Formed good ∧ p.y.Formed good)
      (read : Reader (Point V)) := by
    apply (bounded_lengthPercentage hV).bind
    intro _ hx
    apply (bounded_lengthPercentage hV).bind
    intro _ hy
    exact .pure ⟨hx, hy⟩
  exact hpoint.commaSeparated.bind fun _ h => .pure h

end Shapes

/-! Substitutions, transforms and filters. -/

def Attr.Formed (good : V → Prop) (a : Attr V) : Prop := FallbackGood good a.fallback?

def Env.Formed (good : V → Prop) (e : Env V) : Prop := FallbackGood good e.fallback?

def Var.Formed (good : V → Prop) (v : Var V) : Prop := FallbackGood good v.fallback?

def Transform.Formed (good : V → Prop) (t : Transform V) : Prop :=
  Sequence.Bracketed good t.arguments

def Filter.Formed (good : V → Prop) (f : Filter V) : Prop := Sequence.Bracketed good f.arguments

section Substitutions

variable (hV : ReadsGood good)

include hV

theorem Attr.bounded_read (hfree : ∀ n, sameName n "attr" = true → free (.function n) = true) :
    Bounded free (Formed good) (read : Reader (Attr V)) := by
  refine .functionNamed fun n hn => Bounded.block ?_ (hfree n hn)
  have htype : Bounded (uncounted (.function n)) (fun _ => True) (expect typeOf?) :=
    bounded_expect ⟨fun _ => rfl, rfl, rfl, rfl⟩
  apply bounded_ident.bind
  intro _ _
  apply htype.attempt.bind
  intro _ _
  apply (Sequence.bounded_readFallback hV).bind
  intro _ h
  exact .pure h

theorem Env.bounded_read : Bounded (fun _ => true) (Formed good) (read : Reader (Env V)) := by
  refine .call _ fun _ => ?_
  apply bounded_ident.bind
  intro _ _
  apply bounded_integer.many.bind
  intro _ _
  apply (Sequence.bounded_readFallback hV).bind
  intro _ h
  exact .pure h

theorem Var.bounded_read : Bounded (fun _ => true) (Formed good) (read : Reader (Var V)) := by
  refine .call _ fun _ => ?_
  apply bounded_dashedIdent.bind
  intro _ _
  apply (Sequence.bounded_readFallback hV).bind
  intro _ h
  exact .pure h

theorem Transform.bounded_read :
    Bounded (fun _ => true) (Formed good) (read : Reader (Transform V)) := by
  refine .place fun l => .expectOpener (fun t name ht => ?_) fun t name ht => ?_
  · cases t <;> first | rfl | cases ht
  · exact ((Sequence.bounded_read hV).block rfl).bind fun _ h => .unlessFailAt (.pure h)

theorem Filter.bounded_read : Bounded (fun _ => true) (Formed good) (read : Reader (Filter V)) := by
  refine .place fun l => .expectOpener (fun t name ht => ?_) fun t name ht => ?_
  · cases t <;> first | rfl | cases ht
  · exact ((Sequence.bounded_read hV).block rfl).bind fun _ h => .unlessFailAt (.pure h)

end Substitutions

/-! Counters and references. -/

def CounterSymbol.Formed (good : V → Prop) : CounterSymbol V → Prop
  | string _ => True
  | image i => i.Formed good

def Symbols.Formed (good : V → Prop) (s : Symbols V) : Prop := ∀ x ∈ s.symbols, x.Formed good

def CounterStyle.Formed (good : V → Prop) : CounterStyle V → Prop
  | name _ => True
  | symbols s => s.Formed good

def Counter.Formed (good : V → Prop) (c : Counter V) : Prop := ∀ s ∈ c.style?, s.Formed good

def Counters.Formed (good : V → Prop) (c : Counters V) : Prop := ∀ s ∈ c.style?, s.Formed good

def TargetUrl.Formed (good : V → Prop) : TargetUrl V → Prop
  | attr a => a.Formed good
  | _ => True

structure TargetCounter.Formed (good : V → Prop) (c : TargetCounter V) : Prop where
  url : c.url.Formed good
  style : ∀ s ∈ c.style?, s.Formed good

structure TargetCounters.Formed (good : V → Prop) (c : TargetCounters V) : Prop where
  url : c.url.Formed good
  style : ∀ s ∈ c.style?, s.Formed good

def TargetText.Formed (good : V → Prop) (t : TargetText V) : Prop := t.url.Formed good

omit [Term V] in
theorem Leader.bounded_read : Bounded (fun _ => true) (fun _ => True) (read : Reader Leader) :=
  .call _ fun _ => .orElse (bounded_quotation.map fun _ _ => trivial)
    (bounded_expect ⟨fun _ => rfl, rfl, rfl, rfl⟩)

/-- Where counters are, their styles do not count. -/
theorem uncounted_symbols {outer f g : String}
    (houter : outer ∈ ["counter", "counters", "target-counter", "target-counters"])
    (hf : sameName f outer = true) (hg : sameName g "symbols" = true) :
    uncounted (.function f) (.function g) = true :=
  uncounted_of_mem (["counter", "counters", "target-counter", "target-counters"], ["symbols"])
    (by decide) houter List.mem_cons_self hf hg

/-- Where references are, the functions that give their address do not count. -/
theorem uncounted_address {outer inner f g : String}
    (houter : outer ∈ ["target-counter", "target-counters", "target-text"])
    (hinner : inner ∈ ["attr", "url"]) (hf : sameName f outer = true)
    (hg : sameName g inner = true) : uncounted (.function f) (.function g) = true :=
  uncounted_of_mem (["target-counter", "target-counters", "target-text"], ["attr", "url"])
    (by decide) houter hinner hf hg

section Counters

variable (hV : ReadsGood good)

include hV

theorem Symbols.bounded_read
    (hfree : ∀ n, sameName n "symbols" = true → free (.function n) = true) :
    Bounded free (Formed good) (read : Reader (Symbols V)) := by
  refine .functionNamed fun n hn => Bounded.block ?_ (hfree n hn)
  have hsymbol : Bounded (uncounted (.function n)) (CounterSymbol.Formed good) read :=
    .orElse (bounded_quotation.map fun _ _ => trivial)
      ((Image.bounded_read hV (imagesFree_uncounted (by decide) hn)).map fun _ h => h)
  apply bounded_keyword.attempt.bind
  intro _ _
  apply hsymbol.many.bind
  intro _ h
  exact .unlessFail (.pure h)

theorem CounterStyle.bounded_read?
    (hfree : ∀ n, sameName n "symbols" = true → free (.function n) = true) :
    Bounded free (fun s? => ∀ s ∈ s?, s.Formed good)
      (read? : Reader (Option (CounterStyle V))) := by
  have hread : Bounded free (Formed good) (read : Reader (CounterStyle V)) :=
    .orElse ((Symbols.bounded_read hV hfree).map fun _ h => h)
      (bounded_customIdent.map fun _ _ => trivial)
  exact bounded_succeedsComma.whether (hread.map fun _ h => by simpa using h) (.pure (by simp))

theorem Counter.bounded_read :
    Bounded (fun _ => true) (Formed good) (read : Reader (Counter V)) := by
  refine .functionNamed fun n hn => Bounded.block ?_ rfl
  apply bounded_customIdent.bind
  intro _ _
  apply (CounterStyle.bounded_read? hV fun _ => uncounted_symbols (by decide) hn).bind
  intro _ h
  exact .pure h

theorem Counters.bounded_read :
    Bounded (fun _ => true) (Formed good) (read : Reader (Counters V)) := by
  refine .functionNamed fun n hn => Bounded.block ?_ rfl
  apply bounded_customIdent.bind
  intro _ _
  apply Bounded.comma.bind
  intro _ _
  apply bounded_quotation.bind
  intro _ _
  apply (CounterStyle.bounded_read? hV fun _ => uncounted_symbols (by decide) hn).bind
  intro _ h
  exact .pure h

theorem TargetUrl.bounded_read
    (hfree : ∀ inner ∈ ["attr", "url"], ∀ n, sameName n inner = true → free (.function n) = true) :
    Bounded free (Formed good) (read : Reader (TargetUrl V)) := by
  refine .orElse (bounded_quotation.map fun _ _ => trivial) (.orElse ?_ ?_)
  · exact (Attr.bounded_read hV (hfree _ (by decide))).map fun _ h => h
  · exact (bounded_url (hfree _ (by decide))).map fun _ _ => trivial

theorem TargetCounter.bounded_read :
    Bounded (fun _ => true) (Formed good) (read : Reader (TargetCounter V)) := by
  refine .functionNamed fun n hn => Bounded.block ?_ rfl
  apply (TargetUrl.bounded_read hV fun _ h _ => uncounted_address (by decide) h hn).bind
  intro _ hurl
  apply Bounded.comma.bind
  intro _ _
  apply bounded_customIdent.bind
  intro _ _
  apply (CounterStyle.bounded_read? hV fun _ => uncounted_symbols (by decide) hn).bind
  intro _ h
  exact .pure ⟨hurl, h⟩

theorem TargetCounters.bounded_read :
    Bounded (fun _ => true) (Formed good) (read : Reader (TargetCounters V)) := by
  refine .functionNamed fun n hn => Bounded.block ?_ rfl
  apply (TargetUrl.bounded_read hV fun _ h _ => uncounted_address (by decide) h hn).bind
  intro _ hurl
  apply Bounded.comma.bind
  intro _ _
  apply bounded_customIdent.bind
  intro _ _
  apply Bounded.comma.bind
  intro _ _
  apply bounded_quotation.bind
  intro _ _
  apply (CounterStyle.bounded_read? hV fun _ => uncounted_symbols (by decide) hn).bind
  intro _ h
  exact .pure ⟨hurl, h⟩

theorem TargetText.bounded_read :
    Bounded (fun _ => true) (Formed good) (read : Reader (TargetText V)) := by
  refine .functionNamed fun n hn => Bounded.block ?_ rfl
  apply (TargetUrl.bounded_read hV fun _ h _ => uncounted_address (by decide) h hn).bind
  intro _ hurl
  apply bounded_succeedsComma.bind
  intro more _
  exact .optional more bounded_keyword fun _ _ => .pure hurl

end Counters

/-! Tracks, anchors and timelines. -/

def TrackBreadth.Formed (good : V → Prop) : TrackBreadth V → Prop
  | measure m => m.Formed good
  | _ => True

structure MinMax.Formed (good : V → Prop) (m : MinMax V) : Prop where
  min : m.min.Formed good
  max : m.max.Formed good

def FitContent.Formed (good : V → Prop) (f : FitContent V) : Prop := f.limit.Formed good

def TrackListItem.Formed (good : V → Prop) : TrackListItem V → Prop
  | lineNames _ => True
  | track v => good v

def Repetition.Formed (good : V → Prop) (r : Repetition V) : Prop := ∀ i ∈ r.tracks, i.Formed good

def AnchorSize.Formed (good : V → Prop) (a : AnchorSize V) : Prop :=
  ∀ m ∈ a.fallback?, m.Formed good

def View.Formed (good : V → Prop) (v : View V) : Prop := ∀ i ∈ v.insets, i.Formed good

section Tracks

variable (hV : ReadsGood good)

omit [Term V] in
theorem RepeatCount.bounded_read : Bounded free (fun _ => True) (read : Reader RepeatCount) := by
  refine .place fun l => bounded_integer.attemptBind (fun n _ => ?_) ?_
  · exact .ite (fun _ => .failAt _ _) fun _ => .pure trivial
  · exact bounded_expect ⟨fun _ => rfl, rfl, rfl, rfl⟩

omit [Term V] in
theorem TrackBreadth.formed_of_ofName? {s : String} {b : TrackBreadth V} (h : ofName? s = some b) :
    b.Formed good := by
  unfold ofName? at h
  split at h
  · cases h
    trivial
  · split at h
    · cases h
      trivial
    · split at h <;> cases h
      trivial

include hV

theorem TrackBreadth.bounded_read :
    Bounded free (Formed good) (read : Reader (TrackBreadth V)) := by
  refine .orElse ?_ (.orElse ?_ ?_)
  · exact (bounded_lengthPercentage hV).map fun _ h => h
  · exact bounded_dimension.map fun _ _ => trivial
  · refine .expect fun t b h => ?_
    cases t <;> try cases h
    exact ⟨rfl, formed_of_ofName? h⟩

theorem MinMax.bounded_read : Bounded (fun _ => true) (Formed good) (read : Reader (MinMax V)) := by
  refine .call _ fun _ => ?_
  refine .place fun _ => ?_
  apply (TrackBreadth.bounded_read hV).bind
  intro min hmin
  refine .unlessFailAt ?_
  apply Bounded.comma.bind
  intro _ _
  apply (TrackBreadth.bounded_read hV).bind
  intro max hmax
  exact .pure ⟨hmin, hmax⟩

theorem FitContent.bounded_read :
    Bounded (fun _ => true) (Formed good) (read : Reader (FitContent V)) :=
  .functionNamed fun _ _ => ((bounded_lengthPercentage hV).block rfl).bind fun _ h => .pure h

theorem TrackListItem.bounded_read (hfree : free .openSquare = true) :
    Bounded free (Formed good) (read : Reader (TrackListItem V)) := by
  have hsquare (t : Token) (u : Unit) (ht : (if t = .openSquare then some () else none) = some u) :
      t = .openSquare := by simpa using ht
  refine .whetherOpener (fun t u ht => hsquare t u ht ▸ rfl) (fun t u ht => ?_) ?_
  · obtain rfl := hsquare t u ht
    exact (bounded_customIdent.many.block hfree).map fun _ _ => trivial
  · exact (hV _).map fun _ h => h

theorem Repetition.bounded_read :
    Bounded (fun _ => true) (Formed good) (read : Reader (Repetition V)) := by
  refine .functionNamed fun n hn => Bounded.block ?_ rfl
  apply RepeatCount.bounded_read.bind
  intro count _
  apply Bounded.comma.bind
  intro _ _
  exact (TrackListItem.bounded_read hV hn).untilEnd.bind fun _ h => .unlessFail (.pure h)

omit hV [Term V] in
theorem bounded_readEitherOrder {α β : Type} {p : Reader α} {q : Reader β}
    (hp : Bounded free (fun _ => True) p) (hq : Bounded free (fun _ => True) q) :
    Bounded free (fun _ => True) (readEitherOrder p q) := by
  apply hp.attempt.bind
  intro a? _
  apply hq.attempt.bind
  intro b? _
  refine .ite (fun _ => .pure trivial) fun _ => ?_
  exact hp.attempt.bind fun _ _ => .pure trivial

theorem AnchorSize.bounded_read :
    Bounded (fun _ => true) (Formed good) (read : Reader (AnchorSize V)) := by
  refine .call _ fun free => ?_
  apply (bounded_readEitherOrder bounded_dashedIdent bounded_keyword).bind
  intro x _
  refine .either bounded_succeedsComma (Bounded.atEnd.map fun _ _ => trivial) fun wanted _ => ?_
  exact .optional wanted (bounded_lengthPercentage hV) fun _ h => .pure h

theorem View.bounded_read : Bounded (fun _ => true) (Formed good) (read : Reader (View V)) := by
  refine .call _ fun free => ?_
  apply bounded_keyword.attempt.bind
  intro before? _
  apply ((bounded_lengthPercentageOrAuto hV).manyWithin 2).bind
  intro insets h
  exact .either (bounded_keyword.attempt.weaken fun _ _ => trivial) (.pure trivial)
    fun _ (_ : True) => .pure h

end Tracks

/-! Functions without values in them. -/

section Plain

omit [Term V]

theorem Scroll.bounded_read : Bounded (fun _ => true) (fun _ => True) (read : Reader Scroll) := by
  refine .call _ fun _ => ?_
  apply (bounded_readEitherOrder bounded_keyword bounded_keyword).bind
  intro _ _
  exact .pure trivial

theorem CubicBezier.bounded_read :
    Bounded (fun _ => true) (fun _ => True) (read : Reader CubicBezier) := by
  refine .call _ fun free => ?_
  refine .place fun l => ?_
  apply bounded_single.bind
  intro x1 _
  apply Bounded.comma.bind
  intro _ _
  apply bounded_single.bind
  intro y1 _
  apply Bounded.comma.bind
  intro _ _
  apply bounded_single.bind
  intro x2 _
  apply Bounded.comma.bind
  intro _ _
  exact bounded_single.bind fun y2 _ => .unlessFailAt (.pure trivial)

theorem Steps.bounded_read : Bounded (fun _ => true) (fun _ => True) (read : Reader Steps) := by
  refine .call _ fun free => ?_
  refine .place fun l => ?_
  apply bounded_int.bind
  intro count _
  have hposition : Bounded free (fun _ => True) readPosition :=
    Bounded.comma.bind fun _ _ => bounded_keyword
  exact hposition.attempt.bind fun _ _ => .unlessFailAt (.pure trivial)

theorem LinearStop.bounded_read : Bounded free (fun _ => True) (read : Reader LinearStop) := by
  have hpercentage : Bounded free (fun _ => True) (attempt (read : Reader Percentage)) :=
    bounded_percentage.attempt.weaken fun _ _ => trivial
  apply hpercentage.bind
  intro before? _
  apply bounded_single.bind
  intro value _
  refine .either (.pure trivial) hpercentage fun first? _ => ?_
  exact .either hpercentage (.pure trivial) fun _ _ => .pure trivial

theorem Linear.bounded_read : Bounded (fun _ => true) (fun _ => True) (read : Reader Linear) :=
  .functionNamed fun _ _ => (LinearStop.bounded_read.commaSeparated.block rfl).bind fun _ _ =>
    .pure trivial

theorem AlternateGlyph.bounded_read :
    Bounded (fun _ => true) (fun _ => True) (read : Reader AlternateGlyph) := by
  refine .place fun l => .expectOpener (fun t choice ht => ?_) fun t choice ht => ?_
  · cases t <;> first | rfl | cases ht
  · exact (bounded_customIdent.commaSeparated.block rfl).bind fun _ _ =>
      .unlessFailAt (.pure trivial)

theorem Add.bounded_read : Bounded (fun _ => true) (fun _ => True) (read : Reader Add) :=
  .functionNamed fun _ _ => (bounded_int.block rfl).bind fun _ _ => .pure trivial

end Plain

end StyleGrammar
