import StyleGrammar.Proofs.Nesting.Colors
import StyleGrammar.Value.Image

/-!
# Gradients and images keep within the limit

An image is read at the level around it, wherever the functions of images are
free.  They are free in an image, and among the symbols of a counter.
-/

namespace StyleGrammar

open Reader Component

variable {V : Type} {good : V → Prop} {free : Token → Bool}

/-! The functions that are free. -/

/-- The functions of images do not count. -/
def ImagesFree (free : Token → Bool) : Prop :=
  ∀ n, imageFunctions.any (sameName n) = true → free (.function n) = true

theorem imagesFree_all : ImagesFree fun _ => true := fun _ _ => rfl

theorem ImagesFree.of_mem (h : ImagesFree free) {name : String} (hname : name ∈ imageFunctions)
    (n : String) (hn : sameName n name = true) : free (.function n) = true :=
  h n (List.any_eq_true.mpr ⟨name, hname, hn⟩)

theorem uncounted_of_mem (entry : List String × List String) (h : entry ∈ uncountedFunctions)
    {outer inner f g : String} (houter : outer ∈ entry.1) (hinner : inner ∈ entry.2)
    (hf : sameName f outer = true) (hg : sameName g inner = true) :
    uncounted (.function f) (.function g) = true :=
  List.any_eq_true.mpr ⟨entry, h, Bool.and_eq_true_iff.mpr
    ⟨List.any_eq_true.mpr ⟨outer, houter, hf⟩, List.any_eq_true.mpr ⟨inner, hinner, hg⟩⟩⟩

/-- Inside an image, and among the symbols of a counter, images do not count. -/
theorem imagesFree_uncounted {name f : String}
    (hname : name ∈ ["image-set", "cross-fade", "symbols"])
    (hf : sameName f name = true) : ImagesFree (uncounted (.function f)) := by
  intro g hg
  obtain ⟨inner, hinner, hg⟩ := List.any_eq_true.mp hg
  exact uncounted_of_mem (["image-set", "cross-fade", "symbols"], imageFunctions)
    List.mem_cons_self hname hinner hf hg

/-! Gradients. -/

def GradientItem.Formed {P : Type} (good : V → Prop) (goodP : P → Prop) : GradientItem P V → Prop
  | stop s => s.color.Formed good ∧ ∀ p ∈ s.position?, goodP p
  | hint p => goodP p

def LinearGradient.Formed (good : V → Prop) (g : LinearGradient V) : Prop :=
  ∀ i ∈ g.items, i.Formed good (Measure.Formed good)

def EndingShape.Formed (good : V → Prop) : EndingShape V → Prop
  | ellipseRadii x y => x.Formed good ∧ y.Formed good
  | _ => True

structure RadialGradient.Formed (good : V → Prop) (g : RadialGradient V) : Prop where
  shape : g.shape.Formed good
  position : g.position.Formed good
  items : ∀ i ∈ g.items, i.Formed good (Measure.Formed good)

structure ConicGradient.Formed (good : V → Prop) (g : ConicGradient V) : Prop where
  position : g.position.Formed good
  items : ∀ i ∈ g.items, i.Formed good (Measure.Formed good)

def Gradient.Formed (good : V → Prop) : Gradient V → Prop
  | linear g => g.Formed good
  | radial g => g.Formed good
  | conic g => g.Formed good

variable [Term V]

namespace GradientItem

variable {P : Type} [Readable P] {goodP : P → Prop}

theorem bounded_readStops (hV : ReadsGood good) (hP : Bounded free goodP (read : Reader P)) :
    Bounded free (fun is => ∀ i ∈ is, i.Formed good goodP)
      (readStops : Reader (List (GradientItem P V))) := by
  apply (Color.bounded_read hV).bind
  intro color hcolor
  apply hP.attempt.bind
  intro position? hposition
  refine hP.attemptBind (fun second hsecond => .pure ?_) (.pure ?_)
  · have hstop : (stop ⟨color, some second⟩ : GradientItem P V).Formed good goodP :=
      ⟨hcolor, by simpa using hsecond⟩
    simpa using ⟨⟨hcolor, hposition⟩, hstop⟩
  · simpa using ⟨hcolor, hposition⟩

theorem bounded_readEntry (hV : ReadsGood good) (hP : Bounded free goodP (read : Reader P))
    (afterStop : Bool) :
    Bounded free (fun is => ∀ i ∈ is, i.Formed good goodP)
      (readEntry afterStop : Reader (List (GradientItem P V))) := by
  refine .ite (fun _ => hP.attemptBind (fun p hp => .pure ?_) (bounded_readStops hV hP)) fun _ => ?_
  · exact List.forall_mem_singleton.mpr hp
  · exact bounded_readStops hV hP

theorem bounded_readEntries (hV : ReadsGood good) (hP : Bounded free goodP (read : Reader P))
    (count : Nat) (afterStop : Bool) :
    Bounded free (fun is => ∀ i ∈ is, i.Formed good goodP)
      (readEntries count afterStop : Reader (List (GradientItem P V))) := by
  induction count generalizing afterStop with
  | zero => exact (bounded_readEntry hV hP afterStop).untilComma
  | succ n ih =>
    refine (bounded_readEntry hV hP afterStop).untilComma.bind fun items hitems => ?_
    refine Bounded.takeComma.whether ((ih _).bind fun more hmore => .pure ?_) (.pure hitems)
    exact List.forall_mem_append.mpr ⟨hitems, hmore⟩

theorem bounded_readAll (hV : ReadsGood good) (hP : Bounded free goodP (read : Reader P)) :
    Bounded free (fun is => ∀ i ∈ is, i.Formed good goodP)
      (readAll : Reader (List (GradientItem P V))) :=
  .get fun _ => (bounded_readEntries hV hP _ false).bind fun _ hitems => .unlessFail (.pure hitems)

end GradientItem

/-- Behind the name of a gradient, in its block. -/
theorem bounded_gradient {α : Type} {good : α → Prop} {name : String} {f : Bool → Reader α}
    (hname : name ∈ imageFunctions) (hrepeating : "repeating-" ++ name ∈ imageFunctions)
    (hfree : ImagesFree free) (hf : ∀ free repeating, Bounded free good (f repeating)) :
    Bounded free good (readGradientName name >>= fun repeating => block (f repeating)) := by
  refine .expectOpener (fun t a ht => ?_) fun t a ht => ?_
  · cases t <;> first | rfl | cases ht
  · cases t with
    | function n =>
      refine (hf _ a).block ?_
      dsimp only at ht
      split at ht
      · next h => exact hfree.of_mem hname n h
      · split at ht
        · next h => exact hfree.of_mem hrepeating n h
        · cases ht
    | _ => cases ht

theorem LineDirection.bounded_read :
    Bounded free (fun _ => True) (read : Reader LineDirection) := by
  refine .orElse (bounded_angleWithZero.map fun _ _ => trivial) ?_
  refine (bounded_keywordNamed _).bind fun _ _ => bounded_keyword.attemptBind (fun x _ => ?_) ?_
  · exact bounded_keyword.attemptBind (fun _ _ => .pure trivial) (.pure trivial)
  · exact bounded_keyword.bind fun y _ =>
      bounded_keyword.attemptBind (fun _ _ => .pure trivial) (.pure trivial)

theorem bounded_readAt (hV : ReadsGood good) :
    Bounded free (Position.Formed good) (readAt : Reader (Position V)) :=
  (bounded_keywordNamed _).bind fun _ _ => Position.bounded_read hV

omit [Term V] in
/-- Where nothing is said, the center is meant. -/
theorem Position.formed_getD {p? : Option (Position V)} (h : ∀ p ∈ p?, p.Formed good) :
    (p?.getD .center).Formed good := by
  cases p? with
  | none => exact ⟨trivial, trivial⟩
  | some p => exact h p rfl

namespace EndingShape

theorem bounded_readRadii (hV : ReadsGood good) :
    Bounded free (fun x => x.1.Formed good ∧ ∀ y ∈ x.2, y.Formed good)
      (readRadii : Reader (LengthPercentage V × Option (LengthPercentage V))) := by
  apply (bounded_lengthPercentage hV).bind
  intro _ hx
  apply (bounded_lengthPercentage hV).attempt.bind
  intro _ hy
  exact .pure ⟨hx, hy⟩

omit [Term V] in
theorem formed_of_ofParts? {keyword? : Option ShapeKeyword} {extent? : Option ShapeExtent}
    {radii? : Option (LengthPercentage V × Option (LengthPercentage V))} {shape : EndingShape V}
    (hradii : ∀ x ∈ radii?, x.1.Formed good ∧ ∀ y ∈ x.2, y.Formed good)
    (h : ofParts? keyword? extent? radii? = some shape) : shape.Formed good := by
  unfold ofParts? at h
  split at h <;> cases h <;> first | trivial | exact ⟨(hradii _ rfl).1, (hradii _ rfl).2 _ rfl⟩

theorem bounded_read (hV : ReadsGood good) :
    Bounded free (Formed good) (read : Reader (EndingShape V)) := by
  apply bounded_keyword.attempt.bind
  intro before? _
  apply bounded_keyword.attempt.bind
  intro extent? _
  refine .either (.pure (by simp)) (bounded_readRadii hV).attempt fun radii? hradii => ?_
  refine .either (.pure trivial) (bounded_keyword.attempt.weaken fun _ _ => trivial)
    fun keyword? _ => ?_
  dsimp only
  split
  · next h => exact .pure (formed_of_ofParts? hradii h)
  · exact .fail _

end EndingShape

section Gradients

variable (hV : ReadsGood good) (hfree : ImagesFree free)

include hV hfree

theorem LinearGradient.bounded_read :
    Bounded free (Formed good) (read : Reader (LinearGradient V)) := by
  refine bounded_gradient (by decide) (by decide) hfree fun free repeating => ?_
  have hrest (direction : LineDirection) : Bounded free (Formed good) (do
      return (⟨repeating, direction, ← GradientItem.readAll⟩ : LinearGradient V)) :=
    (GradientItem.bounded_readAll hV (bounded_lengthPercentage hV)).bind fun _ h => .pure h
  exact LineDirection.bounded_read.attemptBind
    (fun d _ => Bounded.comma.bind fun _ _ => hrest d) (hrest (.vertical .bottom))

theorem RadialGradient.bounded_read :
    Bounded free (Formed good) (read : Reader (RadialGradient V)) := by
  refine bounded_gradient (by decide) (by decide) hfree fun free repeating => ?_
  refine (EndingShape.bounded_read hV).attempt.bind fun shape? hshape => ?_
  refine (bounded_readAt hV).attempt.bind fun position? hposition => ?_
  have hrest : Bounded free (Formed good) (do
      return (⟨repeating, shape?.getD .standard, position?.getD .center, ← GradientItem.readAll⟩ :
        RadialGradient V)) := by
    refine (GradientItem.bounded_readAll hV (bounded_lengthPercentage hV)).bind fun _ h => .pure ?_
    refine ⟨?_, Position.formed_getD hposition, h⟩
    cases shape? with
    | none => exact trivial
    | some shape => exact hshape shape rfl
  exact .ite (fun _ => Bounded.comma.bind fun _ _ => hrest) fun _ => hrest

theorem ConicGradient.bounded_read :
    Bounded free (Formed good) (read : Reader (ConicGradient V)) := by
  refine bounded_gradient (by decide) (by decide) hfree fun free repeating => ?_
  have hfrom : Bounded free (fun _ => True) readFrom :=
    (bounded_keywordNamed _).bind fun _ _ => bounded_angleWithZero
  apply hfrom.attempt.bind
  intro angle? _
  apply (bounded_readAt hV).attempt.bind
  intro position? hposition
  have hrest : Bounded free (Formed good) (do
      return (⟨repeating, angle?.getD noAngle, position?.getD .center, ← GradientItem.readAll⟩ :
        ConicGradient V)) :=
    (GradientItem.bounded_readAll hV (bounded_anglePercentage hV)).bind fun _ h =>
      .pure ⟨Position.formed_getD hposition, h⟩
  exact .ite (fun _ => Bounded.comma.bind fun _ _ => hrest) fun _ => hrest

theorem Gradient.bounded_read : Bounded free (Formed good) (read : Reader (Gradient V)) := by
  refine .orElse ?_ (.orElse ?_ ?_)
  · exact (LinearGradient.bounded_read hV hfree).map fun _ h => h
  · exact (RadialGradient.bounded_read hV hfree).map fun _ h => h
  · exact (ConicGradient.bounded_read hV hfree).map fun _ h => h

end Gradients

/-! Images. -/

omit [Term V] in
theorem Element.bounded_read (hfree : ImagesFree free) :
    Bounded free (fun _ => True) (read : Reader Element) := by
  refine .functionNamed fun n hn => Bounded.block ?_ (hfree.of_mem (by decide) n hn)
  exact bounded_expect ⟨fun _ => rfl, rfl, rfl, rfl⟩

def Paint.Formed (good : V → Prop) (p : Paint V) : Prop := Sequence.Bracketed good p.arguments

theorem Paint.bounded_read (hV : ReadsGood good) (hfree : ImagesFree free) :
    Bounded free (Formed good) (read : Reader (Paint V)) := by
  refine .functionNamed fun n hn => Bounded.block ?_ (hfree.of_mem (by decide) n hn)
  refine bounded_ident.bind fun name _ => ?_
  refine (Sequence.bounded_readFallback hV).bind fun arguments? h => .pure ?_
  cases arguments? with
  | none => exact .nil
  | some vs => exact h vs rfl

namespace Image

/-- The values in an image, and in the images and colors of it, are good. -/
inductive Formed (good : V → Prop) : Image V → Prop
  | url (u : Url) : Formed good (url u)
  | gradient {g : Gradient V} (h : g.Formed good) : Formed good (gradient g)
  | imageSet {os : List (ImageSetOption V)} (h : ∀ o ∈ os, Formed good o.image) :
      Formed good (imageSet os)
  | crossFade {is : List (CrossFadeItem V)} (himages : ∀ i s?, .image i s? ∈ is → Formed good i)
      (hcolors : ∀ c s?, .color c s? ∈ is → c.Formed good) : Formed good (crossFade is)
  | element (e : Element) : Formed good (element e)
  | paint {p : Paint V} (h : p.Formed good) : Formed good (paint p)

variable {inner : Reader (Image V)}

omit [Term V] in
theorem bounded_readOption {good : Image V → Prop} (hurl : ∀ u, good (url u))
    (htype : ∀ n, sameName n "type" = true → free (.function n) = true)
    (hinner : Bounded free good inner) :
    Bounded free (fun o => good o.image) (readOption inner) := by
  have hfileType : Bounded free (fun _ => True) readFileType :=
    .functionNamed fun n hn => bounded_string.block (htype n hn)
  have himage : Bounded free good ((fun s : String => url ⟨s⟩) <$> string <|> inner) :=
    .orElse (bounded_string.map fun _ _ => hurl _) hinner
  refine himage.bind fun image h => ?_
  refine bounded_dimension.attemptBind (fun r _ => ?_) ?_
  · exact hfileType.attempt.bind fun _ _ => .pure h
  · apply hfileType.attempt.bind
    intro _ _
    apply bounded_dimension.attempt.bind
    intro _ _
    exact .pure h

theorem bounded_readSet (hfree : ImagesFree free)
    (hinner : ∀ free, ImagesFree free → Bounded free (Formed good) inner) :
    Bounded free (fun s => Formed good (imageSet s.options)) (readSet inner) := by
  refine .functionNamed fun n hn => ?_
  have htype (m : String) (hm : sameName m "type" = true) :
      uncounted (.function n) (.function m) = true :=
    uncounted_of_mem (["image-set"], ["type"]) (by decide) List.mem_cons_self
      List.mem_cons_self hn hm
  have hoption := bounded_readOption Formed.url htype
    (hinner _ (imagesFree_uncounted (by decide) hn))
  exact (hoption.commaSeparated.block (hfree.of_mem (by decide) n hn)).bind fun os h =>
    .pure (.imageSet h)

/-- The image or the color of an item is formed. -/
def ItemFormed (good : V → Prop) (i : CrossFadeItem V) : Prop :=
  (∀ image s?, i = .image image s? → image.Formed good) ∧ ∀ c s?, i = .color c s? → c.Formed good

theorem bounded_readItem (hV : ReadsGood good) (hinner : Bounded free (Formed good) inner) :
    Bounded free (ItemFormed good) (readItem inner) := by
  refine bounded_percentage.attempt.bind fun before? _ => ?_
  have hmake : Bounded free (fun make => ∀ s?, ItemFormed good (make s?))
      (CrossFadeItem.image <$> inner <|> CrossFadeItem.color <$> read) := by
    refine .orElse (hinner.map fun i hi s? => ⟨?_, by simp⟩)
      ((Color.bounded_read hV).map fun c hc s? => ⟨by simp, ?_⟩)
    · rintro _ _ ⟨⟩
      exact hi
    · rintro _ _ ⟨⟩
      exact hc
  refine hmake.bind fun make h => ?_
  cases before? with
  | some p => exact .pure (h _)
  | none => exact bounded_percentage.attempt.bind fun s? _ => .pure (h s?)

theorem bounded_readFade (hV : ReadsGood good) (hfree : ImagesFree free)
    (hinner : ∀ free, ImagesFree free → Bounded free (Formed good) inner) :
    Bounded free (fun f => Formed good (crossFade f.items)) (readFade inner) := by
  refine .functionNamed fun n hn => ?_
  have hitem := bounded_readItem hV (hinner _ (imagesFree_uncounted (by decide) hn))
  refine (hitem.commaSeparated.block (hfree.of_mem (by decide) n hn)).bind fun is h => .pure ?_
  exact .crossFade (fun i s? hi => (h _ hi).1 i s? rfl) fun c s? hc => (h _ hc).2 c s? rfl

theorem bounded_readWith (hV : ReadsGood good) (hfree : ImagesFree free)
    (hinner : ∀ free, ImagesFree free → Bounded free (Formed good) inner) :
    Bounded free (Formed good) (readWith inner) := by
  refine .orElse ?_ (.orElse ?_ (.orElse ?_ (.orElse ?_ (.orElse ?_ ?_))))
  · exact (bounded_url (hfree.of_mem (by decide))).map fun u _ => .url u
  · exact (Gradient.bounded_read hV hfree).map fun _ h => .gradient h
  · exact (bounded_readSet hfree hinner).map fun _ h => h
  · exact (bounded_readFade hV hfree hinner).map fun _ h => h
  · exact (Element.bounded_read hfree).map fun e _ => .element e
  · exact (Paint.bounded_read hV hfree).map fun _ h => .paint h

theorem bounded_readInner (hV : ReadsGood good) (hfree : ImagesFree free) :
    Bounded free (Formed good) (readInner : Reader (Image V)) := by
  have hdepth (depth : Nat) :
      ∀ free, ImagesFree free →
      Bounded free (Formed good) (readWithin depth : Reader (Image V)) := by
    induction depth with
    | zero => exact fun _ _ => .fail _
    | succ n ih => exact fun _ hfree => bounded_readWith hV hfree ih
  exact .get fun _ => hdepth _ free hfree

theorem bounded_read (hV : ReadsGood good) (hfree : ImagesFree free) :
    Bounded free (Formed good) (read : Reader (Image V)) :=
  bounded_readInner hV hfree

end Image

theorem ImageSet.bounded_read (hV : ReadsGood good) (hfree : ImagesFree free) :
    Bounded free (fun s => Image.Formed good (.imageSet s.options)) (read : Reader (ImageSet V)) :=
  Image.bounded_readSet hfree fun _ h => Image.bounded_readInner hV h

theorem CrossFade.bounded_read (hV : ReadsGood good) (hfree : ImagesFree free) :
    Bounded free (fun f => Image.Formed good (.crossFade f.items)) (read : Reader (CrossFade V)) :=
  Image.bounded_readFade hV hfree fun _ h => Image.bounded_readInner hV h

end StyleGrammar
