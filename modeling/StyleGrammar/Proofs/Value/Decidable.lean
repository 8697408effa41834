import Mathlib.Tactic.Common
import StyleGrammar.Value.Form

/-!
# Values can be told apart

Whether two values are the same can be decided.  The equality that values are compared by is another
one: for it zeros of both signs are equal, and what is no number is not equal to itself.
-/

namespace StyleGrammar

variable {V : Type}

/-! ## Calculations -/

namespace Calc

mutual

theorem same_iff [BEq V] [LawfulBEq V] (a b : Calc V) : same a b = true ↔ a = b := by
  cases a with
  | sum a a' => cases b <;> simp [same, same_iff a, same_iff a']
  | difference a a' => cases b <;> simp [same, same_iff a, same_iff a']
  | product a a' => cases b <;> simp [same, same_iff a, same_iff a']
  | quotient a a' => cases b <;> simp [same, same_iff a, same_iff a']
  | value v => cases b <;> simp [same]
  | keyword k => cases b <;> simp [same]
  | function f as => cases b <;> simp [same, sameAll_iff as]

theorem sameAll_iff [BEq V] [LawfulBEq V] (as bs : List (Calc V)) :
    sameAll as bs = true ↔ as = bs := by
  cases as with
  | nil => cases bs <;> simp [sameAll]
  | cons a as => cases bs <;> simp [sameAll, same_iff a, sameAll_iff as]

end

end Calc

instance [DecidableEq V] : DecidableEq (Calc V) :=
  fun a b => decidable_of_iff _ (Calc.same_iff a b)

deriving instance DecidableEq for MathFunction, Measure, LengthPercentageOrAuto, ColorChannel

/-! ## Colors -/

namespace Color

variable [DecidableEq V]

mutual

def identical : Color V → Color V → Bool
  | plain c, plain c' => c = c'
  | function f, function f' => identicalFunction f f'
  | mix m, mix m' => identicalMix m m'
  | lightDark l, lightDark l' => identicalLightDark l l'
  | deviceCmyk d, deviceCmyk d' => identicalCmyk d d'
  | _, _ => false

def identical? : Option (Color V) → Option (Color V) → Bool
  | none, none => true
  | some c, some c' => identical c c'
  | _, _ => false

def identicalFunction : ColorFunction V → ColorFunction V → Bool
  | ⟨s, p, o, cs, a⟩, ⟨s', p', o', cs', a'⟩ =>
    s = s' && p = p' && identical? o o' && cs = cs' && a = a'

def identicalMix : ColorMix V → ColorMix V → Bool
  | ⟨i, c, p, d, q⟩, ⟨i', c', p', d', q'⟩ =>
    i = i' && identical c c' && p = p' && identical d d' && q = q'

def identicalLightDark : LightDark V → LightDark V → Bool
  | ⟨c, d⟩, ⟨c', d'⟩ => identical c c' && identical d d'

def identicalCmyk : DeviceCmyk V → DeviceCmyk V → Bool
  | ⟨c, m, y, k, a, f⟩, ⟨c', m', y', k', a', f'⟩ =>
    c = c' && m = m' && y = y' && k = k' && a = a' && identical? f f'

end

mutual

theorem identical_iff (c d : Color V) : identical c d = true ↔ c = d := by
  cases c with
  | plain => cases d <;> simp [identical]
  | function f => cases d <;> simp [identical, identicalFunction_iff f]
  | mix m => cases d <;> simp [identical, identicalMix_iff m]
  | lightDark l => cases d <;> simp [identical, identicalLightDark_iff l]
  | deviceCmyk x => cases d <;> simp [identical, identicalCmyk_iff x]

theorem identical?_iff (c? d? : Option (Color V)) : identical? c? d? = true ↔ c? = d? := by
  cases c? with
  | none => cases d? <;> simp [identical?]
  | some c => cases d? <;> simp [identical?, identical_iff c]

theorem identicalFunction_iff (f g : ColorFunction V) : identicalFunction f g = true ↔ f = g := by
  obtain ⟨s, p, o, cs, a⟩ := f
  obtain ⟨s', p', o', cs', a'⟩ := g
  simp [identicalFunction, identical?_iff o, and_assoc]

theorem identicalMix_iff (m m' : ColorMix V) : identicalMix m m' = true ↔ m = m' := by
  obtain ⟨i, c, p, d, q⟩ := m
  obtain ⟨i', c', p', d', q'⟩ := m'
  simp [identicalMix, identical_iff c, identical_iff d, and_assoc]

theorem identicalLightDark_iff (l l' : LightDark V) : identicalLightDark l l' = true ↔ l = l' := by
  obtain ⟨light, dark⟩ := l
  obtain ⟨light', dark'⟩ := l'
  simp [identicalLightDark, identical_iff light, identical_iff dark]

theorem identicalCmyk_iff (x y : DeviceCmyk V) : identicalCmyk x y = true ↔ x = y := by
  obtain ⟨c, m, w, k, a, f⟩ := x
  obtain ⟨c', m', w', k', a', f'⟩ := y
  simp [identicalCmyk, identical?_iff f, and_assoc]

end

end Color

section

variable [DecidableEq V]

instance : DecidableEq (Color V) := fun c d => decidable_of_iff _ (Color.identical_iff c d)
instance : DecidableEq (ColorFunction V) :=
  fun f g => decidable_of_iff _ (Color.identicalFunction_iff f g)
instance : DecidableEq (ColorMix V) := fun m m' => decidable_of_iff _ (Color.identicalMix_iff m m')
instance : DecidableEq (LightDark V) :=
  fun l l' => decidable_of_iff _ (Color.identicalLightDark_iff l l')
instance : DecidableEq (DeviceCmyk V) := fun x y => decidable_of_iff _ (Color.identicalCmyk_iff x y)

end

deriving instance DecidableEq for AxisPosition, Position, ColorStop, GradientItem, LinearGradient,
  EndingShape, RadialGradient, ConicGradient, Gradient, Paint

/-! ## Images -/

namespace Image

variable [DecidableEq V]

mutual

def identical : Image V → Image V → Bool
  | url u, url u' => u = u'
  | gradient g, gradient g' => g = g'
  | imageSet os, imageSet os' => identicalOptions os os'
  | crossFade is, crossFade is' => identicalItems is is'
  | element e, element e' => e = e'
  | paint p, paint p' => p = p'
  | _, _ => false

def identicalOption : ImageSetOption V → ImageSetOption V → Bool
  | ⟨i, r, t⟩, ⟨i', r', t'⟩ => identical i i' && r = r' && t = t'

def identicalItem : CrossFadeItem V → CrossFadeItem V → Bool
  | .image i s, .image i' s' => identical i i' && s = s'
  | .color c s, .color c' s' => c = c' && s = s'
  | _, _ => false

def identicalOptions : List (ImageSetOption V) → List (ImageSetOption V) → Bool
  | [], [] => true
  | o :: os, o' :: os' => identicalOption o o' && identicalOptions os os'
  | _, _ => false

def identicalItems : List (CrossFadeItem V) → List (CrossFadeItem V) → Bool
  | [], [] => true
  | i :: is, i' :: is' => identicalItem i i' && identicalItems is is'
  | _, _ => false

end

mutual

theorem identical_iff (i j : Image V) : identical i j = true ↔ i = j := by
  cases i with
  | url => cases j <;> simp [identical]
  | gradient => cases j <;> simp [identical]
  | imageSet os => cases j <;> simp [identical, identicalOptions_iff os]
  | crossFade is => cases j <;> simp [identical, identicalItems_iff is]
  | element => cases j <;> simp [identical]
  | paint => cases j <;> simp [identical]

theorem identicalOption_iff (o o' : ImageSetOption V) : identicalOption o o' = true ↔ o = o' := by
  obtain ⟨i, r, t⟩ := o
  obtain ⟨i', r', t'⟩ := o'
  simp [identicalOption, identical_iff i, and_assoc]

theorem identicalItem_iff (i j : CrossFadeItem V) : identicalItem i j = true ↔ i = j := by
  cases i with
  | image i s => cases j <;> simp [identicalItem, identical_iff i]
  | color c s => cases j <;> simp [identicalItem]

theorem identicalOptions_iff (os os' : List (ImageSetOption V)) :
    identicalOptions os os' = true ↔ os = os' := by
  cases os with
  | nil => cases os' <;> simp [identicalOptions]
  | cons o os => cases os' <;>
    simp [identicalOptions, identicalOption_iff o, identicalOptions_iff os]

theorem identicalItems_iff (is js : List (CrossFadeItem V)) :
    identicalItems is js = true ↔ is = js := by
  cases is with
  | nil => cases js <;> simp [identicalItems]
  | cons i is => cases js <;> simp [identicalItems, identicalItem_iff i, identicalItems_iff is]

end

end Image

section

variable [DecidableEq V]

instance : DecidableEq (Image V) := fun i j => decidable_of_iff _ (Image.identical_iff i j)
instance : DecidableEq (ImageSetOption V) :=
  fun o o' => decidable_of_iff _ (Image.identicalOption_iff o o')
instance : DecidableEq (CrossFadeItem V) :=
  fun i j => decidable_of_iff _ (Image.identicalItem_iff i j)

end

deriving instance DecidableEq for ImageSet, CrossFade

/-! ## Values -/

deriving instance DecidableEq for Sides, BorderRadius, InsetRect, RectShape, Xywh, ShapeRadius,
  Circle, Ellipse, Point, Polygon
deriving instance DecidableEq for TrackBreadth, MinMax, FitContent, TrackListItem, Repetition
deriving instance DecidableEq for Attr, Env, Var, CounterSymbol, Symbols, CounterStyle, Counter,
  Counters, TargetUrl, TargetCounter, TargetCounters, TargetText
deriving instance DecidableEq for Transform, Filter, AnchorSize, View, Form

instance Nested.decidableEq : (depth : Nat) → DecidableEq (Nested depth)
  | 0 => inferInstanceAs (DecidableEq Leaf)
  | depth + 1 =>
    have := Nested.decidableEq depth
    inferInstanceAs (DecidableEq (Form (Nested depth)))

end StyleGrammar
