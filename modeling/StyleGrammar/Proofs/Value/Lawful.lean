import StyleGrammar.Proofs.Reader.Takes
import StyleGrammar.Proofs.Value.Counters
import StyleGrammar.Proofs.Value.FunctionTable
import StyleGrammar.Proofs.Value.Layout
import StyleGrammar.Proofs.Value.Shapes

/-!
# Values are lawful at every depth

A value is good if it is a leaf that a text has, a function over sequences that
keeps what reading checks, or any other function that prints solidly.  Values of
every depth are `Lawful` with their notion of good, by recursion on the depth.
-/

namespace StyleGrammar

open Reader Output

/-- The tokens that leaves stand for open no block. -/
theorem Leaf.closer?_of_ofToken {t : Token} {l : Leaf} (h : Leaf.ofToken t = .ok l) :
    t.closer? = none := by
  cases t <;> first | rfl | cases h

/-- A leaf at the next token. -/
theorem twin_leaf {α : Type} {good : α → Prop} {c d : Cursor} {r r' : List Component} {room : Nat}
    (hfront : Front room r r' c d) {t : Token} {c' d' : Cursor}
    (hc : c.next = .ok (t, c')) (hd : d.next = .ok (t, d')) (f : Leaf → α)
    (hf : ∀ l, l.Good → good (f l)) :
    Agree (fun a c' d' => good a ∧ Done r r' c' d' ∧ c'.nesting = c.nesting ∧
    d'.nesting = d.nesting)
      (match Leaf.ofToken t with
        | .ok l => .ok (f l, c')
        | .error cause => .error ⟨cause, c.here⟩)
      (match Leaf.ofToken t with
        | .ok l => .ok (f l, d')
        | .error cause => .error ⟨cause, d.here⟩) := by
  have hnext := hfront.next
  rw [hc, hd] at hnext
  cases hnext with
  | ok h =>
    obtain ⟨hsound, hdone, -, hnesting⟩ := h
    cases hl : Leaf.ofToken t with
    | error => exact .error
    | ok l => exact .ok ⟨hf l (.token hsound hl), hdone (Leaf.closer?_of_ofToken hl), hnesting⟩

/-- A reader that goes by the next token, from where it began. -/
theorem Twin.byNext {α : Type} {good : α → Prop} {Q : Cursor → Cursor → Prop}
    {r r' : List Component} {room : Nat} {p : Reader α}
    (herror : ∀ c e, c.next = .error e → p c = .error e)
    (hok : ∀ c d t c' d', Front room r r' c d → c.next = .ok (t, c') → d.next = .ok (t, d') →
      Agree (fun a c' d' => good a ∧ Q c' d' ∧ c'.nesting = c.nesting ∧ d'.nesting = d.nesting)
        (p c) (p d)) :
    Twin (Front room r r') Q good p p := by
  intro c d hfront
  have hnext := hfront.next
  cases hc : c.next with
  | error =>
    cases hd : d.next with
    | error =>
      rw [herror c _ hc, herror d _ hd]
      exact .error
    | ok =>
      rw [hc, hd] at hnext
      cases hnext
  | ok x =>
    cases hd : d.next with
    | error =>
      rw [hc, hd] at hnext
      cases hnext
    | ok y =>
      rw [hc, hd] at hnext
      cases hnext
      exact hok c d _ _ _ hfront hc hd

theorem Leaf.readLeaf_eq {c c' : Cursor} {t : Token} (h : c.next = .ok (t, c'))
    (ht : ∀ n, t ≠ .function n) :
    Leaf.readLeaf c =
      match Leaf.ofToken t with
      | .ok l => .ok (l, c')
      | .error cause => .error ⟨cause, c.here⟩ := by
  unfold Leaf.readLeaf
  rw [h]
  cases t <;> first | rfl | exact absurd rfl (ht _)

theorem Leaf.lawful : Lawful Leaf Leaf.Good where
  head r r' := by
    refine Twin.byNext (fun c e h => ?_) fun c d t c' d' hfront hc hd => ?_
    · change Leaf.readLeaf c = _
      rw [Leaf.readLeaf, h]
      rfl
    change Agree _ (Leaf.readLeaf c) (Leaf.readLeaf d)
    cases t with
    | function n =>
      unfold Leaf.readLeaf
      rw [hc, hd]
      change Agree _ (if (functionKind? n).isSome then _ else _)
          (if (functionKind? n).isSome then _ else _)
      split <;> exact .error
    | _ =>
      rw [Leaf.readLeaf_eq hc (by simp), Leaf.readLeaf_eq hd (by simp)]
      exact twin_leaf hfront hc hd id fun _ h => h
  leaf v l h hleaf := by
    cases hleaf
    exact h
  solid v _ hleaf := by cases hleaf
  print_leaf v l compact hleaf := by
    cases hleaf
    rfl
  kind_leaf v l hleaf := by
    cases hleaf
    rfl
  leaf?_ofLeaf l := rfl
  token c c' t h ht := readLeaf_eq h ht
  math c c' c'' n v h hn hread := by
    change Leaf.readLeaf c = _ at hread
    unfold Leaf.readLeaf at hread
    rw [h] at hread
    change (if (functionKind? n).isSome then (.error _ : Except Fault (Leaf × Cursor))
        else .error _) = _
      at hread
    split at hread <;> cases hread

variable {V : Type} [Term V] {good : V → Prop}

namespace Form

/-- What is known of a value that was read. -/
def Good (good : V → Prop) : Form V → Prop
  | leaf l => l.Good
  | paint p => p.Good good
  | attr a => a.Good good
  | env e => e.Good good
  | var v => v.Good good
  | transform t => t.Good good
  | filter f => f.Good good
  | v => PrintsSolid v

theorem steadyHead_readFunction (hV : Lawful V good) (k : Kind) :
    SteadyHead (Good good) (readFunction k : Reader (Form V)) := by
  intro r r'
  cases k with
  | url => exact (steadyHead_urlValue r r').map fun u _ => .url u
  | color =>
    refine (SimpleColor.steadyHead_read hV r r').map fun s hs => ?_
    cases s with
    | plain c =>
      obtain ⟨t, ht⟩ := hs
      exact .color ht
    | function f => exact hs
  | colorMix => exact (ColorMix.steadyHead_read hV r r').map fun _ h => h
  | lightDark => exact (LightDark.steadyHead_read hV r r').map fun _ h => h
  | deviceCmyk => exact (DeviceCmyk.steadyHead_read hV r r').map fun _ h => h
  | linearGradient => exact (LinearGradient.steadyHead_read hV r r').map fun _ h => h
  | radialGradient => exact (RadialGradient.steadyHead_read hV r r').map fun _ h => h
  | conicGradient => exact (ConicGradient.steadyHead_read hV r r').map fun _ h => h
  | imageSet => exact (ImageSet.steadyHead_read hV r r').map fun _ h => h
  | crossFade => exact (CrossFade.steadyHead_read hV r r').map fun _ h => h
  | element => exact (Element.steadyHead_read r r').map fun _ h => h
  | paint => exact (Paint.steadyHead_read hV r r').map fun _ h => h
  | circle => exact (Circle.steadyHead_read hV r r').map fun _ h => h
  | ellipse => exact (Ellipse.steadyHead_read hV r r').map fun _ h => h
  | inset => exact (InsetRect.steadyHead_read hV r r').map fun _ h => h
  | rect => exact (RectShape.steadyHead_read hV r r').map fun _ h => h
  | xywh => exact (Xywh.steadyHead_read hV r r').map fun _ h => h
  | polygon => exact (Polygon.steadyHead_read hV r r').map fun _ h => h
  | path => exact (Path.steadyHead_read r r').map fun _ h => h
  | minmax => exact (MinMax.steadyHead_read hV r r').map fun _ h => h
  | repetition => exact (Repetition.steadyHead_read hV r r').map fun _ h => h
  | fitContent => exact (FitContent.steadyHead_read hV r r').map fun _ h => h
  | cubicBezier => exact (CubicBezier.steadyHead_read r r').map fun _ h => h
  | steps => exact (Steps.steadyHead_read r r').map fun _ h => h
  | linear => exact (Linear.steadyHead_read r r').map fun _ h => h
  | counter => exact (Counter.steadyHead_read hV r r').map fun _ h => h
  | counters => exact (Counters.steadyHead_read hV r r').map fun _ h => h
  | symbols => exact (Symbols.steadyHead_read hV r r').map fun _ h => h
  | attr => exact (Attr.steadyHead_read hV r r').map fun _ h => h
  | env => exact (Env.steadyHead_read hV r r').map fun _ h => h
  | var => exact (Var.steadyHead_read hV r r').map fun _ h => h
  | leader => exact (Leader.steadyHead_read r r').map fun _ h => h
  | targetCounter => exact (TargetCounter.steadyHead_read hV r r').map fun _ h => h
  | targetCounters => exact (TargetCounters.steadyHead_read hV r r').map fun _ h => h
  | targetText => exact (TargetText.steadyHead_read hV r r').map fun _ h => h
  | transform => exact (Transform.steadyHead_read hV r r').map fun _ h => h
  | filter => exact (Filter.steadyHead_read hV r r').map fun _ h => h
  | math => exact (MathFunction.steadyHead_read hV r r').map fun _ h => h
  | anchorSize => exact (AnchorSize.steadyHead_read hV r r').map fun _ h => h
  | add => exact (Add.steadyHead_read r r').map fun _ h => h
  | alternateGlyph => exact (AlternateGlyph.steadyHead_read r r').map fun _ h => h
  | view => exact (View.steadyHead_read hV r r').map fun _ h => h
  | scroll => exact (Scroll.steadyHead_read r r').map fun _ h => h
  | _ => exact .fail _

theorem Good.solid (hV : Lawful V good) {v : Form V} (h : v.Good good) (hleaf : v.leaf? = none) :
    PrintsSolid v := by
  cases v with
  | leaf l => cases hleaf
  | paint p => exact Paint.Good.solid hV h
  | attr a => exact Attr.Good.solid hV h
  | env e => exact Env.Good.solid hV h
  | var v => exact Var.Good.solid hV h
  | transform t => exact Transform.Good.solid hV h
  | filter f => exact Filter.Good.solid hV h
  | _ => exact h

theorem readForm_function {c c' : Cursor} {n : String} {k : Kind}
    (h : c.next = .ok (.function n, c')) (hk : functionKind? n = some k) :
    (readForm : Reader (Form V)) c = nested (readFunction k) c := by
  unfold readForm
  rw [h]
  simp only [bind, Except.bind, hk]

theorem readForm_unknown {c c' : Cursor} {n : String} (h : c.next = .ok (.function n, c'))
    (hk : functionKind? n = none) :
    (readForm : Reader (Form V)) c = .error ⟨.unknownFunction n, c.here⟩ := by
  unfold readForm
  rw [h]
  simp only [bind, Except.bind, hk]

theorem readForm_token {c c' : Cursor} {t : Token} (h : c.next = .ok (t, c'))
    (ht : ∀ n, t ≠ .function n) :
    (readForm : Reader (Form V)) c =
      match Leaf.ofToken t with
      | .ok l => .ok (leaf l, c')
      | .error cause => .error ⟨cause, c.here⟩ := by
  unfold readForm
  rw [h]
  cases t <;> first | rfl | exact absurd rfl (ht _)

theorem mathName_mem_all (f : MathName) : f ∈ (Keyword.all : List MathName) := by
  cases f <;> simp [Keyword.all]

theorem functionKind?_mathName (f : MathName) : functionKind? (Keyword.name f) = some .math := by
  have hnames : namesOf .math = (Keyword.all : List MathName).map Keyword.name := rfl
  exact functionKind?_of_mem (hnames ▸ List.mem_map_of_mem (mathName_mem_all f))

theorem functionKind?_math {n : String} (h : (Keyword.ofName? MathName n).isSome = true) :
    functionKind? n = some .math := by
  obtain ⟨f, hf⟩ := Option.isSome_iff_exists.mp h
  rw [← functionKind?_mathName f]
  exact (functionKind?_congr (by simpa using List.find?_some hf)).symm

theorem lawful (hV : Lawful V good) : Lawful (Form V) (Good good) where
  head r r' := by
    refine Twin.byNext (fun c e h => ?_) fun c d t c' d' hfront hc hd => ?_
    · change readForm c = _
      rw [readForm, h]
      rfl
    change Agree _ (readForm c) (readForm d)
    cases t with
    | function n =>
      cases hk : functionKind? n with
      | some k =>
        rw [readForm_function hc hk, readForm_function hd hk]
        exact (steadyHead_readFunction hV k r r').nestedFront c d hfront
      | none =>
        rw [readForm_unknown hc hk, readForm_unknown hd hk]
        exact .error
    | _ =>
      rw [readForm_token hc (by simp), readForm_token hd (by simp)]
      exact twin_leaf hfront hc hd leaf fun _ h => h
  leaf v l h hleaf := by
    cases v <;> cases hleaf
    exact h
  solid v h hleaf := h.solid hV hleaf
  print_leaf v l compact hleaf := by
    cases v <;> cases hleaf
    rfl
  kind_leaf v l hleaf := by
    cases v <;> cases hleaf
    rfl
  leaf?_ofLeaf _ := rfl
  token c c' t h ht := readForm_token h ht
  math c c' c'' n v h hn hread := by
    change readForm c = _ at hread
    rw [readForm_function h (functionKind?_math hn)] at hread
    obtain ⟨d, d', hmath⟩ := of_nested hread
    obtain ⟨f, -, rfl⟩ := of_map hmath
    rfl

end Form

namespace Nested

/-- What is known of a value of some depth that was read. -/
def Good : (depth : Nat) → Nested depth → Prop
  | 0 => Leaf.Good
  | n + 1 => Form.Good (Nested.Good n)

theorem lawful (depth : Nat) : Lawful (Nested depth) (Nested.Good depth) := by
  induction depth with
  | zero => exact Leaf.lawful
  | succ n ih => exact Form.lawful ih

end Nested

end StyleGrammar
