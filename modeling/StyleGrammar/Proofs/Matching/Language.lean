import StyleGrammar.Grammar.Match
import Mathlib.Data.List.Perm.Subperm
import Mathlib.Tactic.Common

/-!
# The words of a grammar

What lists of values a node stands for, said without the matcher.  A repetition
of a leaf is one value; a repetition of any other node puts together words of
the nodes it is made of, arranged as its combinator allows.  A word of a node is
a number of repetitions that its quantifier admits.

`Repeats` says the same from the point of view of a match: what may follow a
number of repetitions.  The two agree at the start (`word_iff_repeats`), and the
nodes that the matcher takes for empty do stand for the empty list.
-/

namespace StyleGrammar

open List

/-- The ways to arrange the nodes that one repetition is made of. -/
def NodeKind.Arranges : NodeKind → List NodeId → Prop
  | .sequence cs, ids => ids = cs
  | .unordered cs, ids => ids ~ cs
  | .subset cs, ids => ids ≠ [] ∧ ids <+~ cs
  | .alternation cs, ids => ∃ c ∈ cs, ids = [c]
  | .reference _ target, ids => ids = [target]
  | _, _ => False

/-- Another repetition after some number of them stays below the maximum. -/
def Quantifier.Fits (q : Quantifier) (count : Nat) : Prop := ∀ max, q.max? = some max → count ≤ max

theorem Quantifier.fits_succ_iff {q : Quantifier} {count : Nat} :
    q.Fits (count + 1) ↔ q.allows count = true := by
  unfold Quantifier.Fits Quantifier.allows
  cases q.max? with
  | none => simp
  | some max =>
    rw [decide_eq_true_eq]
    exact ⟨fun hfits => hfits max rfl, fun hlt _ hmax => Option.some.inj hmax ▸ hlt⟩

theorem Quantifier.Fits.mono {q : Quantifier} {count count' : Nat}
    (hfits : q.Fits count') (hle : count ≤ count') : q.Fits count :=
  fun max hmax => Nat.le_trans hle (hfits max hmax)

/-- The repetitions one after the other, the separator in front of all but the first. -/
def joined {α : Type} (separator : List α) : List (List α) → List α
  | [] => []
  | first :: rest => first ++ rest.flatMap (separator ++ ·)

namespace Matcher

variable {V : Type}

theorem isLiteral_of_ne_delimiter {v : Form V} {text : String}
    (h : ∀ c, v ≠ .leaf (.delimiter c)) :
    isLiteral v text = v.ident?.any (Reader.sameName text) := by
  unfold isLiteral
  split
  next c => exact absurd rfl (h c)
  next => rfl

/-- Whether a value is the whole of one repetition. -/
def takesWhole (m : Matcher) (id : NodeId) (v : Form V) : Bool :=
  match m.kind id with
  | .literal text => isLiteral v text
  | .dataType name => DataType.accepts name m.forbidden v
  | .function name _ => isFunction v name
  | .reference name _ => isComposite v name
  | _ => false

/-- The values between two repetitions of a node. -/
def separator (m : Matcher) (id : NodeId) : List (Form V) :=
  ((m.quantifier id).separator?.map fun c => Form.leaf (.delimiter c)).toList

mutual

/-- The lists of values that a node with its quantifier stands for.  Repetitions are never empty;
too few of them are enough where one may match nothing. -/
inductive Word (m : Matcher) : NodeId → List (Form V) → Prop
  | repeated {id : NodeId} (reps : List (List (Form V)))
      (hne : ∀ r ∈ reps, r ≠ []) (hreps : ∀ r ∈ reps, Content m id r)
      (hmax : (m.quantifier id).Fits reps.length)
      (hrequired : reps.length < (m.quantifier id).min → (m.quantifier id).required = false)
      (hempty : reps.length < (m.quantifier id).min → Content m id []) :
      Word m id (joined (m.separator id) reps)

/-- The lists of values that one repetition of a node stands for. -/
inductive Content (m : Matcher) : NodeId → List (Form V) → Prop
  | whole {id : NodeId} {v : Form V} (htakes : m.takesWhole id v = true) : Content m id [v]
  | parts {id : NodeId} (parts : List (NodeId × List (Form V)))
      (harranges : (m.kind id).Arranges (parts.map Prod.fst))
      (hwords : ∀ part ∈ parts, Word m part.1 part.2) :
      Content m id (parts.flatMap Prod.snd)

end

/-- Whether one repetition of a node may be left out. -/
def Omittable (V : Type) (m : Matcher) (id : NodeId) : Prop :=
  (m.quantifier id).required = false ∧ m.Content (V := V) id []

/-- Words of nodes in some arrangement, one after the other. -/
def Parts (m : Matcher) (arranges : List NodeId → Prop) (u : List (Form V)) : Prop :=
  ∃ parts : List (NodeId × List (Form V)),
    arranges (parts.map Prod.fst) ∧ (∀ part ∈ parts, m.Word part.1 part.2) ∧
      u = parts.flatMap Prod.snd

variable {m : Matcher}

theorem word_of_reps {id : NodeId} {reps : List (List (Form V))}
    (hreps : ∀ r ∈ reps, r ≠ [] ∧ m.Content id r)
    (hmax : (m.quantifier id).Fits reps.length)
    (hmin : (m.quantifier id).min ≤ reps.length ∨ m.Omittable V id) :
    m.Word id (joined (m.separator id) reps) := by
  have hempty (hfew : reps.length < (m.quantifier id).min) : m.Omittable V id :=
    hmin.resolve_left (Nat.not_le_of_lt hfew)
  exact .repeated reps (fun r hr => (hreps r hr).1) (fun r hr => (hreps r hr).2) hmax
    (fun hfew => (hempty hfew).1) (fun hfew => (hempty hfew).2)

theorem Word.exists_reps {id : NodeId} {w : List (Form V)} (hword : m.Word id w) :
    ∃ reps, (∀ r ∈ reps, r ≠ [] ∧ m.Content id r) ∧ (m.quantifier id).Fits reps.length ∧
      ((m.quantifier id).min ≤ reps.length ∨ m.Omittable V id) ∧
      w = joined (m.separator id) reps := by
  cases hword with
  | repeated reps hne hreps hmax hrequired hempty =>
    refine ⟨reps, fun r hr => ⟨hne r hr, hreps r hr⟩, hmax, ?_, rfl⟩
    rcases Nat.lt_or_ge reps.length (m.quantifier id).min with hfew | hmany
    · exact .inr ⟨hrequired hfew, hempty hfew⟩
    · exact .inl hmany

theorem content_of_parts {id : NodeId} {u : List (Form V)}
    (hparts : m.Parts (m.kind id).Arranges u) : m.Content id u := by
  obtain ⟨parts, harranges, hwords, rfl⟩ := hparts
  exact .parts parts harranges hwords

theorem content_iff {id : NodeId} {u : List (Form V)} :
    m.Content id u ↔
      (∃ v, u = [v] ∧ m.takesWhole id v = true) ∨ m.Parts (m.kind id).Arranges u := by
  constructor
  · intro hcontent
    cases hcontent with
    | whole htakes => exact .inl ⟨_, rfl, htakes⟩
    | parts parts harranges hwords => exact .inr ⟨parts, harranges, hwords, rfl⟩
  · rintro (⟨v, rfl, htakes⟩ | hparts)
    · exact .whole htakes
    · exact content_of_parts hparts

/-! ## Parts -/

theorem Parts.mono {arranges arranges' : List NodeId → Prop} {u : List (Form V)}
    (hparts : m.Parts arranges u) (himp : ∀ ids, arranges ids → arranges' ids) :
    m.Parts arranges' u := by
  obtain ⟨parts, harranges, hwords, hu⟩ := hparts
  exact ⟨parts, himp _ harranges, hwords, hu⟩

/-- A word in front of other parts. -/
theorem Parts.cons {arranges arranges' : List NodeId → Prop} {c : NodeId}
    {a b : List (Form V)} (hword : m.Word c a) (hparts : m.Parts arranges b)
    (himp : ∀ ids, arranges ids → arranges' (c :: ids)) : m.Parts arranges' (a ++ b) := by
  obtain ⟨parts, harranges, hwords, rfl⟩ := hparts
  refine ⟨(c, a) :: parts, himp _ harranges, ?_, rfl⟩
  intro part hmem
  rcases List.mem_cons.mp hmem with rfl | hmem
  · exact hword
  · exact hwords part hmem

theorem Parts.singleton {arranges : List NodeId → Prop} {c : NodeId} {u : List (Form V)}
    (hword : m.Word c u) (harranges : arranges [c]) : m.Parts arranges u :=
  ⟨[(c, u)], harranges, by simpa using hword, by simp⟩

/-- Nodes that may all be empty leave nothing behind. -/
theorem Parts.nil_of_forall {arranges : List NodeId → Prop} {ids : List NodeId}
    (harranges : arranges ids) (hempty : ∀ id ∈ ids, m.Word (V := V) id []) :
    m.Parts (V := V) arranges [] := by
  refine ⟨ids.map fun id => (id, []), ?_, ?_, ?_⟩
  · simpa [Function.comp_def] using harranges
  · intro part hmem
    obtain ⟨id, hid, rfl⟩ := List.mem_map.mp hmem
    exact hempty id hid
  · symm
    rw [List.flatMap_eq_nil_iff]
    intro part hmem
    obtain ⟨id, -, rfl⟩ := List.mem_map.mp hmem
    rfl

/-- Parts that are nothing together are nothing each. -/
theorem Parts.forall_of_nil {arranges : List NodeId → Prop}
    (hparts : m.Parts (V := V) arranges []) :
    ∃ ids, arranges ids ∧ ∀ id ∈ ids, m.Word (V := V) id [] := by
  obtain ⟨parts, harranges, hwords, hnil⟩ := hparts
  refine ⟨parts.map Prod.fst, harranges, ?_⟩
  intro id hmem
  obtain ⟨part, hpart, rfl⟩ := List.mem_map.mp hmem
  have hempty : part.2 = [] := List.flatMap_eq_nil_iff.mp hnil.symm part hpart
  rw [← hempty]
  exact hwords part hpart

/-- The first of the parts that is not empty. -/
theorem Parts.exists_first {arranges : List NodeId → Prop} {v : Form V} {u : List (Form V)}
    (hparts : m.Parts arranges (v :: u)) :
    ∃ front c behind a b, arranges (front ++ c :: behind) ∧
      (∀ x ∈ front, m.Word (V := V) x []) ∧ m.Word c (v :: a) ∧ m.Parts (· = behind) b ∧
      u = a ++ b := by
  obtain ⟨parts, harranges, hwords, hu⟩ := hparts
  induction parts generalizing arranges with
  | nil => simp at hu
  | cons part parts ih =>
    obtain ⟨c, w⟩ := part
    have hword := hwords (c, w) List.mem_cons_self
    have hrest (part) (hmem : part ∈ parts) := hwords part (List.mem_cons_of_mem _ hmem)
    cases w with
    | nil =>
      obtain ⟨front, c', behind, a, b, harranges, hfront, hothers⟩ :=
        @ih (fun ids => arranges (c :: ids)) harranges hrest (by simpa using hu)
      refine ⟨c :: front, c', behind, a, b, harranges, ?_, hothers⟩
      intro x hx
      rcases List.mem_cons.mp hx with rfl | hx
      · exact hword
      · exact hfront x hx
    | cons v' a =>
      simp only [List.flatMap_cons, List.cons_append, List.cons.injEq] at hu
      obtain ⟨rfl, rfl⟩ := hu
      exact ⟨[], c, parts.map Prod.fst, a, _, harranges, by simp, hword,
        ⟨parts, rfl, hrest, rfl⟩, rfl⟩

/-! ## What may follow a number of repetitions -/

/-- What may follow `count` repetitions, where `separated` says that a separator was taken
behind them. -/
inductive Repeats (q : Quantifier) (content : List (Form V) → Prop) :
    (count : Nat) → (separated : Bool) → List (Form V) → Prop
  | stop {count : Nat} (henough : q.min ≤ count ∨ q.required = false ∧ content []) :
      Repeats q content count false []
  | separate {count : Nat} {c : Char} {u : List (Form V)} (hsep : q.separator? = some c)
      (hpos : 0 < count) (hrest : Repeats q content count true u) :
      Repeats q content count false (.leaf (.delimiter c) :: u)
  | again {count : Nat} {separated : Bool} {w u : List (Form V)}
      (hsep : q.separator? = none ∨ count = 0 ∨ separated = true)
      (hallows : q.allows count = true) (hne : w ≠ []) (hcontent : content w)
      (hrest : Repeats q content (count + 1) false u) :
      Repeats q content count separated (w ++ u)

/-- The repetitions that may follow some number of others. -/
def Follows (q : Quantifier) (content : List (Form V) → Prop) (count : Nat)
    (reps : List (List (Form V))) : Prop :=
  (∀ r ∈ reps, r ≠ [] ∧ content r) ∧ q.Fits (count + reps.length) ∧
    (q.min ≤ count + reps.length ∨ q.required = false ∧ content [])

theorem Follows.tail {q : Quantifier} {content : List (Form V) → Prop} {count : Nat}
    {r : List (Form V)} {reps : List (List (Form V))} (h : Follows q content count (r :: reps)) :
    Follows q content (count + 1) reps := by
  obtain ⟨hreps, hmax, hmin⟩ := h
  rw [List.length_cons, show count + (reps.length + 1) = count + 1 + reps.length by omega]
    at hmax hmin
  exact ⟨fun r hr => hreps r (List.mem_cons_of_mem _ hr), hmax, hmin⟩

theorem repeats_behind {id : NodeId} {content : List (Form V) → Prop}
    {reps : List (List (Form V))} {count : Nat} (hpos : 0 < count)
    (h : Follows (m.quantifier id) content count reps) :
    Repeats (m.quantifier id) content count false (reps.flatMap (m.separator id ++ ·)) := by
  induction reps generalizing count with
  | nil => exact .stop h.2.2
  | cons r reps ih =>
    have hrest := ih (Nat.succ_pos count) h.tail
    obtain ⟨hne, hcontent⟩ := h.1 r List.mem_cons_self
    have hallows : (m.quantifier id).allows count = true :=
      Quantifier.fits_succ_iff.mp (h.2.1.mono (by simp))
    rw [List.flatMap_cons, List.append_assoc]
    cases hsep : (m.quantifier id).separator? with
    | none =>
      have hnil : m.separator (V := V) id = [] := by simp [separator, hsep]
      rw [hnil, List.nil_append]
      rw [hnil] at hrest
      exact .again (.inl hsep) hallows hne hcontent hrest
    | some c =>
      have hcons : m.separator (V := V) id = [.leaf (.delimiter c)] := by simp [separator, hsep]
      rw [hcons, List.singleton_append]
      rw [hcons] at hrest
      exact .separate hsep hpos (.again (.inr (.inr rfl)) hallows hne hcontent hrest)

theorem repeats_joined {id : NodeId} {content : List (Form V) → Prop}
    {reps : List (List (Form V))} (h : Follows (m.quantifier id) content 0 reps) :
    Repeats (m.quantifier id) content 0 false (joined (m.separator id) reps) := by
  cases reps with
  | nil => exact .stop h.2.2
  | cons r reps =>
    obtain ⟨hne, hcontent⟩ := h.1 r List.mem_cons_self
    have hallows : (m.quantifier id).allows 0 = true :=
      Quantifier.fits_succ_iff.mp (h.2.1.mono (by simp))
    exact .again (.inr (.inl rfl)) hallows hne hcontent
      (repeats_behind (Nat.succ_pos 0) h.tail)

/-- What follows is made of whole repetitions.  The first of them has no separator of its own in
front at the start and behind a separator. -/
theorem Repeats.exists_reps {id : NodeId} {content : List (Form V) → Prop} {count : Nat}
    {separated : Bool} {u : List (Form V)}
    (h : Repeats (m.quantifier id) content count separated u)
    (hfits : (m.quantifier id).Fits count) :
    ∃ reps, Follows (m.quantifier id) content count reps ∧
      u = if count = 0 ∨ separated = true then joined (m.separator id) reps
        else reps.flatMap (m.separator id ++ ·) := by
  induction h with
  | stop henough =>
    exact ⟨[], ⟨by simp, by simpa using hfits, by simpa using henough⟩, by simp [joined]⟩
  | @separate count c u hsep hpos hrest ih =>
    obtain ⟨reps, hfollows, rfl⟩ := ih hfits
    have hcons : m.separator (V := V) id = [.leaf (.delimiter c)] := by simp [separator, hsep]
    cases reps with
    | nil =>
      generalize hu : (if count = 0 ∨ true = true then joined (m.separator id) []
        else List.flatMap (m.separator id ++ ·) []) = u at hrest
      cases hrest with
      | again _ _ hne => simp [joined, hne] at hu
    | cons r reps =>
      refine ⟨r :: reps, hfollows, ?_⟩
      simp [joined, hcons, Nat.ne_of_gt hpos]
  | @again count separated w u hsep hallows hne hcontent hrest ih =>
    obtain ⟨reps, hfollows, rfl⟩ := ih (Quantifier.fits_succ_iff.mpr hallows)
    refine ⟨w :: reps, ⟨?_, ?_, ?_⟩, ?_⟩
    · intro r hr
      rcases List.mem_cons.mp hr with rfl | hr
      · exact ⟨hne, hcontent⟩
      · exact hfollows.1 r hr
    · simpa [Nat.add_assoc, Nat.add_comm 1] using hfollows.2.1
    · simpa [Nat.add_assoc, Nat.add_comm 1] using hfollows.2.2
    · rcases hsep with hsep | hzero | hsep
      · have hnil : m.separator (V := V) id = [] := by simp [separator, hsep]
        simp [joined, hnil]
      · simp [joined, hzero]
      · simp [joined, hsep]

theorem word_iff_repeats {id : NodeId} {w : List (Form V)} :
    m.Word id w ↔ Repeats (m.quantifier id) (m.Content id) 0 false w := by
  constructor
  · intro hword
    obtain ⟨reps, hreps, hmax, hmin, rfl⟩ := hword.exists_reps
    exact repeats_joined ⟨hreps, by simpa using hmax, by simpa [Omittable] using hmin⟩
  · intro hrepeats
    obtain ⟨reps, ⟨hreps, hmax, hmin⟩, rfl⟩ :=
      hrepeats.exists_reps (fun _ _ => Nat.zero_le _)
    exact word_of_reps hreps (by simpa using hmax) (by simpa [Omittable] using hmin)

/-- A word that is not empty begins with a repetition. -/
theorem Word.exists_content {id : NodeId} {v : Form V} {w : List (Form V)}
    (hword : m.Word id (v :: w)) :
    ∃ a b, v :: w = a ++ b ∧ a ≠ [] ∧ m.Content id a := by
  generalize hu : v :: w = u at hword
  cases word_iff_repeats.mp hword with
  | stop => cases hu
  | separate _ hpos => exact absurd hpos (Nat.lt_irrefl 0)
  | again _ _ hne hcontent => exact ⟨_, _, rfl, hne, hcontent⟩

/-! ## Empty words -/

theorem word_nil_iff {id : NodeId} :
    m.Word (V := V) id [] ↔ (m.quantifier id).min = 0 ∨ m.Omittable V id := by
  constructor
  · intro hword
    obtain ⟨reps, hreps, hmax, hmin, hu⟩ := hword.exists_reps
    cases reps with
    | nil => simpa using hmin
    | cons r reps => simp [joined, (hreps r List.mem_cons_self).1] at hu
  · intro hempty
    have hword : m.Word (V := V) id (joined (m.separator id) []) :=
      word_of_reps (by simp) (fun _ _ => Nat.zero_le _) (by simpa using hempty)
    simpa [joined] using hword

theorem content_nil_iff {id : NodeId} :
    m.Content (V := V) id [] ↔
      ∃ ids, (m.kind id).Arranges ids ∧ ∀ c ∈ ids, m.Word (V := V) c [] := by
  rw [content_iff]
  constructor
  · rintro (⟨v, hv, -⟩ | hparts)
    · simp at hv
    · exact hparts.forall_of_nil
  · rintro ⟨ids, harranges, hempty⟩
    exact .inr (.nil_of_forall harranges hempty)

theorem omittable_of_contentNullable {levels : Nat} {id : NodeId}
    (h : m.contentNullable levels id = true) : m.Omittable V id := by
  induction levels generalizing id with
  | zero => simp [contentNullable] at h
  | succ n ih =>
    have hword : ∀ {c}, ((m.quantifier c).min = 0 ∨ m.contentNullable n c = true) →
        m.Word (V := V) c [] := fun hc => word_nil_iff.mpr (hc.imp_right ih)
    simp only [contentNullable, Bool.and_eq_true, Bool.not_eq_true'] at h
    refine ⟨h.1, content_nil_iff.mpr ?_⟩
    replace h := h.2
    cases hkind : m.kind id <;> simp only [hkind] at h <;>
      simp only [List.all_eq_true, List.any_eq_true, Bool.or_eq_true, decide_eq_true_eq,
        Bool.false_eq_true] at h
    case sequence cs => exact ⟨cs, rfl, fun c hc => hword (h c hc)⟩
    case unordered cs => exact ⟨cs, List.Perm.refl cs, fun c hc => hword (h c hc)⟩
    case subset cs =>
      obtain ⟨c, hc, hnull⟩ := h
      exact ⟨[c], ⟨by simp, by simpa using hc⟩, by simpa using hword hnull⟩
    case alternation cs =>
      obtain ⟨c, hc, hnull⟩ := h
      exact ⟨[c], ⟨c, hc, rfl⟩, by simpa using hword hnull⟩
    case reference name target => exact ⟨[target], rfl, by simpa using hword h⟩

theorem word_nil_of_nullable {levels : Nat} {id : NodeId} (h : m.nullable levels id = true) :
    m.Word (V := V) id [] := by
  simp only [nullable, Bool.or_eq_true, decide_eq_true_eq] at h
  exact word_nil_iff.mpr (h.imp_right omittable_of_contentNullable)

theorem enough_of_isEnough {levels count : Nat} {id : NodeId}
    (h : m.isEnough levels id count = true) :
    (m.quantifier id).min ≤ count ∨ m.Omittable V id := by
  simp only [isEnough, Bool.or_eq_true, decide_eq_true_eq] at h
  exact h.imp_right omittable_of_contentNullable

end Matcher

end StyleGrammar
