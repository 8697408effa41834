import StyleGrammar.Proofs.Reader.Strings
import StyleGrammar.Proofs.Reparse.Positions

/-!
# Shapes are read back from their own text

Four sides are written as one to four components.  Reading takes as many as it can,
so they have to be followed by something that is no component, and what stands for
the missing ones has to be equal to them; no text with fewer components is read as
sides that are equal.  Radii, centers and fill rules that are left out are what
reading puts in their place.
-/

namespace StyleGrammar

open Reader Output Component Scan

/-- What is read from the only component of a value's own text. -/
structure Mirrored {α : Type} [Readable α] [Printable α] [BEq α] (compact : Bool) (a a' : α)
    (k : Component) : Prop where
  shows : Shows read 0 a' (print compact a) k
  beq : (a' == a) = true

section Texts

variable {α β : Type} [Readable α] {compact : Bool}

/-- A solid value that is recovered is recovered from one component. -/
theorem Recovered.exists_mirrored [Printable α] [BEq α] {good : α → Prop}
    (hhead : AtHead good (read : Reader α)) {a : α} (hsolid : PrintsSolid a)
    (h : Recovered compact a) : ∃ a' k, Mirrored compact a a' k := by
  obtain ⟨a', hread, hbeq⟩ := h
  obtain ⟨k, hk⟩ := exists_shows hhead (hsolid compact) hread
  exact ⟨a', k, hk, hbeq⟩

theorem exists_mirrored_all [Printable α] [BEq α] {as : List α}
    (h : ∀ a ∈ as, ∃ a' k, Mirrored compact a a' k) :
    ∃ as' ks, List.Forall₂ (fun a a' => (a' == a) = true) as as' ∧
      List.Forall₂ (fun a' k => ∀ ls, Takes (Left 0 (k :: ls)) (Left 0 ls) a' read) as' ks ∧
      List.Forall₂ NeatDense (as.map (print compact)) (ks.map fun k => [k]) := by
  induction as with
  | nil => exact ⟨[], [], .nil, .nil, .nil⟩
  | cons a as ih =>
    obtain ⟨⟨a', k, hshows, hbeq⟩, h⟩ := List.forall_mem_cons.mp h
    obtain ⟨as', ks, has, htakes, hneat⟩ := ih h
    exact ⟨a' :: as', k :: ks, .cons hbeq has, .cons hshows.left htakes,
      .cons hshows.neatDense hneat⟩

/-- Components with blanks between them. -/
theorem neatDense_words {os : List Output} {ks : List Component} (hne : os ≠ [])
    (h : List.Forall₂ NeatDense os (ks.map fun k => [k])) : NeatDense (Color.words os) ks := by
  have hwords := NeatDense.separated h hne
  rwa [show (ks.map fun k => [k]).flatten = ks from List.flatMap_singleton' ks] at hwords

/-- A text that is one function is read by its name and its content. -/
theorem readText_call [Printable β] {name : String} (hname : isFunctionName name = true) {b : β}
    {o : Output} {ks : List Component} (hprint : print compact b = call name o)
    (hks : Makes wordStops (chars o) ks) {p : Reader α} {a : α}
    (hread : (read : Reader α) = functionNamed name >>= fun _ => block p)
    (hp : Takes (Stand 0 ks) (Ahead 0 []) a p) : readText α (textOf compact b) = .ok a := by
  have hmakes := makes_call hname (hks.mono (show closers ⊆ wordStops by decide))
  have hbare : bareAll (ofText (textOf compact b).toList) =
      [.block (.function name) .start ks .start] := by
    rw [textOf, hprint, toList_render]
    exact hmakes.bareAll_ofText
  have hfunction : Takes (Ahead 0 [.block (.function name) .start ks .start]) (Inside 0 ks []) ()
      (functionNamed name) := takes_opener (by simp [sameName])
  refine run_of_takes hbare ?_
  rw [hread]
  exact (hfunction.before fun _ hc => hc.ahead).bind (hp.block.after fun _ hc => hc.ahead)

/-- Likewise if blanks do not count. -/
theorem readText_callDense [Printable β] {name : String}
    (hname : isFunctionName name = true) {b : β}
    {o : Output} {ds : List Component} (hprint : print compact b = call name o)
    (ho : NeatDense o ds) {p : Reader α} {a : α}
    (hread : (read : Reader α) = functionNamed name >>= fun _ => block p)
    (hp : Takes (Left 0 ds) (Left 0 []) a p) : readText α (textOf compact b) = .ok a := by
  obtain ⟨ks, hks, rfl⟩ := ho
  exact readText_call hname hprint hks.makes hread
    ((hp.before fun _ hc => hc.left).after fun _ hc => hc.ahead_nil)

end Texts

/-! Sides. -/

namespace Sides

variable {α : Type}

/-- The sides that one to four components stand for. -/
def restored? : List α → Option (Sides α)
  | [top] => some ⟨top, top, top, top⟩
  | [top, right] => some ⟨top, right, top, right⟩
  | [top, right, bottom] => some ⟨top, right, bottom, right⟩
  | [top, right, bottom, left] => some ⟨top, right, bottom, left⟩
  | _ => none

/-- Components are read as what they stand for if no other follows. -/
theorem takes_read [Readable α] {n : Nat} {as : List α} {s : Sides α} {ks ls : List Component}
    (h : List.Forall₂ (fun a k => ∀ ls, Takes (Left n (k :: ls)) (Left n ls) a read) as ks)
    (hs : restored? as = some s) (hls : Fails (Left n ls) (read : Reader α)) :
    Takes (Left n (ks ++ ls)) (Left n ls) s read := by
  unfold restored? at hs
  split at hs
  · cases hs
    obtain _ | ⟨htop, _ | _⟩ := h
    exact (htop _).bind (hls.attempt.bind (.pure _))
  · cases hs
    obtain _ | ⟨htop, _ | ⟨hright, _ | _⟩⟩ := h
    exact (htop _).bind ((hright _).attempt.bind (hls.attempt.bind (.pure _)))
  · cases hs
    obtain _ | ⟨htop, _ | ⟨hright, _ | ⟨hbottom, _ | _⟩⟩⟩ := h
    exact (htop _).bind ((hright _).attempt.bind
      ((hbottom _).attempt.bind (hls.attempt.bind (.pure _))))
  · cases hs
    obtain _ | ⟨htop, _ | ⟨hright, _ | ⟨hbottom, _ | ⟨hleft, _ | _⟩⟩⟩⟩ := h
    exact (htop _).bind ((hright _).attempt.bind
      ((hbottom _).attempt.bind ((hleft _).attempt.bind (.pure _))))
  · cases hs

/-- What is read stands in as many components at least. -/
theorem exists_restored_of_read [Readable α] {good : α → Prop}
    (hhead : AtHead good (read : Reader α)) {s : Sides α} {c c' : Cursor} (hsound : SoundAll c.rest)
    (h : (read : Reader (Sides α)) c = .ok (s, c')) :
    ∃ as, restored? as = some s ∧ as.length ≤ (dense (bareAll c.rest)).length := by
  obtain ⟨top, c₁, htop, h₁⟩ := of_bind h
  obtain ⟨⟨k₁, hk₁⟩, hsound₁⟩ := hhead.dense_eq hsound htop
  rw [hk₁]
  obtain ⟨right?, c₂, hright?, h₂⟩ := of_bind h₁
  rcases of_attempt hright? with ⟨right, rfl, hright⟩ | ⟨rfl, -⟩
  · obtain ⟨⟨k₂, hk₂⟩, hsound₂⟩ := hhead.dense_eq hsound₁ hright
    rw [hk₂]
    obtain ⟨bottom?, c₃, hbottom?, h₃⟩ := of_bind h₂
    rcases of_attempt hbottom? with ⟨bottom, rfl, hbottom⟩ | ⟨rfl, -⟩
    · obtain ⟨⟨k₃, hk₃⟩, hsound₃⟩ := hhead.dense_eq hsound₂ hbottom
      rw [hk₃]
      obtain ⟨left?, c₄, hleft?, h₄⟩ := of_bind h₃
      rcases of_attempt hleft? with ⟨left, rfl, hleft⟩ | ⟨rfl, -⟩
      · obtain ⟨⟨k₄, hk₄⟩, -⟩ := hhead.dense_eq hsound₃ hleft
        rw [hk₄]
        cases h₄
        exact ⟨[top, right, bottom, left], rfl, by simp⟩
      · cases h₄
        exact ⟨[top, right, bottom], rfl, by simp⟩
    · cases h₃
      exact ⟨[top, right], rfl, by simp⟩
  · cases h₂
    exact ⟨[top], rfl, by simp⟩

theorem beq_iff [BEq α] {s s' : Sides α} : (s' == s) = true ↔
    (s'.top == s.top) = true ∧ (s'.right == s.right) = true ∧
      (s'.bottom == s.bottom) = true ∧ (s'.left == s.left) = true := by
  obtain ⟨top, right, bottom, left⟩ := s
  obtain ⟨top', right', bottom', left'⟩ := s'
  change (top' == top && (right' == right && (bottom' == bottom && left' == left))) = true ↔ _
  simp only [Bool.and_eq_true]

variable [BEq α] [PartialEquivBEq α]

/-- The components that are written stand for the sides. -/
theorem exists_restored {s : Sides α} {as : List α}
    (h : List.Forall₂ (fun a a' => (a' == a) = true) s.components as) :
    ∃ s', restored? as = some s' ∧ (s' == s) = true := by
  rcases s.components_cases with ⟨heq, hv, hh, hc⟩ | ⟨heq, hv, hh, -⟩ | ⟨heq, -, hh⟩ | ⟨heq, -⟩ <;>
    rw [heq] at h
  · obtain _ | ⟨htop, _ | _⟩ := h
    have hright := PartialEquivBEq.trans htop hc
    exact ⟨_, rfl, beq_iff.mpr
      ⟨htop, hright, PartialEquivBEq.trans htop hv, PartialEquivBEq.trans hright hh⟩⟩
  · obtain _ | ⟨htop, _ | ⟨hright, _ | _⟩⟩ := h
    exact ⟨_, rfl, beq_iff.mpr
      ⟨htop, hright, PartialEquivBEq.trans htop hv, PartialEquivBEq.trans hright hh⟩⟩
  · obtain _ | ⟨htop, _ | ⟨hright, _ | ⟨hbottom, _ | _⟩⟩⟩ := h
    exact ⟨_, rfl, beq_iff.mpr ⟨htop, hright, hbottom, PartialEquivBEq.trans hright hh⟩⟩
  · obtain _ | ⟨htop, _ | ⟨hright, _ | ⟨hbottom, _ | ⟨hleft, _ | _⟩⟩⟩⟩ := h
    exact ⟨_, rfl, beq_iff.mpr ⟨htop, hright, hbottom, hleft⟩⟩

/-- No fewer components stand for the sides. -/
theorem length_components_le {s s' : Sides α} {as : List α} (h : restored? as = some s')
    (hbeq : (s' == s) = true) : s.components.length ≤ as.length := by
  obtain ⟨htop, hright, hbottom, hleft⟩ := beq_iff.mp hbeq
  have hcases := s.components_cases
  unfold restored? at h
  split at h
  · cases h
    have hv : (s.top == s.bottom) = true :=
      PartialEquivBEq.trans (PartialEquivBEq.symm htop) hbottom
    have hh : (s.right == s.left) = true :=
      PartialEquivBEq.trans (PartialEquivBEq.symm hright) hleft
    have hc : (s.top == s.right) = true :=
      PartialEquivBEq.trans (PartialEquivBEq.symm htop) hright
    simp [components, hv, hh, hc]
  · cases h
    have hv : (s.top == s.bottom) = true :=
      PartialEquivBEq.trans (PartialEquivBEq.symm htop) hbottom
    have hh : (s.right == s.left) = true :=
      PartialEquivBEq.trans (PartialEquivBEq.symm hright) hleft
    rcases hcases with ⟨heq, -⟩ | ⟨heq, -⟩ | ⟨-, hne, -⟩ | ⟨-, hne⟩
    · simp [heq]
    · simp [heq]
    · rw [hv] at hne
      cases hne
    · rw [hh] at hne
      cases hne
  · cases h
    have hh : (s.right == s.left) = true :=
      PartialEquivBEq.trans (PartialEquivBEq.symm hright) hleft
    rcases hcases with ⟨heq, -⟩ | ⟨heq, -⟩ | ⟨heq, -⟩ | ⟨-, hne⟩
    · simp [heq]
    · simp [heq]
    · simp [heq]
    · rw [hh] at hne
      cases hne
  · rcases hcases with ⟨heq, -⟩ | ⟨heq, -⟩ | ⟨heq, -⟩ | ⟨heq, -⟩ <;> simp [heq]
  · cases h

end Sides

/-- How many components a text has besides blanks, those in blocks apart. -/
def breadth (s : String) : Nat := (dense (bareAll (ofText s.toList))).length

theorem breadth_textOf {β : Type} [Printable β] {compact : Bool} {b : β} {ds : List Component}
    (h : NeatDense (print compact b) ds) : breadth (textOf compact b) = ds.length := by
  obtain ⟨ks, hks, rfl⟩ := h
  rw [breadth, textOf, toList_render, hks.makes.bareAll_ofText]

namespace Sides

variable {α : Type} [Readable α] [Printable α] [BEq α] [PartialEquivBEq α] {good : α → Prop}
  (hhead : AtHead good (read : Reader α)) {compact : Bool} {s : Sides α}

include hhead

/-- Sides that were read are written as components from which equal sides are read. -/
theorem exists_takes (hs : s.Good) (h : ∀ a ∈ s.all, Recovered compact a) :
    ∃ s' ks, (s' == s) = true ∧ ks.length = s.components.length ∧ NeatDense (print compact s) ks ∧
      ∀ ls, Fails (Left 0 ls) (read : Reader α) →
        Takes (Left 0 (ks ++ ls)) (Left 0 ls) s' read := by
  obtain ⟨as', ks, has, htakes, hneat⟩ := exists_mirrored_all fun a ha =>
    (h a (mem_all_of_mem_components ha)).exists_mirrored hhead
      (hs.of_mem (mem_all_of_mem_components ha))
  obtain ⟨s', hs', hbeq⟩ := exists_restored has
  refine ⟨s', ks, hbeq, ?_, ?_, fun ls hls => takes_read htakes hs' hls⟩
  · rw [← htakes.length_eq, ← has.length_eq]
  · exact neatDense_words (by simpa using s.components_ne_nil) hneat

/-- Sides are recovered from one to four components, and no text with fewer components is read as
equal ones. -/
theorem recovered (hs : s.Good) (h : ∀ a ∈ s.all, Recovered compact a) :
    Recovered compact s ∧ breadth (textOf compact s) ∈ [1, 2, 3, 4] ∧
      ∀ t s', readText (Sides α) t = .ok s' → (s' == s) = true →
        breadth (textOf compact s) ≤ breadth t := by
  obtain ⟨s', ks, hbeq, hlength, hneat, htakes⟩ := exists_takes hhead hs h
  have hend : Fails (Left 0 []) (read : Reader α) :=
    hhead.fails_end.before fun _ hc => hc.ahead_nil
  have hall := htakes [] hend
  rw [List.append_nil] at hall
  rw [breadth_textOf hneat, hlength]
  refine ⟨⟨s', readText_of_left hneat hall, hbeq⟩, ?_, fun t s'' hread hbeq' => ?_⟩
  · rcases s.components_cases with ⟨h, -⟩ | ⟨h, -⟩ | ⟨h, -⟩ | ⟨h, -⟩ <;> simp [h]
  · obtain ⟨c, hentirely⟩ := of_run hread
    obtain ⟨as, has, hle⟩ := exists_restored_of_read hhead (soundAll_ofText t.toList)
      (of_entirely hentirely).1
    exact (length_components_le has hbeq').trans hle

end Sides

/-! The radii of corners. -/

variable {V : Type}

namespace BorderRadius

def measures (r : BorderRadius V) : List (LengthPercentage V) :=
  r.horizontal.all ++ r.vertical?.toList.flatMap Sides.all

def measures? (r? : Option (BorderRadius V)) : List (LengthPercentage V) :=
  r?.toList.flatMap measures

theorem beq_iff [BEq V] {r r' : BorderRadius V} : (r' == r) = true ↔
    (r'.horizontal == r.horizontal) = true ∧ (r'.vertical? == r.vertical?) = true :=
  Bool.and_eq_true_iff

variable [Term V] [PartialEquivBEq V] {good : V → Prop} (hV : Lawful V good) {compact : Bool}

include hV

theorem exists_takes {r : BorderRadius V} (hr : r.Good)
    (h : ∀ m ∈ r.measures, Recovered compact m) :
    ∃ r' ks, (r' == r) = true ∧ NeatDense (print compact r) ks ∧
      Takes (Left 0 ks) (Left 0 []) r' read := by
  obtain ⟨horizontal, vertical?⟩ := r
  have hhead := Measure.atHead_read hV Length.oneNumber
  obtain ⟨s, ks, hs, -, hneat, htakes⟩ := Sides.exists_takes hhead hr.horizontal fun m hm =>
    h m (by simp [measures, hm])
  cases vertical? with
  | none =>
    have hnone : Fails (Left 0 []) (delim '/') := fails_left_end
    refine ⟨⟨s, none⟩, ks, beq_iff.mpr ⟨hs, rfl⟩, hneat.of_chars (by simp [print]), ?_⟩
    have hall := htakes [] fails_measure_end
    rw [List.append_nil] at hall
    exact hall.bind (hnone.succeeds.bind ((Takes.pure none).bind (.pure _)))
  | some vertical =>
    obtain ⟨s', ls, hs', -, hneat', htakes'⟩ := Sides.exists_takes hhead (hr.vertical vertical rfl)
      fun m hm => h m (by simp [measures, hm])
    have hslash : Fails (Left 0 (.token (.delim '/') .start :: ls))
        (read : Reader (LengthPercentage V)) :=
      Fails.left fun _ => (Measure.wants_read Length.oneNumber).fails_token
        (by simp [beginsMeasure])
    have hsome : Takes (Left 0 (.token (.delim '/') .start :: ls)) (Left 0 ls) () (delim '/') :=
      takes_left rfl
    have hall := htakes' [] fails_measure_end
    rw [List.append_nil] at hall
    refine ⟨⟨s, some s'⟩, _, beq_iff.mpr ⟨hs, hs'⟩, hneat.append (hneat'.behindSlash compact), ?_⟩
    exact (htakes _ hslash).bind (hsome.succeeds.bind ((hall.map some).bind (.pure _)))

theorem exists_takes? {r? : Option (BorderRadius V)} (hr : ∀ r ∈ r?, r.Good)
    (h : ∀ m ∈ measures? r?, Recovered compact m) :
    ∃ r'? ks, (r'? == r?) = true ∧ TrailsDense (print? compact r?) ks ∧
      Fails (Left 0 ks) (read : Reader (LengthPercentage V)) ∧
      Takes (Left 0 ks) (Left 0 []) r'? read? := by
  cases r? with
  | none =>
    have hnone : Fails (Left 0 []) (keyword "round") := fails_left_end
    exact ⟨none, [], rfl, .nil, fails_measure_end, hnone.succeeds.bind (.pure none)⟩
  | some r =>
    obtain ⟨r', ks, hbeq, hneat, htakes⟩ := exists_takes hV (hr r rfl) fun m hm =>
      h m (by simp [measures?, hm])
    have hround : Takes (Left 0 (.token (.ident "round") .start :: ks)) (Left 0 ks) ()
        (keyword "round") := takes_left (by simp [sameName])
    have hword : NeatDense (text "round") [.token (.ident "round") .start] :=
      ((isWord_iff "round").mp (by decide)).neatAs.neatDense rfl
    refine ⟨some r', _, hbeq, ((hword.append hneat.behindSpace).behindSpace).of_chars
      (by simp [print?]), fails_measure_word _, ?_⟩
    exact hround.succeeds.bind (htakes.map some)

/-- Measures in a row and the radii behind them. -/
theorem exists_row {α : Type} [Readable α] [Printable α] [BEq α] {as : List α} (hne : as ≠ [])
    (has : ∀ a ∈ as, ∃ a' k, Mirrored compact a a' k) {r? : Option (BorderRadius V)}
    (hr : ∀ r ∈ r?, r.Good) (h : ∀ m ∈ measures? r?, Recovered compact m) :
    ∃ as' ks r'? ls, List.Forall₂ (fun a a' => (a' == a) = true) as as' ∧
      List.Forall₂ (fun a' k => ∀ ls, Takes (Left 0 (k :: ls)) (Left 0 ls) a' read) as' ks ∧
      (r'? == r?) = true ∧ Takes (Left 0 ls) (Left 0 []) r'? read? ∧
      NeatDense (Color.words (as.map (print compact)) ++ print? compact r?) (ks ++ ls) := by
  obtain ⟨as', ks, hbeq, htakes, hneat⟩ := exists_mirrored_all has
  obtain ⟨r'?, ls, hbeq', hneat', -, htakes'⟩ := exists_takes? hV hr h
  exact ⟨as', ks, r'?, ls, hbeq, htakes, hbeq', htakes',
    (neatDense_words (by simpa using hne) hneat).append hneat'⟩

end BorderRadius

/-! Rectangles. -/

section Rectangles

variable {compact : Bool}

def LengthPercentageOrAuto.measure? : LengthPercentageOrAuto V → Option (LengthPercentage V)
  | auto => none
  | measure m => some m

def InsetRect.measures (r : InsetRect V) : List (LengthPercentage V) :=
  r.sides.all ++ BorderRadius.measures? r.radius?

def RectShape.measures (r : RectShape V) : List (LengthPercentage V) :=
  r.edges.all.filterMap LengthPercentageOrAuto.measure? ++ BorderRadius.measures? r.radius?

def Xywh.measures (r : Xywh V) : List (LengthPercentage V) :=
  r.all ++ BorderRadius.measures? r.radius?

theorem InsetRect.beq_iff [BEq V] {r r' : InsetRect V} :
    (r' == r) = true ↔ (r'.sides == r.sides) = true ∧ (r'.radius? == r.radius?) = true :=
  Bool.and_eq_true_iff

theorem RectShape.beq_iff [BEq V] {r r' : RectShape V} :
    (r' == r) = true ↔ (r'.edges == r.edges) = true ∧ (r'.radius? == r.radius?) = true :=
  Bool.and_eq_true_iff

theorem Xywh.beq_iff [BEq V] {r r' : Xywh V} : (r' == r) = true ↔
    (r'.x == r.x) = true ∧ (r'.y == r.y) = true ∧ (r'.width == r.width) = true ∧
      (r'.height == r.height) = true ∧ (r'.radius? == r.radius?) = true := by
  obtain ⟨x, y, width, height, radius?⟩ := r
  obtain ⟨x', y', width', height', radius?'⟩ := r'
  change (x' == x && (y' == y && (width' == width && (height' == height && radius?' == radius?)))) =
    true ↔ _
  simp only [Bool.and_eq_true]

/-- Equal measures are on the same side of zero. -/
theorem Measure.isNegative_eq [BEq V] {m m' : LengthPercentage V} (h : (m' == m) = true) :
    m'.isNegative = m.isNegative := by
  cases m' with
  | dimension d' =>
    cases m with
    | dimension d => exact Binary.isNegative_eq (Bool.and_eq_true_iff.mp h).1
    | _ => cases h
  | percentage p' =>
    cases m with
    | percentage p => exact Binary.isNegative_eq h
    | _ => cases h
  | math =>
    cases m with
    | math => rfl
    | _ => cases h

variable [Term V] {good : V → Prop} (hV : Lawful V good)

include hV

theorem LengthPercentageOrAuto.exists_mirrored {x : LengthPercentageOrAuto V} (hx : PrintsSolid x)
    (h : ∀ m ∈ x.measure?, Recovered compact m) : ∃ x' k, Mirrored compact x x' k := by
  cases x with
  | auto =>
    have hneat : NeatAs (text "auto") [.token (.ident "auto") .start] :=
      ((isWord_iff "auto").mp (by decide)).neatAs
    exact ⟨.auto, _, ⟨hneat, rfl, fun ls => ((takes_named "auto").map _).orElse⟩, rfl⟩
  | measure m =>
    obtain ⟨m', k, hshows, hbeq⟩ :=
      (h m rfl).exists_mirrored (Measure.atHead_read hV Length.oneNumber) fun compact => hx compact
    refine ⟨.measure m', k, ⟨hshows.neat, hshows.solid, fun ls => ?_⟩, hbeq⟩
    have hauto := fails_of_measure Length.oneNumber (hshows.takes ls)
      (wants_named (toLower_eq_self (by decide)) (by decide) : Wants _ (keyword "auto"))
    exact (hauto.map _).orElse ((hshows.takes ls).map _).orElse

variable [PartialEquivBEq V]

theorem InsetRect.recovered {r : InsetRect V} (hr : r.Good)
    (h : ∀ m ∈ r.measures, Recovered compact m) : Recovered compact r := by
  obtain ⟨sides, radius?⟩ := r
  obtain ⟨s, ks, hs, -, hneat, htakes⟩ := Sides.exists_takes
    (Measure.atHead_read hV Length.oneNumber) hr.sides fun m hm => h m (by simp [measures, hm])
  obtain ⟨r'?, ls, hr', hneat', hfails, htakes'⟩ := BorderRadius.exists_takes? hV hr.radius
    fun m hm => h m (by simp [measures, hm])
  refine ⟨⟨s, r'?⟩, ?_, beq_iff.mpr ⟨hs, hr'⟩⟩
  exact readText_callDense (show isFunctionName "inset" = true by decide) rfl (hneat.append hneat')
    rfl ((htakes ls hfails).bind (htakes'.bind (.pure _)))

theorem RectShape.recovered {r : RectShape V} (hr : r.Good)
    (h : ∀ m ∈ r.measures, Recovered compact m) : Recovered compact r := by
  obtain ⟨⟨top, right, bottom, left⟩, radius?⟩ := r
  have hedges : ∀ x ∈ [top, right, bottom, left], ∃ x' k, Mirrored compact x x' k := fun x hx =>
    LengthPercentageOrAuto.exists_mirrored hV (hr.edges.of_mem hx) fun m hm =>
      h m (List.mem_append_left _ (List.mem_filterMap.mpr ⟨x, hx, hm⟩))
  obtain ⟨xs, ks, r'?, ls, hbeq, htakes, hr', htakes', hneat⟩ :=
    BorderRadius.exists_row hV (by simp)
    hedges hr.radius fun m hm => h m (by simp [measures, hm])
  obtain _ | ⟨hb₁, _ | ⟨hb₂, _ | ⟨hb₃, _ | ⟨hb₄, _ | _⟩⟩⟩⟩ := hbeq
  obtain _ | ⟨h₁, _ | ⟨h₂, _ | ⟨h₃, _ | ⟨h₄, _ | _⟩⟩⟩⟩ := htakes
  refine ⟨⟨⟨_, _, _, _⟩, r'?⟩, ?_, beq_iff.mpr ⟨Sides.beq_iff.mpr ⟨hb₁, hb₂, hb₃, hb₄⟩, hr'⟩⟩
  exact readText_callDense (show isFunctionName "rect" = true by decide) rfl hneat rfl
    ((h₁ _).bind ((h₂ _).bind ((h₃ _).bind ((h₄ _).bind (htakes'.bind (.pure _))))))

omit hV [PartialEquivBEq V] in
theorem takes_readNonNegative {P Q : Cursor → Prop} {m : LengthPercentage V}
    (h : Takes P Q m read) (hm : m.isNegative = false) : Takes P Q m readNonNegative := by
  refine Takes.place fun l => h.bind ?_
  simp only [hm]
  exact .pure m

theorem Xywh.recovered {r : Xywh V} (hr : r.Good)
    (h : ∀ m ∈ r.measures, Recovered compact m) : Recovered compact r := by
  obtain ⟨x, y, width, height, radius?⟩ := r
  have hmeasures : ∀ m ∈ [x, y, width, height], ∃ m' k, Mirrored compact m m' k := fun m hm =>
    (h m (List.mem_append_left _ hm)).exists_mirrored (Measure.atHead_read hV Length.oneNumber)
      (hr.prints m hm)
  obtain ⟨ms, ks, r'?, ls, hbeq, htakes, hr', htakes', hneat⟩ :=
    BorderRadius.exists_row hV (by simp)
    hmeasures hr.radius fun m hm => h m (by simp [measures, hm])
  obtain _ | ⟨hb₁, _ | ⟨hb₂, _ | ⟨hb₃, _ | ⟨hb₄, _ | _⟩⟩⟩⟩ := hbeq
  obtain _ | ⟨h₁, _ | ⟨h₂, _ | ⟨h₃, _ | ⟨h₄, _ | _⟩⟩⟩⟩ := htakes
  have hwidth (ls : List Component) :=
    takes_readNonNegative (h₃ ls) ((Measure.isNegative_eq hb₃).trans hr.width)
  have hheight := takes_readNonNegative (h₄ ls) ((Measure.isNegative_eq hb₄).trans hr.height)
  refine ⟨⟨_, _, _, _, r'?⟩, ?_, beq_iff.mpr ⟨hb₁, hb₂, hb₃, hb₄, hr'⟩⟩
  exact readText_callDense (show isFunctionName "xywh" = true by decide) rfl hneat rfl
    ((h₁ _).bind ((h₂ _).bind ((hwidth _).bind (hheight.bind (htakes'.bind (.pure _))))))

end Rectangles

/-! Circles and ellipses. -/

section Rounds

variable {compact : Bool}

def ShapeRadius.measure? : ShapeRadius V → Option (LengthPercentage V)
  | measure m => some m
  | _ => none

theorem ShapeRadius.eq_default {r : ShapeRadius V} (h : r.isDefault = true) : r = .closestSide := by
  unfold isDefault at h
  split at h
  · rfl
  · cases h

theorem Circle.beq_iff [BEq V] {c c' : Circle V} :
    (c' == c) = true ↔ (c'.radius == c.radius) = true ∧ (c'.center == c.center) = true :=
  Bool.and_eq_true_iff

theorem Ellipse.beq_iff [BEq V] {e e' : Ellipse V} : (e' == e) = true ↔
    (e'.radiusX == e.radiusX) = true ∧ (e'.radiusY == e.radiusY) = true ∧
      (e'.center == e.center) = true := by
  obtain ⟨x, y, center⟩ := e
  obtain ⟨x', y', center'⟩ := e'
  change (x' == x && (y' == y && center' == center)) = true ↔ _
  simp only [Bool.and_eq_true]

variable [Term V] {good : V → Prop} (hV : Lawful V good)

/-- No radius begins with `at`, or where nothing is left. -/
theorem ShapeRadius.fails_center {ks : List Component}
    (h : ks = [] ∨ ∃ ls, ks = .token (.ident "at") .start :: ls) :
    Fails (Ahead 0 ks) (read : Reader (ShapeRadius V)) := by
  have hwants := Measure.wants_read (V := V) Length.oneNumber
  rcases h with rfl | ⟨ls, rfl⟩
  · exact (hwants.fails_end.map _).orElseFails
      ((fails_end.map _).orElseFails (fails_end.map _))
  · exact ((hwants.fails_token (by simp [beginsMeasure])).map _).orElseFails
      (((fails_token (by simp [sameName_eq])).map _).orElseFails
        ((fails_token (by simp [sameName_eq])).map _))

include hV

theorem ShapeRadius.exists_mirrored {r : ShapeRadius V} (hr : PrintsSolid r)
    (h : ∀ m ∈ r.measure?, Recovered compact m) : ∃ r' k, Mirrored compact r r' k := by
  have hmeasure (word : String) (ls : List Component) :
      Fails (Ahead 0 (.token (.ident word) .start :: ls)) (read : Reader (LengthPercentage V)) :=
    (Measure.wants_read Length.oneNumber).fails_token (by simp [beginsMeasure])
  cases r with
  | measure m =>
    obtain ⟨m', k, hshows, hbeq⟩ :=
      (h m rfl).exists_mirrored (Measure.atHead_read hV Length.oneNumber) fun compact => hr compact
    exact ⟨.measure m', k,
      ⟨hshows.neat, hshows.solid, fun ls => ((hshows.takes ls).map _).orElse⟩, hbeq⟩
  | closestSide =>
    have hneat : NeatAs (text "closest-side") [.token (.ident "closest-side") .start] :=
      ((isWord_iff "closest-side").mp (by decide)).neatAs
    refine ⟨.closestSide, _, ⟨hneat, rfl, fun ls => ?_⟩, rfl⟩
    exact ((hmeasure _ ls).map _).orElse ((takes_named "closest-side").map _).orElse
  | farthestSide =>
    have hneat : NeatAs (text "farthest-side") [.token (.ident "farthest-side") .start] :=
      ((isWord_iff "farthest-side").mp (by decide)).neatAs
    have hother (ls : List Component) : Fails
        (Ahead 0 (.token (.ident "farthest-side") .start :: ls)) (keyword "closest-side") :=
      fails_token (by simp [sameName_eq])
    refine ⟨.farthestSide, _, ⟨hneat, rfl, fun ls => ?_⟩, rfl⟩
    exact ((hmeasure _ ls).map _).orElse
      (((hother ls).map _).orElse ((takes_named "farthest-side").map _))

/-- A center that is left out is the center of the box. -/
theorem exists_center {p : Position V} (hp : p.Good) (h : Recovered compact p) :
    ∃ p' ks, (p' == p) = true ∧ (ks = [] ∨ ∃ ls, ks = .token (.ident "at") .start :: ls) ∧
      Takes (Ahead 0 ks) (Ahead 0 []) p' readCenter ∧
      Makes wordStops (chars (printCenter compact false p)) ks ∧
      ∃ ls, TrailsAs (printCenter compact true p) ls ∧ skip ls = skip ks := by
  cases hcenter : p.isCenter with
  | true =>
    obtain rfl := Position.eq_center hcenter
    have hnone : Fails (Ahead 0 []) (keyword "at") := fails_end
    refine ⟨.center, [], rfl, .inl rfl, hnone.succeeds.bind (.pure _), .nil, [], .nil, rfl⟩
  | false =>
    obtain ⟨p', hread, hbeq⟩ := h
    obtain ⟨ks, hneat, htakes⟩ := exists_position hV hp hread
    have hword : NeatAs (text "at") [.token (.ident "at") .start] :=
      ((isWord_iff "at").mp (by decide)).neatAs
    have hboth := hword.append hneat.behindSpace
    have hall : Takes (Ahead 0 ks) (Ahead 0 []) p' read := by
      simpa [Tail.components] using htakes .nothing
    refine ⟨p', .token (.ident "at") .start :: .blanks .start :: ks, hbeq, .inr ⟨_, rfl⟩,
      (takes_named "at").succeeds.bind (hall.before fun c hc => hc.ahead.of_skip rfl), ?_,
      .blanks .start :: .token (.ident "at") .start :: .blanks .start :: ks, ?_, rfl⟩
    · simpa [printCenter, hcenter] using hboth.makes
    · obtain ⟨hmakes, hapart⟩ := hboth.behindSpace
      constructor
      · simpa [printCenter, hcenter] using hmakes
      · simpa [printCenter, hcenter] using hapart

/-- A radius is left out if it reaches to the closest side, and so is a center. -/
theorem Circle.recovered {c : Circle V} (hc : c.Good)
    (hradius : ∀ m ∈ c.radius.measure?, Recovered compact m)
    (hcenter : Recovered compact c.center) : Recovered compact c := by
  obtain ⟨radius, center⟩ := c
  obtain ⟨p, ks, hp, hks, hread, hmakes, ls, htrails, hls⟩ := exists_center hV hc.center hcenter
  have hname : isFunctionName "circle" = true := by decide
  cases hdefault : radius.isDefault with
  | true =>
    obtain rfl := ShapeRadius.eq_default hdefault
    refine ⟨⟨.closestSide, p⟩, readText_call hname rfl hmakes rfl ?_, beq_iff.mpr ⟨rfl, hp⟩⟩
    exact ((ShapeRadius.fails_center hks).before fun _ hc => hc.ahead).attempt.bind
      ((hread.before fun _ hc => hc.ahead).bind (.pure (⟨.closestSide, p⟩ : Circle V)))
  | false =>
    obtain ⟨r, k, hshows, hr⟩ := ShapeRadius.exists_mirrored hV hc.radius hradius
    have hcontent := hshows.neat.append htrails
    refine ⟨⟨r, p⟩, readText_call hname ?_ hcontent.makes rfl ?_, beq_iff.mpr ⟨hr, hp⟩⟩
    · simp [print, hdefault]
    · exact ((hshows.takes ls).before fun _ hc => hc.ahead).attempt.bind
        ((hread.before fun _ hc => hc.ahead.of_skip hls).bind (.pure (⟨r, p⟩ : Circle V)))

/-- Radii are left out if both reach to the closest side. -/
theorem Ellipse.recovered {e : Ellipse V} (he : e.Good)
    (hx : ∀ m ∈ e.radiusX.measure?, Recovered compact m)
    (hy : ∀ m ∈ e.radiusY.measure?, Recovered compact m)
    (hcenter : Recovered compact e.center) : Recovered compact e := by
  obtain ⟨x, y, center⟩ := e
  obtain ⟨p, ks, hp, hks, hread, hmakes, ls, htrails, hls⟩ := exists_center hV he.center hcenter
  have hname : isFunctionName "ellipse" = true := by decide
  cases hdefault : x.isDefault && y.isDefault with
  | true =>
    rw [Bool.and_eq_true] at hdefault
    obtain rfl := ShapeRadius.eq_default hdefault.1
    obtain rfl := ShapeRadius.eq_default hdefault.2
    have hradii : Fails (Ahead 0 ks) (readRadii : Reader (ShapeRadius V × ShapeRadius V)) :=
      (ShapeRadius.fails_center hks).bind
    refine ⟨⟨.closestSide, .closestSide, p⟩, readText_call hname rfl hmakes rfl ?_,
      beq_iff.mpr ⟨rfl, rfl, hp⟩⟩
    exact (hradii.before fun _ hc => hc.ahead).attempt.bind
      ((hread.before fun _ hc => hc.ahead).bind
        (.pure (⟨.closestSide, .closestSide, p⟩ : Ellipse V)))
  | false =>
    obtain ⟨x', k, hshows, hx'⟩ := ShapeRadius.exists_mirrored hV he.radiusX hx
    obtain ⟨y', k', hshows', hy'⟩ := ShapeRadius.exists_mirrored hV he.radiusY hy
    have hcontent := (hshows.neat.append hshows'.neat.behindSpace).append htrails
    have hradii : Takes (Ahead 0 (k :: .blanks .start :: k' :: ls)) (Stand 0 ls) (x', y')
        readRadii :=
      (hshows.takes _).bind (((hshows'.takes ls).before fun c hc => hc.ahead.of_skip rfl).bind
        (.pure _))
    refine ⟨⟨x', y', p⟩, readText_call hname ?_ hcontent.makes rfl ?_, beq_iff.mpr ⟨hx', hy', hp⟩⟩
    · simp [print, hdefault]
    · exact (hradii.before fun _ hc => hc.ahead).attempt.bind
        ((hread.before fun _ hc => hc.ahead.of_skip hls).bind (.pure (⟨x', y', p⟩ : Ellipse V)))

end Rounds

/-! Polygons and paths. -/

section Outlines

variable {compact : Bool}

instance : SpelledKeyword FillRule where
  word a := by cases a <;> decide
  member a := (keyword_ofName?_eq _ _).trans (by cases a <;> decide)

theorem FillRule.wants_read : Wants isColorless (read : Reader FillRule) :=
  wants_keyword (fun a => toLower_eq_self (by cases a <;> decide)) fun a => by cases a <;> decide

/-- A rule that is left out is the default, where no rule stands. -/
theorem FillRule.exists_readOrDefault (rule : FillRule) {o : Output} {ks : List Component}
    (ho : NeatAs o ks) (hks : Fails (Ahead 0 ks) (read : Reader FillRule)) {β : Type} {b : β}
    {f : FillRule → Reader β} (hf : Takes (Stand 0 ks) (Ahead 0 []) b (f rule))
    (hgap : Takes (Stand 0 (gap compact ++ ks)) (Ahead 0 []) b (f rule)) :
    ∃ ls, Makes wordStops (chars (printUnlessDefault compact rule ++ o)) ls ∧
      Takes (Stand 0 ls) (Ahead 0 []) b (readOrDefault >>= f) := by
  cases rule with
  | nonzero =>
    have hnone : Takes (Stand 0 ks) (Stand 0 ks) nonzero readOrDefault :=
      (hks.before fun _ hc => hc.ahead).attempt.bind (.pure nonzero)
    exact ⟨ks, ho.makes, hnone.bind hf⟩
  | evenodd =>
    have hneat := (neatAs_keyword compact evenodd).append (ho.behindComma compact)
    have hcomma (ls : List Component) :
        Takes (Stand 0 (.token .comma .start :: ls)) (Stand 0 ls) () comma :=
      Takes.before (takes_token rfl) fun _ hc => hc.ahead
    have hrule (ls : List Component) :
        Takes (Stand 0 (wordOf evenodd :: .token .comma .start :: ls))
        (Stand 0 ls) evenodd readOrDefault :=
      ((takes_keyword evenodd).before fun _ hc => hc.ahead).attempt.bind
        ((hcomma ls).bind (.pure evenodd))
    refine ⟨_, ?_, (hrule _).bind hgap⟩
    simpa [printUnlessDefault] using hneat.makes

section Corners

variable [Term V] {good : V → Prop} (hV : Lawful V good)

include hV

/-- A corner in front of a comma, or of nothing. -/
theorem Point.exists_takes {q : Point V} (hq : q.Good) (hx : Recovered compact q.x)
    (hy : Recovered compact q.y) :
    ∃ q' ks, (q' == q) = true ∧ NeatAs (print compact q) ks ∧ (∀ k ∈ ks, k.isComma = false) ∧
      Takes (Ahead 0 ks) (Ahead 0 []) q' read ∧
      ∀ ls, Fails (Ahead 0 (ks ++ ls)) (read : Reader FillRule) := by
  have hhead := Measure.atHead_read hV Length.oneNumber
  obtain ⟨x, k, hshows, hbeq⟩ := hx.exists_mirrored hhead hq.x
  obtain ⟨y, k', hshows', hbeq'⟩ := hy.exists_mirrored hhead hq.y
  have hcomma {m : LengthPercentage V} {o : Output} {k : Component} (h : Shows read 0 m o k) :
      k.isComma = false := by
    have hbare : k ∈ bareAll (ofText (chars o)) := by
      rw [h.neat.makes.bareAll_ofText]
      exact List.mem_cons_self
    exact (Measure.wants_read Length.oneNumber).isComma (by simp [beginsMeasure])
      (bare_of_mem_bareAll hbare) (h.takes [])
  have hboth := hshows.neat.append hshows'.neat.behindSpace
  refine ⟨⟨x, y⟩, _, Bool.and_eq_true_iff.mpr ⟨hbeq, hbeq'⟩, hboth.of_chars (by simp [print]), ?_,
    ?_, fun ls => fails_of_measure Length.oneNumber (hshows.takes _) FillRule.wants_read⟩
  · simpa using ⟨hcomma hshows, rfl, hcomma hshows'⟩
  · exact (hshows.takes _).bind (((hshows'.takes []).before fun c hc => hc.ahead.of_skip rfl).bind
      ((Takes.pure _).after fun _ hc => hc.ahead))

theorem Polygon.exists_items {qs : List (Point V)} (hne : qs ≠ []) (hqs : ∀ q ∈ qs, q.Good)
    (h : ∀ q ∈ qs, Recovered compact q.x ∧ Recovered compact q.y) :
    ∃ qs' ks, (qs' == qs) = true ∧
      NeatAs (Output.separated (Output.comma compact) (qs.map (print compact))) ks ∧
      Items read 0 qs' ks ∧ Fails (Ahead 0 ks) (read : Reader FillRule) := by
  induction qs with
  | nil => exact absurd rfl hne
  | cons q qs ih =>
    obtain ⟨hq, hqs⟩ := List.forall_mem_cons.mp hqs
    obtain ⟨⟨hx, hy⟩, h⟩ := List.forall_mem_cons.mp h
    obtain ⟨q', ks, hbeq, hneat, hcommas, htakes, hfails⟩ := Point.exists_takes hV hq hx hy
    cases qs with
    | nil =>
      refine ⟨[q'], ks, ?_, hneat, .last htakes hcommas, ?_⟩
      · simpa using hbeq
      · simpa using hfails []
    | cons q₂ qs =>
      obtain ⟨qs', ls, hbeq', hneat', hitems, -⟩ := ih (by simp) hqs h
      have hboth := hneat.append (hneat'.behindComma compact)
      rw [← List.append_assoc] at hboth
      refine ⟨q' :: qs', _, ?_, hboth, .cons htakes hcommas (hitems.gap compact), hfails _⟩
      rw [List.cons_beq_cons, hbeq, hbeq']
      rfl

theorem Polygon.recovered {r : Polygon V} (hr : r.Good)
    (h : ∀ q ∈ r.points, Recovered compact q.x ∧ Recovered compact q.y) : Recovered compact r := by
  obtain ⟨rule, points⟩ := r
  obtain ⟨qs, ks, hbeq, hneat, hitems, hfails⟩ := exists_items hV hr.points_ne_nil hr.points h
  have htakes {ks : List Component} (hitems : Items read 0 qs ks) :
      Takes (Stand 0 ks) (Ahead 0 []) (⟨rule, qs⟩ : Polygon V) (do
        return ⟨rule, ← commaSeparated read⟩) :=
    (Takes.commaSeparated hitems).bind (.pure _)
  obtain ⟨ls, hmakes, hall⟩ := FillRule.exists_readOrDefault rule hneat hfails
    (f := fun rule => do return (⟨rule, ← commaSeparated read⟩ : Polygon V)) (htakes hitems)
    (htakes (hitems.gap compact))
  refine ⟨⟨rule, qs⟩, readText_call (show isFunctionName "polygon" = true by decide) rfl hmakes rfl
    hall, ?_⟩
  exact Bool.and_eq_true_iff.mpr ⟨beq_self_eq_true rule, hbeq⟩

end Corners

namespace Path

/-- No null character stands in a path that was read. -/
theorem among_read :
    Among Token.Clean (read : Reader Path) fun p => Sound p.path.content.toList := by
  have hrule : Among Token.Clean FillRule.readOrDefault fun _ => True :=
    (Among.expectAny _).attempt.bind fun rule? _ => by
      cases rule? with
      | some => exact (Among.expectAny _).bind fun _ _ => .pure trivial
      | none => exact .pure trivial
  have hpath : Among Token.Clean (read : Reader Quotation) fun q => Sound q.content.toList := by
    have hstring : Among Token.Clean Reader.string fun s => Sound s.toList := by
      refine .expect fun t s ht hs => ?_
      cases t <;> cases hs
      exact ht _ rfl
    exact hstring.bind fun s hs => .pure hs
  exact (Among.expectAny _).bind fun _ _ =>
    .block (hrule.bind fun _ _ => hpath.bind fun _ h => .pure h)

theorem recovered {p : Path} (h : Sound p.path.content.toList) : Recovered compact p := by
  obtain ⟨rule, ⟨path⟩⟩ := p
  have hkept : path.toList.map kept = path.toList :=
    (List.map_congr_left fun c hc => if_neg (h c hc)).trans (List.map_id' _)
  have hneat : NeatAs (quoted path) [.token (.quotedString path) .start] := by
    have hsolid := solid_quoted path
    refine ⟨?_, hsolid.2⟩
    have hquoted : Makes wordStops (Escape.quoted path.toList)
        [.token (.quotedString (String.ofList (path.toList.map kept))) .start] :=
      Makes.quoted path.toList
    rw [hkept, String.ofList_toList] at hquoted
    simpa [quotedText] using hquoted
  have htakes {ks : List Component} (hks : skip ks = [.token (.quotedString path) .start]) :
      Takes (Stand 0 ks) (Ahead 0 []) (⟨rule, ⟨path⟩⟩ : Path) (do return ⟨rule, ← read⟩) := by
    have hstring : Takes (Ahead 0 [.token (.quotedString path) .start]) (Stand 0 []) path
        Reader.string := takes_token rfl
    have hquotation : Takes (Ahead 0 [.token (.quotedString path) .start]) (Ahead 0 []) ⟨path⟩
        (read : Reader Quotation) := hstring.bind ((Takes.pure _).after fun _ hc => hc.ahead)
    exact (hquotation.before fun c hc => hc.ahead.of_skip hks).bind (.pure _)
  have hgap : skip (gap compact ++ [.token (.quotedString path) .start]) =
      [.token (.quotedString path) .start] := by
    cases compact <;> rfl
  obtain ⟨ls, hmakes, hall⟩ := FillRule.exists_readOrDefault rule hneat
    (fails_token rfl) (f := fun rule => do return (⟨rule, ← read⟩ : Path)) (htakes rfl)
    (htakes hgap)
  refine ⟨⟨rule, ⟨path⟩⟩, readText_call (show isFunctionName "path" = true by decide) rfl hmakes rfl
    hall, ?_⟩
  exact Bool.and_eq_true_iff.mpr ⟨beq_self_eq_true rule, beq_self_eq_true path⟩

end Path

end Outlines

/-! All shapes. -/

/-- A value that was read is recovered if the values that it holds are. -/
def RecoveredFrom (α : Type) [Readable α] [Printable α] [BEq α] (compact : Bool)
    (parts : α → Prop) : Prop :=
  ∀ s (a : α), readText α s = .ok a → parts a → Recovered compact a

/-- Shapes that were read are read back from their own texts as equal ones, if their measures and
centers are.  Four sides are written as one to four components, and as no more than are needed to
read equal ones. -/
theorem shapes_recovered (depth : Nat) (compact : Bool) :
    (∀ t (s : Sides (LengthPercentage (Nested depth))), readText _ t = .ok s →
      (∀ m ∈ s.all, Recovered compact m) →
        Recovered compact s ∧ breadth (textOf compact s) ∈ [1, 2, 3, 4] ∧
          ∀ t' s', readText (Sides (LengthPercentage (Nested depth))) t' = .ok s' →
            (s' == s) = true → breadth (textOf compact s) ≤ breadth t') ∧
    RecoveredFrom (InsetRect (Nested depth)) compact
      (fun r => ∀ m ∈ r.measures, Recovered compact m) ∧
    RecoveredFrom (RectShape (Nested depth)) compact
      (fun r => ∀ m ∈ r.measures, Recovered compact m) ∧
    RecoveredFrom (Xywh (Nested depth)) compact (fun r => ∀ m ∈ r.measures, Recovered compact m) ∧
    RecoveredFrom (Circle (Nested depth)) compact (fun c =>
      (∀ m ∈ c.radius.measure?, Recovered compact m) ∧ Recovered compact c.center) ∧
    RecoveredFrom (Ellipse (Nested depth)) compact (fun e =>
      (∀ r ∈ [e.radiusX, e.radiusY], ∀ m ∈ r.measure?, Recovered compact m) ∧
        Recovered compact e.center) ∧
    RecoveredFrom (Polygon (Nested depth)) compact (fun p =>
      ∀ q ∈ p.points, Recovered compact q.x ∧ Recovered compact q.y) ∧
    RecoveredFrom Path compact fun _ => True := by
  have hV := Nested.lawful depth
  refine ⟨fun t s hread hm => ?_, fun _ r hread hm => ?_, fun _ r hread hm => ?_,
    fun _ r hread hm => ?_, fun _ c hread h => ?_, fun _ e hread h => ?_, fun _ r hread hm => ?_,
    fun _ p hread _ => ?_⟩
  · exact Sides.recovered (Measure.atHead_read hV Length.oneNumber)
      ((Sides.steady_read (steady_lengthPercentage hV)).good_of_run hread) hm
  · exact InsetRect.recovered hV ((InsetRect.steadyHead_good hV).steady.good_of_run hread) hm
  · exact RectShape.recovered hV ((RectShape.steadyHead_good hV).steady.good_of_run hread) hm
  · exact Xywh.recovered hV ((Xywh.steadyHead_good hV).steady.good_of_run hread) hm
  · exact Circle.recovered hV ((Circle.steadyHead_good hV).steady.good_of_run hread) h.1 h.2
  · exact Ellipse.recovered hV ((Ellipse.steadyHead_good hV).steady.good_of_run hread)
      (h.1 _ (by simp)) (h.1 _ (by simp)) h.2
  · exact Polygon.recovered hV ((Polygon.steadyHead_good hV).steady.good_of_run hread) hm
  · exact Path.recovered (Path.among_read.good_of_run hread)

/-! A rectangle with radii along both axes, and shapes with parts that are left out. -/

open Position (pixels)

theorem recovered_pixels {n : Nat} (hn : n = 1 ∨ n = 2) :
    Recovered true (pixels n : LengthPercentage (Nested 0)) := by
  rcases hn with rfl | rfl
  · exact ⟨pixels 1, by decide +kernel, by decide +kernel⟩
  · exact ⟨pixels 2, by decide +kernel, by decide +kernel⟩

/-- The left side is equal to the right one, and what else is left out is the default. -/
theorem recovered_parts :
    let inset : InsetRect (Nested 0) := ⟨⟨pixels 1, pixels 1, pixels 2, pixels 1⟩,
      some ⟨⟨pixels 1, pixels 1, pixels 1, pixels 1⟩,
        some ⟨pixels 2, pixels 2, pixels 2, pixels 2⟩⟩⟩
    let circle : Circle (Nested 0) := ⟨.closestSide, .left⟩
    let polygon : Polygon (Nested 0) := ⟨.nonzero, [⟨pixels 1, pixels 2⟩, ⟨pixels 2, pixels 1⟩]⟩
    (textOf true inset = "inset(1px 1px 2px round 1px/2px)" ∧ Recovered true inset) ∧
    (textOf true circle = "circle(at left)" ∧ Recovered true circle) ∧
    (textOf true polygon = "polygon(1px 2px,2px 1px)" ∧ Recovered true polygon) := by
  intro inset circle polygon
  obtain ⟨-, hinset, -, -, hcircle, -, hpolygon, -⟩ := shapes_recovered 0 true
  have hone := recovered_pixels (n := 1) (.inl rfl)
  have htwo := recovered_pixels (n := 2) (.inr rfl)
  refine ⟨⟨by decide +kernel, ?_⟩, ⟨by decide +kernel, ?_⟩, by decide +kernel, ?_⟩
  · have hread : readText (InsetRect (Nested 0)) "inset(1px 1px 2px 1px round 1px / 2px)" =
        .ok inset := by decide +kernel
    refine hinset _ _ hread fun m hm => ?_
    have hmem : m ∈ [pixels 1, pixels 1, pixels 2, pixels 1] ++
        ([pixels 1, pixels 1, pixels 1, pixels 1] ++ [pixels 2, pixels 2, pixels 2, pixels 2]) := hm
    have hpixels : m = pixels 1 ∨ m = pixels 2 := by
      simp only [List.mem_append, List.mem_cons, List.not_mem_nil, or_false] at hmem
      tauto
    rcases hpixels with rfl | rfl
    · exact hone
    · exact htwo
  · have hread : readText (Circle (Nested 0)) "circle(closest-side at left)" = .ok circle := by
      decide +kernel
    have hleft : Reread true (.left : Position (Nested 0)) := by decide +kernel
    exact hcircle _ _ hread ⟨fun m hm => (by cases hm), ⟨_, hleft, by decide⟩⟩
  · have hread : readText (Polygon (Nested 0)) "polygon(nonzero, 1px 2px, 2px 1px)" =
        .ok polygon := by decide +kernel
    refine hpolygon _ _ hread fun q hq => ?_
    simp only [polygon, List.mem_cons, List.not_mem_nil, or_false] at hq
    rcases hq with rfl | rfl
    · exact ⟨hone, htwo⟩
    · exact ⟨htwo, hone⟩

end StyleGrammar
