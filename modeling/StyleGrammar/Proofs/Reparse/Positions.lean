import StyleGrammar.Proofs.Reader.Success
import StyleGrammar.Proofs.Reparse.Colors
import StyleGrammar.Proofs.Reparse.Gradients

/-!
# Positions are read back from their own text

The reader of a position tries one component after the other, and an offset belongs
to the side in front of it or to the vertical axis, depending on what follows.  So
the components of a position are fixed first, along each axis for itself, and each
combination is taken through the reader once.

One combination is not read back as a position: behind an offset along the
horizontal axis the reader wants no offset from a vertical side.  What was read is
never such a combination.
-/

namespace StyleGrammar

open Reader Output Component

/-- The own text of a value is read. -/
def Accepted {α : Type} [Readable α] [Printable α] (compact : Bool) (a : α) : Prop :=
  ∃ b, readText α (textOf compact a) = .ok b

/-- The own text of a value is read as an equal one. -/
def Recovered {α : Type} [Readable α] [Printable α] [BEq α] (compact : Bool) (a : α) : Prop :=
  ∃ b, readText α (textOf compact a) = .ok b ∧ (b == a) = true

theorem Recovered.accepted {α : Type} [Readable α] [Printable α] [BEq α] {compact : Bool} {a : α}
    (h : Recovered compact a) : Accepted compact a :=
  h.imp fun _ hb => hb.1

/-! The own texts of values that print neatly. -/

section Texts

variable {α β : Type} [Readable α] [Printable β] {compact : Bool} {a : α} {b : β}
  {ds : List Component}

theorem readText_of_left (hneat : NeatDense (print compact b) ds)
    (h : Takes (Left 0 ds) (Left 0 []) a read) : readText α (textOf compact b) = .ok a := by
  obtain ⟨ks, hks, rfl⟩ := hneat
  have hbare : bareAll (ofText (textOf compact b).toList) = ks := by
    rw [textOf, toList_render]
    exact hks.makes.bareAll_ofText
  exact run_of_takes hbare ((h.before fun _ hc => hc.left).after fun _ hc => hc.ahead_nil)

/-- A text is read as nothing, if something is left over behind what is read from it. -/
theorem not_readText_of_left {k : Component} {ls : List Component}
    (hneat : NeatDense (print compact b) ds) (h : Takes (Left 0 ds) (Left 0 (k :: ls)) a read)
    (a' : α) : readText α (textOf compact b) ≠ .ok a' := by
  intro hread
  obtain ⟨ks, hks, rfl⟩ := hneat
  have hbare : bareAll (ofText (textOf compact b).toList) = ks := by
    rw [textOf, toList_render]
    exact hks.makes.bareAll_ofText
  obtain ⟨c', hentirely⟩ := of_run hread
  obtain ⟨hpc, e, hend⟩ := of_entirely hentirely
  have hstart : Left 0 (dense ks) (Cursor.ofText (textOf compact b)) := ⟨by rw [← hbare]; rfl, rfl⟩
  obtain ⟨d, hpd, hleft⟩ := h _ hstart
  rw [hpc] at hpd
  cases hpd
  obtain ⟨hk, ls', hahead, -⟩ := hleft.ahead_cons
  have hmem : k ∈ bareAll c'.rest := by
    have : k ∈ dense (bareAll c'.rest) := hleft.rest ▸ List.mem_cons_self
    exact (List.mem_filter.mp this).1
  exact next_of_ahead hk (bare_of_mem_bareAll hmem) hahead e hend

theorem Shows.readText {k : Component} (h : Shows read 0 a (print compact b) k) :
    readText α (textOf compact b) = .ok a :=
  readText_of_left h.neatDense (h.left [])

/-- A solid text that something is read from shows it. -/
theorem exists_shows {good : α → Prop} [Printable α] (hhead : AtHead good (read : Reader α))
    {a b : α} (hsolid : Solid (print compact a))
    (h : StyleGrammar.readText α (textOf compact a) = .ok b) :
    ∃ k, Shows read 0 b (print compact a) k := by
  obtain ⟨k, hneat, hk, htakes⟩ := exists_component hhead hsolid h
  simp only [isSolid, Bool.and_eq_true, Bool.not_eq_true'] at hk
  exact ⟨k, hneat, hk.1, fun ls => htakes 0 ls (.inl rfl)⟩

end Texts

/-! Where no measure and no keyword stands. -/

section Failures

variable {V : Type} [Term V] {n : Nat} {k : Component} {ks : List Component}

theorem fails_measure_word (word : String) :
    Fails (Left n (.token (.ident word) .start :: ks)) (read : Reader (LengthPercentage V)) :=
  Fails.left fun _ => (Measure.wants_read Length.oneNumber).fails_token (by simp [beginsMeasure])

theorem fails_measure_end : Fails (Left n []) (read : Reader (LengthPercentage V)) :=
  (Measure.wants_read Length.oneNumber).fails_end.before fun _ hc => hc.ahead_nil

theorem wants_verticalSide : Wants isColorless (read : Reader VerticalSide) :=
  wants_keyword (fun a => toLower_eq_self (by cases a <;> decide)) fun a => by cases a <;> decide

theorem takes_center : Takes (Left n (.token (.ident "center") .start :: ks)) (Left n ks) ()
    (Reader.keyword "center") :=
  takes_left (by simp [sameName])

theorem wants_center : Wants isColorless (Reader.keyword "center") :=
  wants_named (toLower_eq_self (by decide)) (by decide)

end Failures

namespace AxisPosition

variable {S V : Type}

/-- The measure of a place along an axis. -/
def measure? : AxisPosition S V → Option (LengthPercentage V)
  | center => none
  | offset m => some m
  | side _ m? => m?

section Failures

variable [Keyword S] [Term V] {n : Nat} {ls : List Component}

theorem fails_end : Fails (Left n []) (read : Reader (AxisPosition S V)) :=
  (fails_left_end.map _).orElseFails ((fails_measure_end.map _).orElseFails fails_left_end.bind)

theorem fails_word {word : String} (hcenter : sameName word "center" = false)
    (hside : Keyword.ofName? S word = none) :
    Fails (Left n (.token (.ident word) .start :: ls)) (read : Reader (AxisPosition S V)) :=
  ((fails_left (by simp [hcenter])).map _).orElseFails
    (((fails_measure_word word).map _).orElseFails (fails_left hside).bind)

end Failures

section Reading

variable [Keyword S] [SpelledKeyword S] [Term V]

/-- A place along an axis, what is read from its text, and the components that it has. -/
inductive Spelled (n : Nat) (compact : Bool) :
    AxisPosition S V → AxisPosition S V → List Component → Prop
  | center : Spelled n compact .center .center [.token (.ident "center") .start]
  | offset {m m' : LengthPercentage V} {k : Component} (h : Shows read n m' (print compact m) k) :
      Spelled n compact (.offset m) (.offset m') [k]
  | side (s : S) : Spelled n compact (.side s none) (.side s none) [wordOf s]
  | sideOffset (s : S) {m m' : LengthPercentage V} {k : Component}
      (h : Shows read n m' (print compact m) k) :
      Spelled n compact (.side s (some m)) (.side s (some m')) [wordOf s, k]

variable {n : Nat} {compact : Bool} {x x' : AxisPosition S V} {ks ls : List Component}

theorem Spelled.neatDense (h : Spelled n compact x x' ks) : NeatDense (print compact x) ks := by
  cases h with
  | center => exact (((isWord_iff "center").mp (by decide)).neatAs).neatDense rfl
  | offset h => exact h.neatDense
  | side s => exact (neatAs_keyword compact s).neatDense rfl
  | sideOffset s h =>
    have hword : NeatDense (print compact s) [wordOf s] := (neatAs_keyword compact s).neatDense rfl
    exact (hword.append h.neatDense.behindSpace).of_chars (by simp [Printable.print])

theorem takes_side (s : S) : Takes (Left n (wordOf s :: ls)) (Left n ls) s read :=
  takes_left (SpelledKeyword.member s)

/-- A place is taken, if no measure follows a side that has none. -/
theorem Spelled.takes (h : Spelled n compact x x' ks)
    (hcenter : ∀ s : S, sameName (Keyword.name s) "center" = false)
    (hls : ∀ s, x = .side s none → Fails (Left n ls) (read : Reader (LengthPercentage V))) :
    Takes (Left n (ks ++ ls)) (Left n ls) x' read := by
  have hword (s : S) (ls : List Component) :
      Fails (Left n (wordOf s :: ls)) (Reader.keyword "center") := fails_left (by simp [hcenter s])
  have hmeasure (s : S) (ls : List Component) :
      Fails (Left n (wordOf s :: ls)) (read : Reader (LengthPercentage V)) := fails_measure_word _
  cases h with
  | center => exact (takes_center.map _).orElse
  | offset h =>
    have hm := h.left ls
    exact ((fails_of_measure Length.oneNumber hm wants_center).map _).orElse (hm.map _).orElse
  | side s =>
    refine ((hword s ls).map _).orElse (((hmeasure s ls).map _).orElse ?_)
    exact (takes_side s).bind ((hls s rfl).attempt.bind (.pure _))
  | @sideOffset s m m' k h =>
    refine ((hword s (k :: ls)).map _).orElse (((hmeasure s (k :: ls)).map _).orElse ?_)
    exact (takes_side s).bind ((h.left ls).attempt.bind (.pure _))

omit [SpelledKeyword S] in
/-- The measures of a place that was read show what their texts are read as. -/
theorem exists_spelled {good : V → Prop} (hV : Lawful V good) (hx : x.Good)
    (h : ∀ m ∈ x.measure?, Accepted compact m) :
    ∃ x' ks, Spelled 0 compact x x' ks := by
  have hshows {m : LengthPercentage V} (hm : m ∈ x.measure?) (hsolid : PrintsSolid m) :
      ∃ (m' : LengthPercentage V) (k : Component), Shows read 0 m' (print compact m) k := by
    obtain ⟨m', hm'⟩ := h m hm
    obtain ⟨k, hk⟩ := exists_shows (Measure.atHead_read hV Length.oneNumber) (hsolid compact) hm'
    exact ⟨m', k, hk⟩
  cases hx with
  | center => exact ⟨_, _, .center⟩
  | offset hsolid =>
    obtain ⟨m', k, hk⟩ := hshows rfl hsolid
    exact ⟨_, _, .offset hk⟩
  | @side s m? hsolid =>
    cases m? with
    | none => exact ⟨_, _, .side s⟩
    | some m =>
      obtain ⟨m', k, hk⟩ := hshows rfl (hsolid m rfl)
      exact ⟨_, _, .sideOffset s hk⟩

omit [SpelledKeyword S] in
/-- What is read from a place is equal to it, if its measure is recovered. -/
theorem Spelled.beq [BEq S] [ReflBEq S] (h : Spelled 0 compact x x' ks)
    (hm : ∀ m ∈ x.measure?, Recovered compact m) : (x' == x) = true := by
  have hmeasure {m m' : LengthPercentage V} {k : Component} (hmem : m ∈ x.measure?)
      (hshows : Shows read 0 m' (print compact m) k) : (m' == m) = true := by
    obtain ⟨b, hread, hb⟩ := hm m hmem
    rw [hshows.readText] at hread
    cases hread
    exact hb
  cases h with
  | center => rfl
  | offset h => exact hmeasure rfl h
  | side s => exact Bool.and_eq_true_iff.mpr ⟨beq_self_eq_true s, rfl⟩
  | sideOffset s h => exact Bool.and_eq_true_iff.mpr ⟨beq_self_eq_true s, hmeasure rfl h⟩

end Reading

end AxisPosition

namespace Position

variable {V : Type}

/-- The measures of a position. -/
def measures (p : Position V) : List (LengthPercentage V) :=
  p.x.measure?.toList ++ p.y.measure?.toList

/-- What is read from the text of a position: an offset along the vertical axis is printed behind
its side if there is an offset from a horizontal side in front of it. -/
def named : Position V → Position V
  | ⟨.side s (some m), .offset n⟩ => ⟨.side s (some m), .side .top (some n)⟩
  | p => p

section Reading

open AxisPosition (Spelled takes_side)

variable [Term V] {n : Nat} {compact : Bool} {x x' : HorizontalPosition V}
  {y y' : VerticalPosition V} {ks ls : List Component}

theorem horizontal_ne_center (s : HorizontalSide) : sameName (Keyword.name s) "center" = false := by
  cases s <;> simp [Keyword.name, sameName_eq]

theorem vertical_ne_center (t : VerticalSide) : sameName (Keyword.name t) "center" = false := by
  cases t <;> simp [Keyword.name, sameName_eq]

theorem takes_readAfterCenter (hy : Takes (Left n ls) (Left n []) y read) :
    Takes (Left n ls) (Left n []) ⟨.center, y⟩ readAfterCenter :=
  hy.attempt.bind (.pure _)

/-- A vertical side behind a horizontal one, with its offset or without. -/
theorem takes_readAfterSide (s : HorizontalSide) (m? : Option (LengthPercentage V))
    (t : VerticalSide) {o? : Option (LengthPercentage V)}
    (h : Takes (Left n ls) (Left n []) o? (attempt read)) :
    Takes (Left n (wordOf t :: ls)) (Left n []) ⟨.side s m?, .side t o?⟩ (readAfterSide s m?) := by
  have hcenter : Fails (Left n (wordOf t :: ls)) (Reader.keyword "center") :=
    fails_left (by simp [vertical_ne_center])
  exact hcenter.succeeds.bind ((takes_side t).attempt.bind (h.bind (.pure _)))

/-- A horizontal side with nothing behind it. -/
theorem takes_readAfterSide_end (s : HorizontalSide) (m? : Option (LengthPercentage V)) :
    Takes (Left n []) (Left n [])
      ⟨.side s none, match m? with | some m => .offset m | none => .center⟩
      (readAfterSide s m?) := by
  have hcenter : Fails (Left n []) (Reader.keyword "center") := fails_left_end
  have hside : Fails (Left n []) (read : Reader VerticalSide) := fails_left_end
  refine hcenter.succeeds.bind (hside.attempt.bind ?_)
  cases m? <;> exact .pure _

/-- A position is read back from its components, except for one combination. -/
theorem exists_takes (hx : Spelled n compact x x' ks) (hy : Spelled n compact y y' ls)
    (hxy : ∀ m t o, x = .offset m → y ≠ .side t (some o)) :
    ∃ ds, NeatDense (print compact (⟨x, y⟩ : Position V)) ds ∧
      Takes (Left n ds) (Left n []) (named ⟨x', y'⟩) read := by
  have hx' := hx.neatDense
  have hy' := hy.neatDense
  have hboth : NeatDense (print compact x ++ char ' ' ++ print compact y) (ks ++ ls) :=
    (hx'.append hy'.behindSpace).of_chars (by simp)
  have hfirst (ls : List Component)
      (hls : ∀ s, x = .side s none → Fails (Left n ls) (read : Reader (LengthPercentage V))) :
      Takes (Left n (ks ++ ls)) (Left n ls) (some x') (attempt read) :=
    (hx.takes horizontal_ne_center hls).attempt
  have hlast : Takes (Left n (ls ++ [])) (Left n []) y' read :=
    hy.takes vertical_ne_center fun _ _ => fails_measure_end
  rw [List.append_nil] at hlast
  cases hx with
  | center =>
    cases hy with
    | center =>
      have hnothing : Takes (Left n []) (Left n []) (.center : Position V) readAfterCenter :=
        AxisPosition.fails_end.attempt.bind (AxisPosition.fails_end.attempt.bind (.pure _))
      exact ⟨_, hx', (hfirst [] (by simp)).bind hnothing⟩
    | side t =>
      have hnone : Fails (Left n [wordOf t]) (read : Reader (HorizontalPosition V)) :=
        AxisPosition.fails_word (vertical_ne_center t)
          ((keyword_ofName?_eq _ _).trans (by cases t <;> decide))
      have hrest : Fails (Left n []) (readHorizontal :
          Reader (Option (LengthPercentage V) × HorizontalPosition V)) := by
        have hside : Fails (Left n []) (read : Reader HorizontalSide) := fails_left_end
        exact fails_measure_end.attempt.bindFails (hside.attempt.bindFails fails_left_end.bind)
      exact ⟨_, hy', hnone.attempt.bind ((takes_side t).bind (hrest.attempt.bind (.pure _)))⟩
    | offset | sideOffset =>
      exact ⟨_, hboth, (hfirst _ (by simp)).bind (takes_readAfterCenter hlast)⟩
  | @offset m m' k h =>
    cases hy with
    | center =>
      have hside : Fails (Left n []) (read : Reader VerticalSide) := fails_left_end
      have hcenter : Fails (Left n []) (Reader.keyword "center") := fails_left_end
      exact ⟨_, hx', (hfirst [] (by simp)).bind (hside.attempt.bind
        (fails_measure_end.attempt.bind (hcenter.succeeds.bind (.pure _))))⟩
    | offset h' =>
      have hside := fails_of_measure Length.oneNumber (h'.left []) wants_verticalSide
      exact ⟨_, hboth, (hfirst _ (by simp)).bind
        (hside.attempt.bind ((h'.left []).attempt.bind (.pure _)))⟩
    | side t =>
      exact ⟨_, hboth, (hfirst _ (by simp)).bind ((takes_side t).attempt.bind (.pure _))⟩
    | sideOffset t h' => exact absurd rfl (hxy _ _ _ rfl)
  | side s =>
    cases hy with
    | center =>
      exact ⟨_, hx', (hfirst [] fun _ _ => fails_measure_end).bind (takes_readAfterSide_end s none)⟩
    | @offset o o' k' h' =>
      -- the horizontal side takes the offset first
      have htaken : Takes (Left n [wordOf s, k']) (Left n [])
          (.side s (some o') : HorizontalPosition V) read :=
        (Spelled.sideOffset s h').takes horizontal_ne_center (by simp)
      exact ⟨_, hboth, htaken.attempt.bind (takes_readAfterSide_end s (some _))⟩
    | side t =>
      exact ⟨_, hboth, (hfirst _ fun _ _ => fails_measure_word _).bind
        (takes_readAfterSide s none t fails_measure_end.attempt)⟩
    | sideOffset t h' =>
      exact ⟨_, hboth, (hfirst _ fun _ _ => fails_measure_word _).bind
        (takes_readAfterSide s none t (h'.left []).attempt)⟩
  | @sideOffset s m m' k h =>
    cases hy with
    | center =>
      exact ⟨_, hboth, (hfirst _ (by simp)).bind (takes_center.succeeds.bind (.pure _))⟩
    | @offset o o' k' h' =>
      have htop : NeatDense (text "top" ++ (char ' ' ++ print compact o))
          [wordOf VerticalSide.top, k'] :=
        (((isWord_iff "top").mp (by decide)).neatAs.neatDense rfl).append hy'.behindSpace
      exact ⟨_, (hx'.append htop.behindSpace).of_chars (by simp [Printable.print]),
        (hfirst _ (by simp)).bind (takes_readAfterSide s (some m') .top (h'.left []).attempt)⟩
    | side t =>
      exact ⟨_, hboth, (hfirst _ (by simp)).bind
        (takes_readAfterSide s (some m') t fails_measure_end.attempt)⟩
    | sideOffset t h' =>
      exact ⟨_, hboth, (hfirst _ (by simp)).bind
        (takes_readAfterSide s (some m') t (h'.left []).attempt)⟩

/-- Behind two offsets of which the second has a vertical side, the second is left over. -/
theorem takes_split {m m' o o' : LengthPercentage V} {k k' : Component} (t : VerticalSide)
    (h : Shows read n m' (print compact m) k) (h' : Shows read n o' (print compact o) k') :
    NeatDense (print compact (⟨.offset m, .side t (some o)⟩ : Position V)) [k, wordOf t, k'] ∧
      Takes (Left n [k, wordOf t, k']) (Left n [k']) (⟨.offset m', .side t none⟩ : Position V)
        read := by
  have hx : Spelled n compact (.offset m : HorizontalPosition V) (.offset m') [k] := .offset h
  have hy : Spelled n compact (.side t (some o)) (.side t (some o')) [wordOf t, k'] :=
    .sideOffset t h'
  refine ⟨(hx.neatDense.append hy.neatDense.behindSpace).of_chars (by simp [Printable.print]), ?_⟩
  have hfirst : Takes (Left n [k, wordOf t, k']) (Left n [wordOf t, k'])
      (.offset m' : HorizontalPosition V) read := hx.takes horizontal_ne_center (by simp)
  exact hfirst.attempt.bind ((takes_side t).attempt.bind (.pure _))

end Reading

/-! Combinations that are read. -/

/-- There are no two offsets of which just one has a side. -/
structure Matched (p : Position V) : Prop where
  behindOffset : ∀ m t o, p.x = .offset m → p.y ≠ .side t (some o)
  behindSide : ∀ s m o, p.x = .side s (some m) → p.y ≠ .offset o

theorem Matched.of_named {p : Position V} (h : p.Matched) : p.named = p := by
  unfold named
  split
  · next s m o => exact absurd rfl (h.behindSide s m o rfl)
  · rfl

theorem Matched.of_spelled [Term V] {n : Nat} {compact : Bool} {x x' : HorizontalPosition V}
    {y y' : VerticalPosition V} {ks ls : List Component} (h : (⟨x, y⟩ : Position V).Matched)
    (hx : AxisPosition.Spelled n compact x x' ks) (hy : AxisPosition.Spelled n compact y y' ls) :
    (⟨x', y'⟩ : Position V).Matched := by
  constructor
  · rintro m t o rfl rfl
    cases hx
    cases hy
    exact h.behindOffset _ _ _ rfl rfl
  · rintro s m o rfl rfl
    cases hx
    cases hy
    exact h.behindSide _ _ _ rfl rfl

section Yields

variable [Term V]

theorem yields_readAfterCenter : Yields (readAfterCenter : Reader (Position V)) Matched := by
  refine yields_after fun y? => ?_
  cases y? with
  | some y => exact yields_pure ⟨by simp, by simp⟩
  | none =>
    refine yields_after fun x? => ?_
    cases x? with
    | some x => exact yields_pure ⟨by simp, by simp⟩
    | none => exact yields_pure ⟨by simp [center], by simp [center]⟩

theorem yields_readAfterOffset (m : LengthPercentage V) : Yields (readAfterOffset m) Matched := by
  refine yields_after fun s? => ?_
  cases s? with
  | some s => exact yields_pure ⟨by simp, by simp⟩
  | none =>
    refine yields_after fun o? => ?_
    cases o? with
    | some o => exact yields_pure ⟨by simp, by simp⟩
    | none => exact yields_after fun _ => yields_pure ⟨by simp, by simp⟩

theorem yields_readAfterSide (s : HorizontalSide) (m? : Option (LengthPercentage V)) :
    Yields (readAfterSide s m?) Matched := by
  refine yields_after fun found => yields_ite (yields_pure ⟨by simp, by simp⟩) ?_
  refine yields_after fun t? => ?_
  cases t? with
  | some t => exact yields_after fun _ => yields_pure ⟨by simp, by simp⟩
  | none => cases m? <;> exact yields_pure ⟨by simp, by simp⟩

/-- The horizontal component behind a vertical side is no bare offset. -/
theorem yields_readHorizontal :
    Yields (readHorizontal : Reader (Option (LengthPercentage V) × HorizontalPosition V))
      fun r => ∀ m, r.2 ≠ .offset m := by
  refine yields_after fun offset? => yields_after fun s? => ?_
  cases s? with
  | some s => exact yields_after fun _ => yields_pure (by simp)
  | none => exact yields_after fun _ => yields_pure (by simp)

theorem yields_read : Yields (read : Reader (Position V)) Matched := by
  refine yields_after fun x? => ?_
  cases x? with
  | some x =>
    cases x with
    | center => exact yields_readAfterCenter
    | offset m => exact yields_readAfterOffset m
    | side s m? => exact yields_readAfterSide s m?
  | none =>
    refine yields_after fun t => yields_bind (yields_attempt yields_readHorizontal) fun r? hr => ?_
    cases r? with
    | some r =>
      have hx := hr r rfl
      exact yields_pure ⟨fun m t o h => absurd h (hx m), by simp⟩
    | none => exact yields_pure ⟨by simp, by simp⟩

end Yields

/-! Lengths in pixels. -/

def pixels (n : Nat) : LengthPercentage V := .dimension ⟨Single.ofNat n, .px⟩

/-- A position that was read is read back from its own text as an equal one, if its measures are. -/
theorem recovered_of_read (depth : Nat) (compact : Bool) {s : String} {p : Position (Nested depth)}
    (h : readText (Position (Nested depth)) s = .ok p)
    (hm : ∀ m ∈ p.measures, Recovered compact m) : Recovered compact p := by
  have hV := Nested.lawful depth
  obtain ⟨hx, hy⟩ : p.Good := (steady_read hV).good_of_run h
  have hmatched : p.Matched := good_of_run yields_read h
  obtain ⟨x, y⟩ := p
  have hmx : ∀ m ∈ x.measure?, Recovered compact m := fun m hmem =>
    hm m (by simp [measures, Option.mem_def.mp hmem])
  have hmy : ∀ m ∈ y.measure?, Recovered compact m := fun m hmem =>
    hm m (by simp [measures, Option.mem_def.mp hmem])
  obtain ⟨x', ks, hx'⟩ := AxisPosition.exists_spelled hV hx fun m hmem => (hmx m hmem).accepted
  obtain ⟨y', ls, hy'⟩ := AxisPosition.exists_spelled hV hy fun m hmem => (hmy m hmem).accepted
  obtain ⟨ds, hneat, htakes⟩ := exists_takes hx' hy' hmatched.behindOffset
  rw [(hmatched.of_spelled hx' hy').of_named] at htakes
  refine ⟨_, readText_of_left hneat htakes, ?_⟩
  exact Bool.and_eq_true_iff.mpr ⟨hx'.beq hmx, hy'.beq hmy⟩

/-- The components were out of order. -/
theorem recovered_bottomRight :
    let p : Position (Nested 0) :=
      ⟨.side .right (some (pixels 5)), .side .bottom (some (pixels 10))⟩
    readText (Position (Nested 0)) "bottom 10px right 5px" = .ok p ∧
      textOf false p = "right 5px bottom 10px" ∧ Recovered false p := by
  intro p
  have hread : readText (Position (Nested 0)) "bottom 10px right 5px" = .ok p := by
    decide +kernel
  have hfive : Recovered false (pixels 5 : LengthPercentage (Nested 0)) :=
    ⟨pixels 5, by decide +kernel, by decide +kernel⟩
  have hten : Recovered false (pixels 10 : LengthPercentage (Nested 0)) :=
    ⟨pixels 10, by decide +kernel, by decide +kernel⟩
  refine ⟨hread, by decide +kernel, recovered_of_read 0 false hread fun m hm => ?_⟩
  rcases List.mem_pair.mp hm with rfl | rfl
  · exact hfive
  · exact hten

/-- Places along both axes that were read make a position whose text is read, if the texts of their
measures are, unless it consists of an offset and a vertical side with another one. -/
theorem readText_combined_iff (depth : Nat) (compact : Bool) {s t : String}
    {x : HorizontalPosition (Nested depth)} {y : VerticalPosition (Nested depth)}
    (hx : readText (HorizontalPosition (Nested depth)) s = .ok x)
    (hy : readText (VerticalPosition (Nested depth)) t = .ok y)
    (hmx : ∀ m ∈ x.measure?, Accepted compact m) (hmy : ∀ m ∈ y.measure?, Accepted compact m) :
    Accepted compact (⟨x, y⟩ : Position (Nested depth)) ↔
      ¬ ∃ m t o, x = .offset m ∧ y = .side t (some o) := by
  have hV := Nested.lawful depth
  obtain ⟨x', ks, hx'⟩ :=
    AxisPosition.exists_spelled hV ((AxisPosition.steady_read hV).good_of_run hx) hmx
  obtain ⟨y', ls, hy'⟩ :=
    AxisPosition.exists_spelled hV ((AxisPosition.steady_read hV).good_of_run hy) hmy
  constructor
  · rintro ⟨p, hp⟩ ⟨m, t, o, rfl, rfl⟩
    cases hx' with
    | offset h =>
      cases hy' with
      | sideOffset t h' =>
        obtain ⟨hneat, htakes⟩ := takes_split t h h'
        exact not_readText_of_left hneat htakes p hp
  · intro hxy
    obtain ⟨ds, hneat, htakes⟩ := exists_takes hx' hy' fun m t o hm ho => hxy ⟨m, t, o, hm, ho⟩
    exact ⟨_, readText_of_left hneat htakes⟩

/-- An offset from the left and a bare offset along the vertical axis. -/
theorem readText_combined_leftOffset :
    let p : Position (Nested 0) := ⟨.side .left (some (pixels 10)), .offset (pixels 5)⟩
    textOf false p = "left 10px top 5px" ∧ Accepted false p := by
  intro p
  have hx : readText (HorizontalPosition (Nested 0)) "left 10px" = .ok p.x := by decide +kernel
  have hy : readText (VerticalPosition (Nested 0)) "5px" = .ok p.y := by decide +kernel
  have hten : Reread false (pixels 10 : LengthPercentage (Nested 0)) := by decide +kernel
  have hfive : Reread false (pixels 5 : LengthPercentage (Nested 0)) := by decide +kernel
  refine ⟨by decide +kernel, (readText_combined_iff 0 false hx hy ?_ ?_).mpr ?_⟩
  · rintro m ⟨⟩
    exact ⟨_, hten⟩
  · rintro m ⟨⟩
    exact ⟨_, hfive⟩
  · rintro ⟨m, t, o, hm, -⟩
    cases hm

/-- The offset from the top is left over. -/
theorem not_readText_combined :
    let p : Position (Nested 0) := ⟨.offset (pixels 10), .side .top (some (pixels 5))⟩
    readText (HorizontalPosition (Nested 0)) "10px" = .ok p.x ∧
      readText (VerticalPosition (Nested 0)) "top 5px" = .ok p.y ∧
      textOf false p = "10px top 5px" ∧ ¬ Accepted false p := by
  intro p
  refine ⟨by decide +kernel, by decide +kernel, by decide +kernel, fun ⟨q, hq⟩ => ?_⟩
  have hnone : (readText (Position (Nested 0)) (textOf false p)).toOption.isSome = false := by
    decide +kernel
  rw [hq] at hnone
  cases hnone

end Position

end StyleGrammar
