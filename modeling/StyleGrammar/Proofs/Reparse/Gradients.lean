import StyleGrammar.Proofs.Reparse.GradientItems
import StyleGrammar.Proofs.Value.Equality

/-!
# Gradients are read back as they are

A gradient prints no more than it has to.  What it leaves out, the direction, the
shape, the angle or the center, is what reading puts in its place, and the one
comma behind the parts that are there stays if any of them does.
-/

namespace StyleGrammar

open Reader Output Component Scan

/-! The function of a gradient. -/

theorem run_gradient {β : Type} {name : String} (hname : isFunctionName name = true)
    (hrepeating : isFunctionName ("repeating-" ++ name) = true) (repeating : Bool) {o : Output}
    {ks : List Component} (ho : NeatAs o ks) {p : Bool → Reader β} {b : β}
    (hp : Takes (Stand 0 ks) (Ahead 0 []) b (p repeating)) :
    (readGradientName name >>= fun r => block (p r)).run (printGradient name repeating o).render =
      .ok b := by
  obtain ⟨function, hmakes, hfunction⟩ : ∃ function,
      Makes wordStops (chars (printGradient name repeating o))
        [.block (.function function) .start ks .start] ∧
      Takes (Ahead 0 [.block (.function function) .start ks .start]) (Inside 0 ks []) repeating
        (readGradientName name) := by
    have hks := ho.makes.mono (show closers ⊆ wordStops by decide)
    cases repeating with
    | false => exact ⟨_, makes_call hname hks, takes_opener (by simp [sameName])⟩
    | true =>
      have hself : sameName ("repeating-" ++ name) ("repeating-" ++ name) =
          true := by simp [sameName]
      have hne : sameName ("repeating-" ++ name) name = false := by
        rw [sameName_eq, beq_eq_false_iff_ne]
        intro heq
        have hlength := congrArg List.length heq
        rw [List.length_map, List.length_map, String.toList_append, List.length_append] at hlength
        have hten : "repeating-".toList.length = 10 := by decide
        omega
      refine ⟨"repeating-" ++ name, ?_, takes_opener (by simp [hne, hself])⟩
      have heq : chars (printGradient name true o) = chars (call ("repeating-" ++ name) o) := by
        simp [printGradient, call]
      rw [heq]
      exact makes_call hrepeating hks
  have hbare : bareAll (ofText (printGradient name repeating o).render.toList) =
      [.block (.function function) .start ks .start] := by
    rw [toList_render]
    exact hmakes.bareAll_ofText
  exact run_of_takes hbare
    ((hfunction.before fun _ hc => hc.ahead).bind (hp.block.after fun _ hc => hc.ahead))

/-! What stands before the items. -/

/-- What stands behind the head of a gradient. -/
def Ends (ls : List Component) : Prop :=
  (∃ ls', skip ls = .token .comma .start :: ls') ∨
    ∃ ls', skip ls = .token (.ident "at") .start :: ls'

/-- A head that is left out, or is read from its components. -/
inductive HeadAs {α : Type} (q : Reader α) : Output → Option α → List Component → Prop
  | absent : HeadAs q [] none []
  | present {o : Output} {a : α} {ks : List Component} (hneat : NeatAs o ks)
      (htakes : ∀ ls, Ends ls → Takes (Ahead 0 (ks ++ ls)) (Ahead 0 ls) a q) :
      HeadAs q o (some a) ks

section Prelude

variable {V : Type} [Term V] {good : V → Prop} {compact : Bool} {p : Position V}

omit [Term V] in
theorem Position.eq_center (h : p.isCenter = true) : p = .center := by
  unfold Position.isCenter at h
  split at h
  · rfl
  · cases h

/-- A position in front of a comma, or of nothing. -/
theorem exists_position (hV : Lawful V good) (hp : p.Good) {p' : Position V}
    (h : readText (Position V) (textOf compact p) = .ok p') :
    ∃ ks, NeatAs (print compact p) ks ∧
      ∀ tail : Tail, Takes (Ahead 0 (ks ++ tail.components)) (Ahead 0 tail.components) p' read := by
  obtain ⟨ks, hks⟩ := (hp.neat compact).exists_neatAs
  have htext : bareAll (ofText (textOf compact p).toList) = ks := by
    rw [textOf, toList_render]
    exact hks.makes.bareAll_ofText
  have hread : IsText 0 read p' (ofText (textOf compact p).toList) := of_run h
  refine ⟨ks, hks, fun tail => ?_⟩
  have htakes := hread.takes_cut (Position.stopsAtComma_read hV) (soundAll_ofText _) tail
  rwa [htext] at htakes

/-- A position and the word before it, in front of a comma. -/
theorem exists_at (hV : Lawful V good) (hp : p.Good) (h : Reread compact p) :
    ∃ ks, NeatAs (text "at " ++ print compact p) (.token (.ident "at") .start :: ks) ∧
      ∀ ls, Takes (Ahead 0 (.token (.ident "at") .start :: (ks ++ .token .comma .start :: ls)))
        (Ahead 0 (.token .comma .start :: ls)) p readAt := by
  obtain ⟨ks, hks, htakes⟩ := exists_position hV hp h
  have hword : NeatAs (text "at") [.token (.ident "at") .start] :=
    ((isWord_iff "at").mp (by decide)).neatAs
  refine ⟨.blanks .start :: ks, (hword.append hks.behindSpace).of_chars (by simp), fun ls => ?_⟩
  exact (takes_named "at").bind ((htakes (.comma ls)).before fun c hc => hc.ahead.of_skip rfl)

/-- The head and the center of a gradient are read before the items, and the comma if there is one
of them. -/
theorem exists_prelude {α β : Type} (hV : Lawful V good) {q : Reader α} {head : Output}
    {a? : Option α} {hs : List Component} (hhead : HeadAs q head a? hs)
    (hat : ∀ ls, Fails (Ahead 0 (.token (.ident "at") .start :: ls)) q)
    (hcolor : ∀ {P Q : Cursor → Prop} {c : Color V}, Takes P Q c read → Fails P q)
    (hp : p.Good) (hreread : Reread compact p) {o : Output} {ks : List Component} (ho : NeatAs o ks)
    (hbegins : ∃ (c : Color V) (Q : Cursor → Prop), Takes (Ahead 0 ks) Q c read)
    {f : Option α → Option (Position V) → Unit → Reader β} {b : β}
    (hf : ∀ p?, p?.getD .center = p → ∀ bs, skip bs = [] →
      Takes (Stand 0 (bs ++ ks)) (Ahead 0 []) b (f a? p? ())) :
    ∃ ls, NeatAs (printPrelude compact head p ++ o) ls ∧ Takes (Stand 0 ls) (Ahead 0 []) b (do
      let a? ← attempt q
      let p? : Option (Position V) ← attempt readAt
      if a?.isSome || p?.isSome then comma >>= f a? p? else f a? p? ()) := by
  have hcomma {ls : List Component} : Takes (Ahead 0 (.token .comma .start :: ls)) (Stand 0 ls) ()
      comma := takes_token rfl
  have hnone : Fails (Ahead 0 ks) (readAt : Reader (Position V)) := by
    obtain ⟨c, Q, hc⟩ := hbegins
    exact (fails_of_color hc (wants_named (toLower_eq_self (by decide)) (by decide))).bind
  have hnone' (ls : List Component) :
      Fails (Ahead 0 (.token .comma .start :: ls)) (readAt : Reader (Position V)) :=
    (fails_token rfl).bind
  cases hcenter : p.isCenter with
  | true =>
    have hitems := hf none (Position.eq_center hcenter).symm
    cases hhead with
    | absent =>
      obtain ⟨c, Q, hc⟩ := hbegins
      refine ⟨ks, ho.of_chars (by simp [printPrelude, hcenter]), ?_⟩
      exact ((hcolor hc).before fun _ hc => hc.ahead).attempt.bind
        ((hnone.before fun _ hc => hc.ahead).attempt.bind (hitems [] rfl))
    | @present _ a _ hneat htakes =>
      have hempty : head.isEmpty = false := by simpa using hneat.ne_nil
      refine ⟨_, (hneat.append (ho.behindComma compact)).of_chars
        (by simp [printPrelude, hcenter, hempty]), ?_⟩
      refine ((htakes _ (.inl ⟨_, rfl⟩)).before fun _ hc => hc.ahead).attempt.bind ?_
      exact (hnone' _).attempt.bind (hcomma.bind (hitems _ (skip_gap compact)))
  | false =>
    have hitems := hf (some p) rfl
    obtain ⟨ps, hps, hreadAt⟩ := exists_at hV hp hreread
    have hrest := hps.append (ho.behindComma compact)
    cases hhead with
    | absent =>
      refine ⟨_, hrest.of_chars (by simp [printPrelude, hcenter]), ?_⟩
      refine ((hat _).before fun _ hc => hc.ahead).attempt.bind ?_
      refine ((hreadAt _).before fun _ hc => hc.ahead).attempt.bind ?_
      exact hcomma.bind (hitems _ (skip_gap compact))
    | @present _ a _ hneat htakes =>
      have hempty : head.isEmpty = false := by simpa using hneat.ne_nil
      refine ⟨_, (hneat.append hrest.behindSpace).of_chars
        (by simp [printPrelude, hcenter, hempty]), ?_⟩
      refine ((htakes _ (.inr ⟨_, rfl⟩)).before fun _ hc => hc.ahead).attempt.bind ?_
      refine ((hreadAt _).before fun _ hc => hc.of_skip rfl).attempt.bind ?_
      exact hcomma.bind (hitems _ (skip_gap compact))

end Prelude

/-! Where a head ends. -/

theorem Ends.fails {α : Type} {p : Reader α} {ls : List Component} (h : Ends ls)
    (hcomma : ∀ ls, Fails (Ahead 0 (.token .comma .start :: ls)) p)
    (hat : ∀ ls, Fails (Ahead 0 (.token (.ident "at") .start :: ls)) p) : Fails (Ahead 0 ls) p := by
  rcases h with ⟨ls', hls⟩ | ⟨ls', hls⟩
  · exact (hcomma ls').before fun c hc => hc.of_skip hls
  · exact (hat ls').before fun c hc => hc.of_skip hls

theorem Ends.fails_keyword {α : Type} [Keyword α] (hα : Keyword.ofName? α "at" = none)
    {ls : List Component} (h : Ends ls) : Fails (Ahead 0 ls) (read : Reader α) :=
  h.fails (fun _ => fails_token rfl) fun _ => fails_token hα

theorem Ends.fails_measure {V D : Type} [Term V] [Readable D] (hD : OneNumber D)
    {ls : List Component} (h : Ends ls) : Fails (Ahead 0 ls) (read : Reader (Measure D V)) :=
  h.fails (fun _ => (Measure.wants_read hD).fails_token (by simp [beginsMeasure]))
    fun _ => (Measure.wants_read hD).fails_token (by simp [beginsMeasure])

/-- Where a measure stands there is no keyword. -/
theorem fails_of_measure {V D α : Type} [Term V] [Readable D] (hD : OneNumber D)
    {P Q : Cursor → Prop} {m : Measure D V} (h : Takes P Q m read) {p : Reader α}
    (hp : Wants isColorless p) : Fails P p := by
  refine (Measure.wants_read hD).fails hp (fun t ht hcolorless => ?_) h
  obtain ⟨n, rfl, -⟩ := hcolorless
  cases ht

theorem Reader.Takes.expectMono {α : Type} {P Q : Cursor → Prop} {a : α} {f g : Token → Option α}
    (h : Takes P Q a (expect f)) (hfg : ∀ t, f t = some a → g t = some a) :
    Takes P Q a (expect g) := by
  intro c hc
  obtain ⟨c', hread, hc'⟩ := h c hc
  cases hnext : c.next with
  | error e =>
    change (c.next >>= fun r => _) = _ at hread
    rw [hnext] at hread
    cases hread
  | ok x =>
    rw [expect_of_next hnext] at hread
    cases hf : f x.1 with
    | none =>
      rw [hf] at hread
      cases hread
    | some b =>
      rw [hf] at hread
      cases hread
      exact ⟨_, by rw [expect_of_next hnext, hfg _ hf], hc'⟩

theorem exists_angle {a : Angle} {compact : Bool} (h : Reread compact a) :
    ∃ k, NeatAs (print compact a) [k] ∧
      ∀ ls, Takes (Ahead 0 (k :: ls)) (Stand 0 ls) a Angle.readWithZero := by
  have hhead : AtHead (fun _ => True) (read : Reader Angle) := atHead_expect Dimension.ofToken?
  obtain ⟨k, hneat, -, htakes⟩ := exists_component hhead (prints_dimension a compact) h
  refine ⟨k, hneat, fun ls => (htakes 0 ls (.inl rfl)).expectMono fun t ht => ?_⟩
  cases t with
  | number => cases ht
  | _ => exact ht

namespace LineDirection

/-- The angle of a direction. -/
def angle? : LineDirection → Option Angle
  | angle a => some a
  | _ => none

theorem eq_default {d : LineDirection} (h : d.isDefault = true) : d = .vertical .bottom := by
  unfold isDefault at h
  split at h
  · rfl
  · cases h

theorem exists_takes {d : LineDirection} {compact : Bool} (h : ∀ a ∈ d.angle?, Reread compact a) :
    ∃ ks, NeatAs (print compact d) ks ∧
      ∀ ls, Ends ls → Takes (Ahead 0 (ks ++ ls)) (Ahead 0 ls) d read := by
  have hto {o : Output} {ks : List Component} (ho : NeatAs o ks) :
      NeatAs (text "to " ++ o) (.token (.ident "to") .start :: .blanks .start :: ks) :=
    ((((isWord_iff "to").mp (by decide)).neatAs).append ho.behindSpace).of_chars (by simp)
  have htarget {ks ls : List Component} {d : LineDirection}
      (hd : Takes (Ahead 0 (.token (.ident "to") .start :: ks)) (Ahead 0 ls) d readTarget) :
      Takes (Ahead 0 (.token (.ident "to") .start :: ks)) (Ahead 0 ls) d read := by
    have hangle : Fails (Ahead 0 (.token (.ident "to") .start :: ks)) Angle.readWithZero :=
      fails_token rfl
    exact (hangle.map _).orElse hd
  have hx {ls : List Component} (hls : Ends ls) :
      Fails (Ahead 0 ls) (read : Reader HorizontalSide) :=
    hls.fails_keyword ((keyword_ofName?_eq _ _).trans (by decide))
  have hy {ls : List Component} (hls : Ends ls) : Fails (Ahead 0 ls) (read : Reader VerticalSide) :=
    hls.fails_keyword ((keyword_ofName?_eq _ _).trans (by decide))
  have hword {n : Nat} {α : Type} [Keyword α] [SpelledKeyword α] (a : α) (ls : List Component) :
      Takes (Ahead n (wordOf a :: ls)) (Ahead n ls) a read :=
    (takes_keyword a).after fun _ hc => hc.ahead
  have hspace {n : Nat} {ks : List Component} {c : Cursor} (hc : Stand n (.blanks .start :: ks) c) :
      Ahead n ks c := hc.ahead.of_skip rfl
  cases d with
  | angle a =>
    obtain ⟨k, hneat, htakes⟩ := exists_angle (h a rfl)
    exact ⟨[k], hneat, fun ls _ => ((htakes ls).map _).orElse.after fun _ hc => hc.ahead⟩
  | horizontal s =>
    refine ⟨_, hto (neatAs_keyword compact s), fun ls hls => htarget ?_⟩
    refine ((takes_named "to").after fun _ => hspace).bind ((hword s ls).attempt.bind ?_)
    exact (hy hls).attempt.bind (.pure _)
  | vertical s =>
    have hs (ls : List Component) :
        Fails (Ahead 0 (wordOf s :: ls)) (read : Reader HorizontalSide) :=
      fails_token ((keyword_ofName?_eq _ _).trans (by cases s <;> decide))
    refine ⟨_, hto (neatAs_keyword compact s), fun ls hls => htarget ?_⟩
    refine ((takes_named "to").after fun _ => hspace).bind ((hs ls).attempt.bind ?_)
    exact (hword s ls).bind ((hx hls).attempt.bind (.pure _))
  | corner x y =>
    have hy (ls : List Component) :
        Fails (Ahead 0 (wordOf y :: ls)) (read : Reader HorizontalSide) :=
      fails_token ((keyword_ofName?_eq _ _).trans (by cases y <;> decide))
    have hneat := (neatAs_keyword compact y).append (neatAs_keyword compact x).behindSpace
    refine ⟨_, (hto hneat).of_chars (by simp [Printable.print]), fun ls hls => htarget ?_⟩
    refine ((takes_named "to").after fun _ => hspace).bind ((hy _).attempt.bind ?_)
    refine ((takes_keyword y).after fun _ => hspace).bind ((hword x ls).attempt.bind (.pure _))

end LineDirection

namespace EndingShape

theorem eq_standard {V : Type} {s : EndingShape V} (h : s.isStandard = true) : s = .standard := by
  unfold isStandard at h
  split at h
  · rfl
  · cases h

variable {V : Type} [Term V] {good : V → Prop}

/-- Without a keyword, an extent and radii there is no shape. -/
theorem fails_read {P : Cursor → Prop} (hkeyword : Fails P (read : Reader ShapeKeyword))
    (hextent : Fails P (read : Reader ShapeExtent))
    (hradius : Fails P (read : Reader (LengthPercentage V))) :
    Fails P (read : Reader (EndingShape V)) := by
  have hradii : Fails P (readRadii : Reader (LengthPercentage V × Option (LengthPercentage V))) :=
    hradius.bind
  refine hkeyword.attempt.bindFails (hextent.attempt.bindFails ?_)
  exact hradii.attempt.bindFails (hkeyword.attempt.bindFails fun c _ => ⟨_, rfl⟩)

theorem wants_shapeKeyword : Wants isColorless (read : Reader ShapeKeyword) :=
  wants_keyword (fun a => toLower_eq_self (by cases a <;> decide)) fun a => by cases a <;> decide

theorem wants_shapeExtent : Wants isColorless (read : Reader ShapeExtent) :=
  wants_keyword (fun a => toLower_eq_self (by cases a <;> decide)) fun a => by cases a <;> decide

/-- A shape is read part by part. -/
theorem takes_parts {P Q Q' Q'' R : Cursor → Prop} {before? keyword? : Option ShapeKeyword}
    {extent? : Option ShapeExtent}
    {radii? : Option (LengthPercentage V × Option (LengthPercentage V))} {s : EndingShape V}
    (hbefore : Takes P Q before? (attempt read)) (hextent : Takes Q Q' extent? (attempt read))
    (hradii : Takes Q' Q'' radii? (if extent?.isSome then pure none else attempt readRadii))
    (hkeyword : Takes Q'' R keyword? (if before?.isSome then pure before? else attempt read))
    (h : ofParts? keyword? extent? radii? = some s) : Takes P R s read := by
  refine hbefore.bind (hextent.bind ?_)
  cases extent? <;> refine hradii.bind ?_ <;> cases before? <;> refine hkeyword.bind ?_ <;>
    beta_reduce <;> rw [h] <;> exact .pure s

section Parts

variable {ls : List Component} (hls : Ends ls)

include hls

theorem fails_keyword : Fails (Ahead 0 ls) (read : Reader ShapeKeyword) :=
  hls.fails_keyword ((keyword_ofName?_eq _ _).trans (by decide))

theorem fails_extent : Fails (Ahead 0 ls) (read : Reader ShapeExtent) :=
  hls.fails_keyword ((keyword_ofName?_eq _ _).trans (by decide))

theorem fails_radius : Fails (Ahead 0 ls) (read : Reader (LengthPercentage V)) :=
  hls.fails_measure Length.oneNumber

/-- Behind radii, to which no keyword belongs. -/
theorem takes_radii {k : Component} {ks : List Component} {m : LengthPercentage V}
    {m? : Option (LengthPercentage V)} (hm : Takes (Ahead 0 (k :: ks)) (Ahead 0 ks) m read)
    (hm? : Takes (Ahead 0 ks) (Ahead 0 ls) m? (attempt read)) {s : EndingShape V}
    (h : ofParts? none none (some (m, m?)) = some s) :
    Takes (Ahead 0 (k :: ks)) (Ahead 0 ls) s read := by
  have hkeyword : Fails (Ahead 0 (k :: ks)) (read : Reader ShapeKeyword) :=
    fails_of_measure Length.oneNumber hm wants_shapeKeyword
  have hextent : Fails (Ahead 0 (k :: ks)) (read : Reader ShapeExtent) :=
    fails_of_measure Length.oneNumber hm wants_shapeExtent
  have hradii : Takes (Ahead 0 (k :: ks)) (Ahead 0 ls) (m, m?) readRadii :=
    hm.bind (hm?.bind (.pure _))
  exact takes_parts hkeyword.attempt hextent.attempt hradii.attempt (fails_keyword hls).attempt h

omit hls in
theorem takes_circleExtent (e : ShapeExtent) :
    Takes (Ahead 0 (wordOf ShapeKeyword.circle :: .blanks .start :: wordOf e :: ls)) (Ahead 0 ls)
      (circleExtent e : EndingShape V) read := by
  have hcircle : Takes (Ahead 0 (wordOf ShapeKeyword.circle :: .blanks .start :: wordOf e :: ls))
      (Ahead 0 (wordOf e :: ls)) ShapeKeyword.circle read :=
    (takes_keyword _).after fun _ hc => hc.ahead.of_skip rfl
  have hextent : Takes (Ahead 0 (wordOf e :: ls)) (Ahead 0 ls) e read :=
    (takes_keyword e).after fun _ hc => hc.ahead
  exact takes_parts hcircle.attempt hextent.attempt (.pure none) (.pure _) rfl

theorem takes_circle : Takes (Ahead 0 (wordOf ShapeKeyword.circle :: ls)) (Ahead 0 ls)
    (circleExtent .farthestCorner : EndingShape V) read := by
  have hcircle : Takes (Ahead 0 (wordOf ShapeKeyword.circle :: ls)) (Ahead 0 ls) ShapeKeyword.circle
      read := (takes_keyword _).after fun _ hc => hc.ahead
  have hradii : Fails (Ahead 0 ls)
      (readRadii : Reader (LengthPercentage V × Option (LengthPercentage V))) :=
    (fails_radius hls).bind
  exact takes_parts hcircle.attempt (fails_extent hls).attempt hradii.attempt (.pure _) rfl

theorem takes_ellipseExtent (e : ShapeExtent) :
    Takes (Ahead 0 (wordOf e :: ls)) (Ahead 0 ls) (ellipseExtent e : EndingShape V) read := by
  have hkeyword : Fails (Ahead 0 (wordOf e :: ls)) (read : Reader ShapeKeyword) :=
    fails_token ((keyword_ofName?_eq _ _).trans (by cases e <;> decide))
  have hextent : Takes (Ahead 0 (wordOf e :: ls)) (Ahead 0 ls) e read :=
    (takes_keyword e).after fun _ hc => hc.ahead
  exact takes_parts hkeyword.attempt hextent.attempt (.pure none) (fails_keyword hls).attempt rfl

end Parts

theorem exists_takes (hV : Lawful V good) {s : EndingShape V} (hs : s.Good) {compact : Bool}
    (h : ∀ m ∈ s.radii, Reread compact m) :
    ∃ ks, NeatAs (print compact s) ks ∧
      ∀ ls, Ends ls → Takes (Ahead 0 (ks ++ ls)) (Ahead 0 ls) s read := by
  have hmeasure {m : LengthPercentage V} (hm : m ∈ s.radii) :
      ∃ k, NeatAs (print compact m) [k] ∧
        ∀ ls, Takes (Ahead 0 (k :: ls)) (Ahead 0 ls) m read := by
    obtain ⟨k, hneat, -, htakes⟩ :=
      exists_component (Measure.atHead_read hV Length.oneNumber) (hs m hm compact) (h m hm)
    exact ⟨k, hneat, fun ls => (htakes 0 ls (.inl rfl)).after fun _ hc => hc.ahead⟩
  cases s with
  | circleRadius r =>
    obtain ⟨k, hneat, htakes⟩ := hmeasure (m := .dimension r) (by simp [radii])
    exact ⟨[k], hneat, fun ls hls => takes_radii hls (htakes ls) (fails_radius hls).attempt rfl⟩
  | ellipseRadii x y =>
    obtain ⟨k, hneat, htakes⟩ := hmeasure (m := x) (by simp [radii])
    obtain ⟨k', hneat', htakes'⟩ := hmeasure (m := y) (by simp [radii])
    have hboth := hneat.append hneat'.behindSpace
    refine ⟨_, hboth.of_chars (by simp [Printable.print]), fun ls hls => ?_⟩
    have hy : Takes (Ahead 0 (.blanks .start :: k' :: ls)) (Ahead 0 ls) y read :=
      (htakes' ls).before fun c hc => hc.of_skip rfl
    exact takes_radii hls (htakes _) hy.attempt (by cases x <;> rfl)
  | circleExtent e =>
    have hcircle : NeatAs (text "circle") [wordOf ShapeKeyword.circle] :=
      neatAs_keyword compact ShapeKeyword.circle
    by_cases he : e = .farthestCorner
    · subst he
      exact ⟨_, hcircle, fun ls hls => takes_circle hls⟩
    · have hboth := hcircle.append (neatAs_keyword compact e).behindSpace
      refine ⟨_, hboth.of_chars ?_, fun ls hls => takes_circleExtent e⟩
      cases e <;> first | exact absurd rfl he | simp [Printable.print]
  | ellipseExtent e =>
    exact ⟨_, neatAs_keyword compact e, fun ls hls => takes_ellipseExtent hls e⟩

end EndingShape

/-! Equal gradients. -/

theorem Angle.beq_comm (a b : Angle) : (a == b) = (b == a) := BEq.comm

namespace GradientItem

variable {P V : Type}

/-- Items that are alike are equal, where the second are equal to themselves. -/
theorem beq_of_alike [BEq P] [BEq V] {is js : List (GradientItem P V)}
    (h : List.Forall₂ Alike is js)
    (hself : (js == js) = true) : (is == js) = true := by
  induction h with
  | nil => rfl
  | @cons i j is js hi _ ih =>
    rw [List.cons_beq_cons, Bool.and_eq_true] at hself ⊢
    refine ⟨?_, ih hself.2⟩
    cases hi with
    | refl => exact hself.1
    | @stop c c' p? hc =>
      have hstop : (c' == c' && p? == p?) = true := hself.1
      change (c == c' && p? == p?) = true
      rw [Bool.and_eq_true] at hstop
      rw [hc, hstop.2, Bool.true_and]

/-- The color and the position of an item are reread. -/
def PartsReread [Readable P] [Printable P] [Term V] (compact : Bool) : GradientItem P V → Prop
  | .stop ⟨c, p?⟩ => Reread compact c ∧ ∀ p ∈ p?, Reread compact p
  | .hint p => Reread compact p

variable [Term V] {good : V → Prop} {D : Type} [Readable D] [Printable D] {compact : Bool}

theorem PartsReread.restored (hV : Lawful V good) (hD : OneNumber D)
    {i : GradientItem (Measure D V) V} (hgood : i.Good) (h : i.PartsReread compact) :
    i.Restored compact := by
  cases hgood with
  | stop hcolor hposition =>
    exact ⟨restores_of_reread (Color.atHead_read hV) hcolor h.1, fun p hp =>
      restores_of_reread (Measure.atHead_read hV hD) (hposition p hp) (h.2 p hp)⟩
  | hint hp => exact restores_of_reread (Measure.atHead_read hV hD) hp h

/-- The items of a gradient, behind blanks or not, and the color that they begin with. -/
theorem exists_items (hV : Lawful V good) (hD : OneNumber D)
    {is : List (GradientItem (Measure D V) V)} (hmade : Made is)
    (h : ∀ i ∈ is, i.PartsReread compact) :
    ∃ ks is', NeatAs (printAll compact is) ks ∧ List.Forall₂ Alike is' is ∧
      (∃ (c : Color V) (Q : Cursor → Prop), Takes (Ahead 0 ks) Q c read) ∧
      ∀ bs, skip bs = [] → Takes (Stand 0 (bs ++ ks)) (Ahead 0 []) is' readAll := by
  obtain ⟨c, c', hread⟩ := hmade.read
  obtain ⟨es, ks, hneat, halike, hes, hall⟩ :=
    exists_entries hread fun i hi => (h i hi).restored hV hD (hmade.good i hi)
  exact ⟨ks, _, hneat, halike, AllSegments.begins (hall [] rfl) hes, fun bs hbs =>
    takes_readAll (Measure.wants_read hD) (hall bs hbs) hes⟩

end GradientItem

open GradientItem (Made)

section Gradients

variable {V : Type} [Term V] {good : V → Prop} {compact : Bool}

theorem Angle.wants_readWithZero : Wants (beginsMeasure · = true) Angle.readWithZero := by
  refine Wants.expect fun t ht => ?_
  cases t with
  | number => rfl
  | _ => exact (Dimension.beginsMeasure_of_ofToken? ht).1

/-- Where a color stands there is no direction. -/
theorem LineDirection.fails_of_color {P Q : Cursor → Prop} {c : Color V} (hc : Takes P Q c read) :
    Fails P (read : Reader LineDirection) := by
  have hangle : Fails P Angle.readWithZero :=
    Color.wants_read.fails Angle.wants_readWithZero
      (fun _ ht hm => Measure.not_beginsColor hm ht) hc
  have hto : Fails P LineDirection.readTarget :=
    (StyleGrammar.fails_of_color hc (wants_named (toLower_eq_self (by decide)) (by decide))).bind
  exact (hangle.map _).orElseFails hto

/-- Everything but the items is read back as it is. -/
theorem LinearGradient.exists_readText (hV : Lawful V good) {g : LinearGradient V}
    (hmade : Made g.items) (hitems : ∀ i ∈ g.items, i.PartsReread compact)
    (hangle : ∀ a ∈ g.direction.angle?, Reread compact a) :
    ∃ is, readText (LinearGradient V) (textOf compact g) = .ok { g with items := is } ∧
      List.Forall₂ GradientItem.Alike is g.items := by
  obtain ⟨repeating, direction, items⟩ := g
  obtain ⟨ks, is, hneat, halike, ⟨c, Q, hc⟩, hread⟩ :=
    GradientItem.exists_items hV Length.oneNumber hmade hitems
  refine ⟨is, ?_, halike⟩
  have hrest {bs : List Component} (hbs : skip bs = []) :
      Takes (Stand 0 (bs ++ ks)) (Ahead 0 []) (⟨repeating, direction, is⟩ : LinearGradient V) (do
        return ⟨repeating, direction, ← GradientItem.readAll⟩) := (hread bs hbs).bind (.pure _)
  cases hdefault : direction.isDefault with
  | true =>
    obtain rfl := LineDirection.eq_default hdefault
    have hnone : Fails (Stand 0 ks) (read : Reader LineDirection) :=
      (LineDirection.fails_of_color hc).before fun _ hc => hc.ahead
    have hnil : skip ([] : List Component) = [] := rfl
    exact run_gradient (by decide) (by decide) repeating hneat
      (hnone.attempt.bind (hrest hnil))
  | false =>
    obtain ⟨ds, hds, hdirection⟩ := LineDirection.exists_takes hangle
    have ho := (hds.append (hneat.behindComma compact)).of_chars
      (o := (if direction.isDefault then [] else print compact direction ++ Output.comma compact) ++
        GradientItem.printAll compact items) (by simp [hdefault])
    refine run_gradient (by decide) (by decide) repeating ho ?_
    have hcomma : Takes (Ahead 0 (.token .comma .start :: (gap compact ++ ks)))
        (Stand 0 (gap compact ++ ks)) () comma := takes_token rfl
    refine ((hdirection _ (.inl ⟨_, rfl⟩)).before fun _ hc => hc.ahead).attempt.bind ?_
    exact hcomma.bind (hrest (skip_gap compact))

theorem RadialGradient.exists_readText (hV : Lawful V good) {g : RadialGradient V} (hg : g.Good)
    (hitems : ∀ i ∈ g.items, i.PartsReread compact) (hposition : Reread compact g.position)
    (hradii : ∀ m ∈ g.shape.radii, Reread compact m) :
    ∃ is, readText (RadialGradient V) (textOf compact g) = .ok { g with items := is } ∧
      List.Forall₂ GradientItem.Alike is g.items := by
  obtain ⟨repeating, shape, position, items⟩ := g
  obtain ⟨hshape, hcenter, hmade⟩ := hg
  obtain ⟨ks, is, hneat, halike, hbegins, hread⟩ :=
    GradientItem.exists_items hV Length.oneNumber hmade hitems
  refine ⟨is, ?_, halike⟩
  obtain ⟨shape?, hs, hhead, hgetD⟩ : ∃ shape? hs,
      HeadAs read (if shape.isStandard then [] else print compact shape) shape? hs ∧
        shape?.getD .standard = shape := by
    cases hstandard : shape.isStandard with
    | true => exact ⟨none, [], .absent, (EndingShape.eq_standard hstandard).symm⟩
    | false =>
      obtain ⟨hs, hneat, htakes⟩ := EndingShape.exists_takes hV hshape hradii
      exact ⟨some shape, hs, .present hneat htakes, rfl⟩
  obtain ⟨ls, hls, htakes⟩ := exists_prelude hV hhead
    (fun ls => EndingShape.fails_read (fails_token ((keyword_ofName?_eq _ _).trans (by decide)))
      (fails_token ((keyword_ofName?_eq _ _).trans (by decide)))
      ((Measure.wants_read Length.oneNumber).fails_token (by simp [beginsMeasure])))
    (fun hc => EndingShape.fails_read (fails_of_color hc EndingShape.wants_shapeKeyword)
      (fails_of_color hc EndingShape.wants_shapeExtent)
      (Color.wants_read.fails (Measure.wants_read Length.oneNumber)
        (fun _ ht hm => Measure.not_beginsColor hm ht) hc))
    hcenter hposition hneat hbegins (b := (⟨repeating, shape, position, is⟩ : RadialGradient V))
    (f := fun shape? position? _ => do
      return ⟨repeating, shape?.getD .standard, position?.getD .center, ← GradientItem.readAll⟩)
    (fun p? hp? bs hbs => by
      rw [hp?, hgetD]
      exact (hread bs hbs).bind (.pure _))
  exact run_gradient (by decide) (by decide) repeating hls htakes

theorem ConicGradient.exists_readText (hV : Lawful V good) {g : ConicGradient V} (hg : g.Good)
    (hitems : ∀ i ∈ g.items, i.PartsReread compact) (hposition : Reread compact g.position)
    (hangle : Reread compact g.angle) :
    ∃ a is, readText (ConicGradient V) (textOf compact g) =
        .ok { g with angle := a, items := is } ∧
      (a = g.angle ∨ a = noAngle ∧ (g.angle == noAngle) = true) ∧
      List.Forall₂ GradientItem.Alike is g.items := by
  obtain ⟨repeating, angle, position, items⟩ := g
  obtain ⟨hcenter, hmade⟩ := hg
  obtain ⟨ks, is, hneat, halike, hbegins, hread⟩ :=
    GradientItem.exists_items hV Angle.oneNumber hmade hitems
  have hfrom : Wants isColorless (keyword "from") :=
    wants_named (toLower_eq_self (by decide)) (by decide)
  obtain ⟨angle?, as, hhead, hgetD⟩ : ∃ angle? as,
      HeadAs readFrom (if angle == noAngle then [] else text "from " ++ print compact angle)
        angle? as ∧
      (angle?.getD noAngle = angle ∨
        angle?.getD noAngle = noAngle ∧ (angle == noAngle) = true) := by
    cases hnone : angle == noAngle with
    | true => exact ⟨none, [], .absent, .inr ⟨rfl, rfl⟩⟩
    | false =>
      obtain ⟨k, hk, htakes⟩ := exists_angle hangle
      have hword : NeatAs (text "from") [.token (.ident "from") .start] :=
        ((isWord_iff "from").mp (by decide)).neatAs
      refine ⟨some angle, _, .present ((hword.append hk.behindSpace).of_chars (by simp))
        fun ls _ => ?_, .inl rfl⟩
      refine (takes_named "from").bind (((htakes ls).before fun c hc => hc.ahead.of_skip rfl).after
        fun _ hc => hc.ahead)
  obtain ⟨ls, hls, htakes⟩ := exists_prelude hV hhead
    (fun ls => (fails_token (by simp [sameName_eq])).bind)
    (fun hc => (fails_of_color hc hfrom).bind)
    hcenter hposition hneat hbegins
    (b := (⟨repeating, angle?.getD noAngle, position, is⟩ : ConicGradient V))
    (f := fun angle? position? _ => do
      return ⟨repeating, angle?.getD noAngle, position?.getD .center, ← GradientItem.readAll⟩)
    (fun p? hp? bs hbs => by
      rw [hp?]
      exact (hread bs hbs).bind (.pure _))
  exact ⟨_, is, run_gradient (by decide) (by decide) repeating hls htakes, hgetD,
    halike⟩

end Gradients

/-! Two stops at one place, which are written as one. -/

namespace GradientItem

variable {D V : Type}

def aqua : Color V := .plain (.named "aqua")

def twice (d : D) : List (GradientItem (Measure D V) V) :=
  [.stop ⟨aqua, some (.dimension d)⟩, .stop ⟨aqua, some (.dimension d)⟩]

theorem reread_aqua (compact : Bool) : Reread compact (aqua : Color (Nested 0)) := by
  cases compact <;> decide +kernel

theorem partsReread_twice [Readable D] [Printable D] {compact : Bool} {d : D}
    (hd : Reread compact (.dimension d : Measure D (Nested 0))) :
    ∀ i ∈ (twice d : List (GradientItem (Measure D (Nested 0)) (Nested 0))),
      i.PartsReread compact := by
  intro i hi
  obtain rfl : i = .stop ⟨aqua, some (.dimension d)⟩ := by simpa [twice] using hi
  exact ⟨reread_aqua compact, fun p hp => by rwa [← Option.some.inj hp]⟩

end GradientItem

open GradientItem (twice partsReread_twice)

/-- The left side, at which nothing is said of the other axis. -/
def Position.left {V : Type} : Position V := ⟨.side .left none, .center⟩

/-- Gradients that were read are read back as equal ones, if their colors and positions, the angle
that they lead along or start from, and the radii of the shape are. -/
theorem readText_gradient (depth : Nat) (compact : Bool) :
    (∀ g : LinearGradient (Nested depth),
      (∃ s, readText (LinearGradient (Nested depth)) s = .ok g) →
      (∀ i ∈ g.items, i.PartsReread compact) → (∀ a ∈ g.direction.angle?, Reread compact a) →
      ∃ g', readText (LinearGradient (Nested depth)) (textOf compact g) = .ok g' ∧
        ((g == g) = true → (g' == g) = true)) ∧
    (∀ g : RadialGradient (Nested depth),
      (∃ s, readText (RadialGradient (Nested depth)) s = .ok g) →
      (∀ i ∈ g.items, i.PartsReread compact) → Reread compact g.position →
      (∀ m ∈ g.shape.radii, Reread compact m) →
      ∃ g', readText (RadialGradient (Nested depth)) (textOf compact g) = .ok g' ∧
        ((g == g) = true → (g' == g) = true)) ∧
    (∀ g : ConicGradient (Nested depth), (∃ s, readText (ConicGradient (Nested depth)) s = .ok g) →
      (∀ i ∈ g.items, i.PartsReread compact) → Reread compact g.position → Reread compact g.angle →
      ∃ g', readText (ConicGradient (Nested depth)) (textOf compact g) = .ok g' ∧
        ((g == g) = true → (g' == g) = true)) := by
  have hV := Nested.lawful depth
  refine ⟨?_, ?_, ?_⟩
  · rintro g ⟨s, hs⟩ hitems hangle
    have hmade := (LinearGradient.steadyHead_made hV).steady.good_of_run hs
    obtain ⟨is, hread, halike⟩ := LinearGradient.exists_readText hV hmade hitems hangle
    refine ⟨_, hread, fun hself => ?_⟩
    obtain ⟨repeating, direction, items⟩ := g
    change (repeating == repeating && (direction == direction && items == items)) = true at hself
    change (repeating == repeating && (direction == direction && is == items)) = true
    simp only [Bool.and_eq_true] at hself ⊢
    exact ⟨hself.1, hself.2.1, GradientItem.beq_of_alike halike hself.2.2⟩
  · rintro g ⟨s, hs⟩ hitems hposition hradii
    have hgood := (RadialGradient.steadyHead_good hV).steady.good_of_run hs
    obtain ⟨is, hread, halike⟩ := RadialGradient.exists_readText hV hgood hitems hposition hradii
    refine ⟨_, hread, fun hself => ?_⟩
    obtain ⟨repeating, shape, position, items⟩ := g
    change (repeating == repeating &&
      (shape == shape && (position == position && items == items))) = true at hself
    change (repeating == repeating &&
      (shape == shape && (position == position && is == items))) = true
    simp only [Bool.and_eq_true] at hself ⊢
    exact ⟨hself.1, hself.2.1, hself.2.2.1, GradientItem.beq_of_alike halike hself.2.2.2⟩
  · rintro g ⟨s, hs⟩ hitems hposition hangle
    have hgood := (ConicGradient.steadyHead_good hV).steady.good_of_run hs
    obtain ⟨a, is, hread, ha, halike⟩ :=
      ConicGradient.exists_readText hV hgood hitems hposition hangle
    refine ⟨_, hread, fun hself => ?_⟩
    obtain ⟨repeating, angle, position, items⟩ := g
    change (repeating == repeating &&
      (angle == angle && (position == position && items == items))) = true at hself
    change (repeating == repeating && (a == angle && (position == position && is == items))) = true
    simp only [Bool.and_eq_true] at hself ⊢
    refine ⟨hself.1, ?_, hself.2.2.1, GradientItem.beq_of_alike halike hself.2.2.2⟩
    rcases ha with rfl | ⟨rfl, hnone⟩
    · exact hself.2.1
    · rw [Angle.beq_comm]
      exact hnone

/-- What stands twice is written once, and the comma stays behind the parts that are there. -/
theorem readText_gradient_twice :
    let linear : LinearGradient (Nested 0) := ⟨false, .horizontal .left, twice ⟨Single.zero, .px⟩⟩
    let radial : RadialGradient (Nested 0) := ⟨false, .standard, .left, twice ⟨Single.zero, .px⟩⟩
    let conic : ConicGradient (Nested 0) :=
      ⟨false, ⟨Single.one, .turn⟩, .center, twice ⟨Single.zero, .deg⟩⟩
    (textOf true linear = "linear-gradient(to left,aqua 0px 0px)" ∧
      ∃ g', readText (LinearGradient (Nested 0)) (textOf true linear) = .ok g' ∧
        (g' == linear) = true) ∧
    (textOf true radial = "radial-gradient(at left,aqua 0px 0px)" ∧
      ∃ g', readText (RadialGradient (Nested 0)) (textOf true radial) = .ok g' ∧
        (g' == radial) = true) ∧
    (textOf true conic = "conic-gradient(from 1turn,aqua 0deg 0deg)" ∧
      ∃ g', readText (ConicGradient (Nested 0)) (textOf true conic) = .ok g' ∧
        (g' == conic) = true) := by
  intro linear radial conic
  obtain ⟨hlinear, hradial, hconic⟩ := readText_gradient 0 true
  have hlength : Reread true (.dimension ⟨Single.zero, .px⟩ : LengthPercentage (Nested 0)) := by
    decide +kernel
  have hangle : Reread true (.dimension ⟨Single.zero, .deg⟩ : AnglePercentage (Nested 0)) := by
    decide +kernel
  have hleft : Reread true (.left : Position (Nested 0)) := by decide +kernel
  refine ⟨⟨by decide +kernel, ?_⟩, ⟨by decide +kernel, ?_⟩, by decide +kernel, ?_⟩
  · have hread : readText (LinearGradient (Nested 0)) "linear-gradient(to left,aqua 0px,aqua 0px)" =
        .ok linear := by decide +kernel
    obtain ⟨g', hg', hequal⟩ :=
      hlinear linear ⟨_, hread⟩ (partsReread_twice hlength) (fun a ha => by cases ha)
    exact ⟨g', hg', hequal (by decide +kernel)⟩
  · have hread : readText (RadialGradient (Nested 0))
        "radial-gradient(ellipse at left,aqua 0px,aqua 0px)" = .ok radial := by decide +kernel
    obtain ⟨g', hg', hequal⟩ := hradial radial ⟨_, hread⟩ (partsReread_twice hlength) hleft
      (fun m hm => by cases hm)
    exact ⟨g', hg', hequal (by decide +kernel)⟩
  · have hread : readText (ConicGradient (Nested 0))
        "conic-gradient(from 1turn,aqua 0deg,aqua 0deg)" = .ok conic := by decide +kernel
    have hturn : Reread true (⟨Single.one, .turn⟩ : Angle) := by decide +kernel
    have hcenter : Reread true (.center : Position (Nested 0)) := by decide +kernel
    obtain ⟨g', hg', hequal⟩ :=
      hconic conic ⟨_, hread⟩ (partsReread_twice hangle) hcenter hturn
    exact ⟨g', hg', hequal (by decide +kernel)⟩

/-- An angle is printed with six digits, so a direction of more is not read back, though the colors
and the positions of the items are. -/
theorem readText_gradient_roundedAngle :
    let linear (angle : Single) : LinearGradient (Nested 0) :=
      ⟨false, .angle ⟨angle, .deg⟩, twice ⟨Single.zero, .px⟩⟩
    let g := linear (.finite false 10356305 (-23))
    let g' := linear (.finite false 10356324 (-23))
    readText (LinearGradient (Nested 0)) "linear-gradient(1.2345678deg, aqua 0px, aqua 0px)" =
      .ok g ∧
      (∀ i ∈ g.items, i.PartsReread false) ∧
      textOf false g = "linear-gradient(1.23457deg, aqua 0px 0px)" ∧
      readText (LinearGradient (Nested 0)) (textOf false g) = .ok g' ∧
      (g == g) = true ∧ (g' == g) = false := by
  intro linear g g'
  have hlength : Reread false (.dimension ⟨Single.zero, .px⟩ : LengthPercentage (Nested 0)) := by
    decide +kernel
  exact ⟨by decide +kernel, partsReread_twice hlength, by decide +kernel, by decide +kernel,
    by decide +kernel, by decide⟩

end StyleGrammar
