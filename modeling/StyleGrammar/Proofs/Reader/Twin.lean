import Mathlib.Data.List.TakeDrop
import StyleGrammar.Proofs.Token.Sound

/-!
# Reading the same at two places

A reader does the same wherever it stands: the places in its text and the
nesting around it decide nothing but where a fault is reported, as long as the
limit on nesting is not met.  `Twin P Q good p q` says so of two readers: from
cursors related by `P` they both fail, or both read the same value, which is
good, and leave cursors related by `Q`.

Two relations are used.  Cursors are `Like` each other if the same components
are left to both.  A function or a single token is read with `Front` before and
`Done` behind it: only the next component is the same for both, and what comes
after it may differ.  `Twin` has a rule for every way in which readers are put
together.
-/

namespace StyleGrammar

namespace Component

@[simp] theorem isSpace_bare (k : Component) : k.bare.isSpace = k.isSpace := by
  cases k <;> rfl

@[simp] theorem isComma_bare (k : Component) : k.bare.isComma = k.isComma := by
  cases k with
  | token t _ => cases t <;> rfl
  | _ => rfl

end Component

open Component

/-- The same components.  Unless the nesting around them is the same too, there is room for the
levels that reading them takes. -/
structure Alike (room m n : Nat) (ks ls : List Component) : Prop where
  bare : bareAll ks = bareAll ls
  sound : SoundAll ks
  fits : m = n ∨ m + 2 * depthAll ks ≤ room ∧ n + 2 * depthAll ks ≤ room

/-- The same block was opened last, or none. -/
inductive EnteredAlike (room m n : Nat) : Option Entered → Option Entered → Prop
  | none : EnteredAlike room m n none none
  | some {e e' : Entered} (h : Alike room m n e.content e'.content) :
      EnteredAlike room m n (some e) (some e')

/-- Both results are faults, or the same value with cursors in a relation. -/
inductive Agree {α : Type} (post : α → Cursor → Cursor → Prop) :
    Except Fault (α × Cursor) → Except Fault (α × Cursor) → Prop
  | ok {a : α} {c d : Cursor} (h : post a c d) : Agree post (.ok (a, c)) (.ok (a, d))
  | error {e e' : Fault} : Agree post (.error e) (.error e')

theorem Agree.mono {α : Type} {post post' : α → Cursor → Cursor → Prop}
    {x y : Except Fault (α × Cursor)} (h : Agree post x y)
    (himp : ∀ a c d, post a c d → post' a c d) : Agree post' x y := by
  cases h with
  | ok h => exact .ok (himp _ _ _ h)
  | error => exact .error

theorem Component.depthAll_le_of_sublist {ks ls : List Component} (h : ks.Sublist ls) :
    depthAll ks ≤ depthAll ls := by
  induction h with
  | slnil => exact Nat.le_refl _
  | cons k _ ih => exact Nat.le_trans ih (Nat.le_max_right _ _)
  | cons_cons k _ ih =>
    simp only [depthAll]
    omega

theorem Alike.tail {room m n : Nat} {k l : Component} {ks ls : List Component}
    (h : Alike room m n (k :: ks) (l :: ls)) : Alike room m n ks ls := by
  obtain ⟨hbare, hsound, hfits⟩ := h
  have hle : depthAll ks ≤ depthAll (k :: ks) := Nat.le_max_right _ _
  exact ⟨(List.cons.inj hbare).2, hsound.2, by omega⟩

theorem Alike.head {room m n : Nat} {k l : Component} {ks ls : List Component}
    (h : Alike room m n (k :: ks) (l :: ls)) : k.bare = l.bare :=
  (List.cons.inj h.bare).1

theorem Alike.nil_iff {room m n : Nat} {ks ls : List Component} (h : Alike room m n ks ls) :
    ks = [] ↔ ls = [] := by
  have := h.bare
  rw [bareAll_eq_map, bareAll_eq_map] at this
  constructor <;> rintro rfl <;> simpa using this

/-- The content of a block has room for two levels less. -/
theorem Alike.content {room m n : Nat} {t t' : Token} {l l' stop stop' : Location}
    {content content' ks ls : List Component}
    (h : Alike (room + 2) m n (.block t l content stop :: ks) (.block t' l' content' stop' :: ls)) :
    Alike room m n content content' := by
  obtain ⟨hbare, ⟨⟨-, -, hsound⟩, -⟩, hfits⟩ := h
  have hle : depthAll content + 1 ≤ depthAll (.block t l content stop :: ks) := by
    exact Nat.le_max_left _ _
  have := (List.cons.inj hbare).1
  simp only [Component.bare, Component.block.injEq, true_and, and_true] at this
  exact ⟨this.2, hsound, by omega⟩

/-- One level deeper there is room for one level less. -/
theorem EnteredAlike.deeper {room m n : Nat} {e e' : Option Entered}
    (h : EnteredAlike room m n e e') : EnteredAlike (room + 1) (m + 1) (n + 1) e e' := by
  cases h with
  | none => exact .none
  | some h =>
    obtain ⟨hbare, hsound, hfits⟩ := h
    exact .some ⟨hbare, hsound, by omega⟩

theorem EnteredAlike.nesting_le {room m n : Nat} {e e' : Option Entered}
    (h : EnteredAlike room m n e e') (hne : e ≠ .none) : m = n ∨ m ≤ room ∧ n ≤ room := by
  cases h with
  | none => exact absurd rfl hne
  | some h =>
    have hfits := h.fits
    omega

theorem EnteredAlike.none_iff {room m n : Nat} {e e' : Option Entered}
    (h : EnteredAlike room m n e e') : e = .none ↔ e' = .none := by
  cases h <;> simp

theorem EnteredAlike.mono {room room' m n : Nat} {e e' : Option Entered}
    (h : EnteredAlike room m n e e') (hle : room ≤ room') : EnteredAlike room' m n e e' := by
  cases h with
  | none => exact .none
  | some h =>
    obtain ⟨hbare, hsound, hfits⟩ := h
    exact .some ⟨hbare, hsound, by omega⟩

theorem Alike.map_bare {room m n : Nat} {ks ls : List Component} (h : Alike room m n ks ls) :
    ks.map Component.bare = ls.map Component.bare := by
  rw [← bareAll_eq_map, ← bareAll_eq_map, h.bare]

theorem Alike.length_eq {room m n : Nat} {ks ls : List Component} (h : Alike room m n ks ls) :
    ks.length = ls.length := by
  simpa using congrArg List.length h.map_bare

theorem Alike.commas_eq {room m n : Nat} {ks ls : List Component} (h : Alike room m n ks ls) :
    ks.countP Component.isComma = ls.countP Component.isComma := by
  simpa [List.countP_map, Function.comp_def] using congrArg
    (List.countP Component.isComma) h.map_bare

theorem Alike.all_isSpace_eq {room m n : Nat} {ks ls : List Component} (h : Alike room m n ks ls) :
    ks.all Component.isSpace = ls.all Component.isSpace := by
  simpa [List.all_map, Function.comp_def] using congrArg (List.all · Component.isSpace) h.map_bare

theorem Alike.of_sublist {room m n : Nat} {ks ls ks' ls' : List Component}
    (h : Alike room m n ks ls) (hks : ks'.Sublist ks) (hbare : bareAll ks' = bareAll ls') :
    Alike room m n ks' ls' := by
  have hle := depthAll_le_of_sublist hks
  have hsound := soundAll_iff.mp h.sound
  have hfits := h.fits
  exact ⟨hbare, soundAll_iff.mpr fun k hk => hsound k (hks.mem hk), by omega⟩

/-- Up to the next comma, and behind it, the same components stand. -/
theorem Alike.span {room m n : Nat} {ks ls : List Component} (h : Alike room m n ks ls) :
    Alike room m n (ks.span fun k => !k.isComma).1 (ls.span fun k => !k.isComma).1 ∧
      Alike room m n (ks.span fun k => !k.isComma).2 (ls.span fun k => !k.isComma).2 := by
  have hcomma : (fun k => !isComma k) ∘ Component.bare = fun k => !k.isComma := by
    funext k
    simp
  have hmap := h.map_bare
  rw [List.span_eq_takeWhile_dropWhile, List.span_eq_takeWhile_dropWhile]
  refine ⟨h.of_sublist (List.takeWhile_sublist _) ?_, h.of_sublist (List.dropWhile_sublist _) ?_⟩
  · have := congrArg (List.takeWhile fun k => !isComma k) hmap
    rwa [List.takeWhile_map, List.takeWhile_map, hcomma, ← bareAll_eq_map, ← bareAll_eq_map] at this
  · have := congrArg (List.dropWhile fun k => !isComma k) hmap
    rwa [List.dropWhile_map, List.dropWhile_map, hcomma, ← bareAll_eq_map, ← bareAll_eq_map] at this

namespace Cursor

theorem leave_rest (c : Cursor) : c.leave.rest = c.rest := by
  unfold Cursor.leave
  split <;> rfl

theorem leave_nesting (c : Cursor) : c.leave.nesting = c.nesting := by
  unfold Cursor.leave
  split <;> rfl

theorem leave_entered (c : Cursor) : c.leave.entered = none := by
  unfold Cursor.leave
  split
  · rfl
  · next h => exact h

end Cursor

namespace Reader

variable {α β : Type} {P Q R : Cursor → Cursor → Prop} {good : α → Prop} {good' : β → Prop}
  {p q : Reader α}

/-- From related cursors two readers fail together or read the same. -/
def Twin (P Q : Cursor → Cursor → Prop) (good : α → Prop) (p q : Reader α) : Prop :=
  ∀ c d, P c d →
    Agree (fun a c' d' => good a ∧ Q c' d' ∧ c'.nesting = c.nesting ∧ d'.nesting = d.nesting)
      (p c) (q d)

/-- The same components are left to both, and the same block was opened last. -/
structure Like (c d : Cursor) : Prop where
  rest : Alike 126 c.nesting d.nesting c.rest d.rest
  entered : EnteredAlike 125 c.nesting d.nesting c.entered d.entered

/-- What is left is given, and the same block was opened last. -/
structure Opened (room : Nat) (r r' : List Component) (c d : Cursor) : Prop where
  left : c.rest = r
  right : d.rest = r'
  entered : EnteredAlike room c.nesting d.nesting c.entered d.entered

/-- What is left is given, and no block is open. -/
structure Done (r r' : List Component) (c d : Cursor) : Prop where
  left : c.rest = r
  right : d.rest = r'
  leftEntered : c.entered = none
  rightEntered : d.entered = none

/-- The next component is the same for both; what is behind it is given. -/
structure Front (room : Nat) (r r' : List Component) (c d : Cursor) : Prop where
  fits : c.nesting = d.nesting ∨ c.nesting ≤ room + 2 ∧ d.nesting ≤ room + 2
  next : Agree (fun t c' d' => t.Sound ∧ (t.closer? = none → Done r r' c' d') ∧
    Opened room r r' c' d' ∧ c'.nesting = c.nesting ∧ d'.nesting = d.nesting) c.next d.next

theorem Done.opened {room : Nat} {r r' : List Component} {c d : Cursor} (h : Done r r' c d) :
    Opened room r r' c d :=
  ⟨h.left, h.right, by rw [h.leftEntered, h.rightEntered]; exact .none⟩

/-! Rules. -/

theorem Twin.mono {Q' : Cursor → Cursor → Prop} {better : α → Prop} (h : Twin P Q better p q)
    (hgood : ∀ a, better a → good a) (hQ : ∀ c d, Q c d → Q' c d) : Twin P Q' good p q := by
  intro c d hP
  refine (h c d hP).mono ?_
  rintro a c' d' ⟨ha, hc, hn⟩
  exact ⟨hgood a ha, hQ _ _ hc, hn⟩

theorem Twin.weaken {better : α → Prop} (h : Twin P Q better p q)
    (hgood : ∀ a, better a → good a) : Twin P Q good p q :=
  h.mono hgood fun _ _ => id

/-- What is read was read somewhere. -/
theorem Twin.andRead (h : Twin P Q good p q) :
    Twin P Q (fun a => good a ∧ ∃ c c', p c = .ok (a, c')) p q := by
  intro c d hP
  have hagree := h c d hP
  generalize hp : p c = x at hagree ⊢
  generalize q d = y at hagree ⊢
  cases hagree with
  | error => exact .error
  | ok h => exact .ok ⟨⟨h.1, c, _, hp⟩, h.2⟩

theorem Twin.pure {a : α} (h : good a) : Twin P P good (pure a) (pure a) :=
  fun _ _ hP => .ok ⟨h, hP, rfl, rfl⟩

theorem Twin.bind {f g : α → Reader β} (hp : Twin P Q good p q)
    (hf : ∀ a, good a → Twin Q R good' (f a) (g a)) : Twin P R good' (p >>= f) (q >>= g) := by
  intro c d hP
  change Agree _ (p c >>= fun r => f r.1 r.2) (q d >>= fun r => g r.1 r.2)
  have h := hp c d hP
  revert h
  generalize p c = x
  generalize q d = y
  intro h
  cases h with
  | error => exact .error
  | ok h =>
    obtain ⟨ha, hQ, hm, hn⟩ := h
    have := hf _ ha _ _ hQ
    rw [hm, hn] at this
    exact this

theorem Twin.map {f : α → β} (hp : Twin P Q good p q) (hf : ∀ a, good a → good' (f a)) :
    Twin P Q good' (f <$> p) (f <$> q) :=
  hp.bind fun a ha => .pure (hf a ha)

theorem Twin.failAt (l l' : Location) (cause cause' : Cause) :
    Twin P Q good (failAt l cause) (failAt l' cause') :=
  fun _ _ _ => .error

theorem Twin.fail (cause : Cause) : Twin P Q good (fail cause) (fail cause) :=
  fun _ _ _ => .error

theorem Twin.ite {b : Prop} [Decidable b] {p' q' : Reader α} (ht : b → Twin P Q good p q)
    (he : ¬ b → Twin P Q good p' q') :
    Twin P Q good (if b then p else p') (if b then q else q') := by
  split
  · next h => exact ht h
  · next h => exact he h

/-- Readers that fail under a condition. -/
theorem Twin.unlessFail {b : Prop} [Decidable b] {cause : Cause} {f g : Unit → Reader α}
    (h : ¬ b → Twin P Q good (f ()) (g ())) :
    Twin P Q good (if b then Reader.fail cause >>= f else f ())
      (if b then Reader.fail cause >>= g else g ()) :=
  .ite (fun _ _ _ _ => .error) h

theorem Twin.unlessFailAt {b : Prop} [Decidable b] {cause : Cause} {l l' : Location}
    {f g : Unit → Reader α} (h : ¬ b → Twin P Q good (f ()) (g ())) :
    Twin P Q good (if b then Reader.failAt l cause >>= f else f ())
      (if b then Reader.failAt l' cause >>= g else g ()) :=
  .ite (fun _ _ _ _ => .error) h

/-- A place only serves to report a fault. -/
theorem Twin.place {f g : Location → Reader β} (h : ∀ l l', Twin P Q good' (f l) (g l')) :
    Twin P Q good' (place >>= f) (place >>= g) :=
  fun c d hP => h c.here d.here c d hP

theorem Twin.get {f g : Cursor → Reader β} (h : ∀ c d, P c d → Twin P Q good' (f c) (g d)) :
    Twin P Q good' (get >>= f) (get >>= g) :=
  fun c d hP => h c d hP c d hP

theorem Twin.orElse {p' q' : Reader α} (hp : Twin P Q good p q) (hq : Twin P Q good p' q') :
    Twin P Q good (p <|> p') (q <|> q') := by
  intro c d hP
  change Agree _ (tryCatch (p c) fun _ => p' c) (tryCatch (q d) fun _ => q' d)
  have h := hp c d hP
  revert h
  generalize p c = x
  generalize q d = y
  intro h
  cases h with
  | error => exact hq c d hP
  | ok h => exact .ok h

theorem Twin.attempt (hp : Twin P P good p q) :
    Twin P P (fun o => ∀ a ∈ o, good a) (attempt p) (attempt q) := by
  intro c d hP
  unfold Reader.attempt
  have h := hp c d hP
  revert h
  generalize p c = x
  generalize q d = y
  intro h
  cases h with
  | error => exact .ok ⟨by simp, hP, rfl, rfl⟩
  | ok h =>
    obtain ⟨ha, hQ, hn⟩ := h
    exact .ok ⟨by simpa using ha, hQ, hn⟩

/-- Something that is looked for, and what to read in either case. -/
theorem Twin.attemptBind {f g : Option α → Reader β} (hp : Twin P P good p q)
    (hsome : ∀ a, good a → Twin P Q good' (f (some a)) (g (some a)))
    (hnone : Twin P Q good' (f none) (g none)) :
    Twin P Q good' (Reader.attempt p >>= f) (Reader.attempt q >>= g) :=
  hp.attempt.bind fun o ho => by
    cases o with
    | none => exact hnone
    | some a => exact hsome a (ho a rfl)

theorem Twin.succeeds (hp : Twin P P good p q) :
    Twin P P (fun _ => True) (succeeds p) (succeeds q) :=
  hp.attempt.bind fun _ _ => .pure trivial

/-- Something that has to be there under a condition. -/
theorem Twin.required {b : Prop} [Decidable b] {p q : Reader Unit} {f g : Unit → Reader α}
    (hp : Twin P P (fun _ => True) p q) (h : Twin P Q good (f ()) (g ())) :
    Twin P Q good (if b then p >>= f else f ()) (if b then q >>= g else g ()) :=
  .ite (fun _ => hp.bind fun _ _ => h) fun _ => h

/-- A choice by whether something was found. -/
theorem Twin.whether {p q : Reader Bool} {p' q' p'' q'' : Reader α}
    (hp : Twin P P (fun _ => True) p q) (hfound : Twin P Q good p' q')
    (helse : Twin P Q good p'' q'') :
    Twin P Q good (p >>= fun found => if found = true then p' else p'')
      (q >>= fun found => if found = true then q' else q'') :=
  hp.bind fun found _ => by
    cases found with
    | true => exact hfound
    | false => exact helse

/-- Something that is looked for only under a condition. -/
theorem Twin.whetherIf {p q : Reader Bool} {p' q' p'' q'' : Reader α} (b : Bool)
    (hp : Twin P P (fun _ => True) p q) (hfound : Twin P Q good p' q')
    (helse : Twin P Q good p'' q'') :
    Twin P Q good (if b = true then p >>= fun found => if found = true then p' else p'' else p'')
      (if b = true then q >>= fun found => if found = true then q' else q'' else q'') :=
  .ite (fun _ => hp.whether hfound helse) fun _ => helse

/-- Something that is read only under a condition. -/
theorem Twin.optional {f g : Option α → Reader β} (b : Bool) (hp : Twin P P good p q)
    (hf : ∀ o, (∀ a ∈ o, good a) → Twin P Q good' (f o) (g o)) :
    Twin P Q good'
      (if b = true then some <$> p >>= f else (Pure.pure none : Reader (Option α)) >>= f)
      (if b = true then some <$> q >>= g else (Pure.pure none : Reader (Option α)) >>= g) := by
  refine .ite (fun _ => ?_) fun _ => ?_
  · have hsome : Twin P P (fun o => ∀ a ∈ o, good a) (some <$> p) (some <$> q) :=
      hp.map fun a ha => by simpa using ha
    exact hsome.bind hf
  · have hnone : Twin P P (fun o => ∀ a ∈ o, good a) (Pure.pure none) (Pure.pure none) :=
      .pure (by simp)
    exact hnone.bind hf

/-! Cursors. -/

/-- Behind the next token the same components are left. -/
theorem nextOf_alike {m n : Nat} {ks ls : List Component} (h : Alike 126 m n ks ls)
    (place place' : Location) :
    ∃ r r', Alike 126 m n r r' ∧
      Agree (fun t c' d' => t.Sound ∧ (t.closer? = none → Done r r' c' d') ∧
        Opened 124 r r' c' d' ∧ c'.nesting = m ∧ d'.nesting = n)
        (Cursor.nextOf m place ks) (Cursor.nextOf n place' ls) := by
  induction ks generalizing ls place place' with
  | nil =>
    obtain rfl := h.nil_iff.mp rfl
    exact ⟨[], [], h, .error⟩
  | cons k ks ih =>
    cases ls with
    | nil => exact absurd (h.nil_iff.mpr rfl) (by simp)
    | cons l ls =>
      have hhead := h.head
      cases k with
      | blanks place₁ =>
        cases l <;> simp only [bare, reduceCtorEq] at hhead
        exact ih h.tail _ _
      | comment place₁ =>
        cases l <;> simp only [bare, reduceCtorEq] at hhead
        exact ih h.tail _ _
      | token t place₁ =>
        cases l <;> simp only [bare, reduceCtorEq, Component.token.injEq] at hhead
        obtain ⟨rfl, -⟩ := hhead
        obtain ⟨⟨hopen, hsound⟩, -⟩ := h.sound
        exact ⟨ks, ls, h.tail,
          .ok ⟨hsound, fun _ => ⟨rfl, rfl, rfl, rfl⟩, ⟨rfl, rfl, .none⟩, rfl, rfl⟩⟩
      | block t place₁ content stop =>
        cases l with
        | block t' place₂ content' stop' =>
          simp only [bare, Component.block.injEq] at hhead
          obtain ⟨rfl, -⟩ := hhead
          obtain ⟨⟨hopen, hsound, -⟩, -⟩ := h.sound
          refine ⟨ks, ls, h.tail,
            .ok ⟨hsound, fun hnone => ?_, ⟨rfl, rfl, .some h.content⟩, rfl, rfl⟩⟩
          rw [hnone] at hopen
          cases hopen
        | _ => simp only [bare, reduceCtorEq] at hhead

theorem Opened.mono {room room' : Nat} {r r' : List Component} {c d : Cursor}
    (h : Opened room r r' c d) (hle : room ≤ room') : Opened room' r r' c d :=
  ⟨h.left, h.right, h.entered.mono hle⟩

theorem Front.mono {room room' : Nat} {r r' : List Component} {c d : Cursor}
    (h : Front room r r' c d) (hle : room ≤ room') : Front room' r r' c d := by
  obtain ⟨hfits, hnext⟩ := h
  refine ⟨by omega, hnext.mono ?_⟩
  rintro t c' d' ⟨hsound, hdone, hopened, hn⟩
  exact ⟨hsound, hdone, hopened.mono hle, hn⟩

/-- The front of like cursors, and how to come back from it. -/
theorem Like.front {c d : Cursor} (h : Like c d) :
    ∃ r r', Front 124 r r' c d ∧ ∀ c' d', Opened 125 r r' c' d' → c'.nesting = c.nesting →
      d'.nesting = d.nesting → Like c' d' := by
  obtain ⟨hrest, hentered⟩ := h
  rw [← Cursor.leave_rest c, ← Cursor.leave_rest d] at hrest
  obtain ⟨r, r', halike, hagree⟩ := nextOf_alike hrest c.leave.here d.leave.here
  refine ⟨r, r', ⟨by have := hrest.fits; omega, hagree⟩, ?_⟩
  intro c' d' hopened hm hn
  refine ⟨?_, hopened.entered⟩
  rw [hopened.left, hopened.right, hm, hn]
  exact halike

theorem Twin.of_front (h : ∀ r r', Twin (Front 124 r r') (Opened 125 r r') good p q) :
    Twin Like Like good p q := by
  intro c d hlike
  obtain ⟨r, r', hfront, hback⟩ := hlike.front
  refine (h r r' c d hfront).mono ?_
  rintro a c' d' ⟨ha, hopened, hm, hn⟩
  exact ⟨ha, hback c' d' hopened hm hn, hm, hn⟩

theorem Twin.of_opened (h : ∀ r r', Twin (Opened 125 r r') (Opened 125 r r') good p q) :
    Twin Like Like good p q := by
  intro c d hlike
  refine (h c.rest d.rest c d ⟨rfl, rfl, hlike.entered⟩).mono ?_
  rintro a c' d' ⟨ha, hopened, hm, hn⟩
  refine ⟨ha, ⟨?_, hopened.entered⟩, hm, hn⟩
  rw [hopened.left, hopened.right, hm, hn]
  exact hlike.rest

theorem Twin.next {room : Nat} {r r' : List Component} :
    Twin (Front room r r') (Opened room r r') Token.Sound next next := by
  intro c d hfront
  refine hfront.next.mono ?_
  rintro t c' d' ⟨hsound, -, hopened, hn⟩
  exact ⟨hsound, hopened, hn⟩

theorem Twin.expect {f : Token → Option α} (hf : ∀ t a, t.Sound → f t = some a → good a)
    {room : Nat} {r r' : List Component} :
    Twin (Front room r r') (Opened room r r') good (expect f) (expect f) := by
  refine Twin.place fun l l' => Twin.next.bind fun t ht => ?_
  cases h : f t with
  | none => exact .failAt l l' _ _
  | some a => exact .pure (hf t a ht h)

/-! Blocks. -/

theorem Twin.atEnd : Twin Like Like (fun _ => True) atEnd atEnd := by
  intro c d h
  have heq : c.atEnd = d.atEnd := h.rest.all_isSpace_eq
  change Agree _ (.ok (c.atEnd, c)) (.ok (d.atEnd, d))
  rw [heq]
  exact .ok ⟨trivial, h, rfl, rfl⟩

theorem Twin.finish : Twin Like Like (fun _ => True) finish finish := by
  intro c d h
  obtain ⟨r, r', hfront, -⟩ := h.front
  have hnext := hfront.next
  unfold Reader.finish
  revert hnext
  generalize c.next = x
  generalize d.next = y
  intro hnext
  cases hnext with
  | ok => exact .error
  | error => exact .ok ⟨trivial, h, rfl, rfl⟩

theorem Twin.entirely (hp : Twin Like Like good p q) :
    Twin Like Like good (entirely p) (entirely q) :=
  hp.bind fun _ ha => Twin.finish.bind fun _ _ => .pure ha

theorem Twin.block (hp : Twin Like Like good p q) {r r' : List Component} :
    Twin (Opened 126 r r') (Done r r') good (block p) (block q) := by
  intro c d ⟨hleft, hright, hentered⟩
  unfold Reader.block
  revert hentered
  generalize hc : c.entered = x
  generalize hd : d.entered = y
  intro hentered
  cases hentered with
  | none => exact .error
  | @some e e' h =>
    have hlike : Like ⟨e.content, c.here, none, c.nesting⟩ ⟨e'.content, d.here, none, d.nesting⟩ :=
      ⟨h, .none⟩
    have hagree := hp.entirely _ _ hlike
    dsimp only
    revert hagree
    generalize Reader.entirely p _ = u
    generalize Reader.entirely q _ = v
    intro hagree
    cases hagree with
    | error => exact .error
    | ok hgood => exact .ok ⟨hgood.1, ⟨hleft, hright, rfl, rfl⟩, rfl, rfl⟩

theorem nested_of_lt (p : Reader α) {c : Cursor} (h : c.nesting < nestingLimit) :
    nested p c = (p { c with nesting := c.nesting + 1 }).map
      fun r => (r.1, { r.2 with nesting := c.nesting }) := by
  unfold nested
  rw [if_pos h]
  cases p { c with nesting := c.nesting + 1 } <;> rfl

/-- One level deeper, as long as the limit is not met. -/
theorem Twin.nested {P' Q' : Cursor → Cursor → Prop} (hp : Twin P' Q' good p q)
    (hP : ∀ c d, P c d → (c.nesting < nestingLimit ↔ d.nesting < nestingLimit) ∧
      P' { c with nesting := c.nesting + 1 } { d with nesting := d.nesting + 1 })
    (hQ : ∀ c d m n, Q' c d → Q { c with nesting := m } { d with nesting := n }) :
    Twin P Q good (nested p) (nested q) := by
  intro c d h
  obtain ⟨hlimit, hdeeper⟩ := hP c d h
  by_cases hm : c.nesting < nestingLimit
  case neg =>
    have hn : ¬ d.nesting < nestingLimit := fun hn => hm (hlimit.mpr hn)
    rw [Reader.nested, Reader.nested, if_neg hm, if_neg hn]
    exact .error
  rw [nested_of_lt p hm, nested_of_lt q (hlimit.mp hm)]
  have hagree := hp _ _ hdeeper
  revert hagree
  generalize p _ = u
  generalize q _ = v
  intro hagree
  cases hagree with
  | error => exact .error
  | ok hgood => exact .ok ⟨hgood.1, hQ _ _ _ _ hgood.2.1, rfl, rfl⟩

theorem Twin.nestedBlock (hp : Twin Like Like good p q) {r r' : List Component} :
    Twin (Opened 125 r r') (Done r r') good (Reader.nested (Reader.block p))
      (Reader.nested (Reader.block q)) := by
  intro c d h
  by_cases hc : c.entered = none
  · have hd := h.entered.none_iff.mp hc
    have herror (p : Reader α) {c : Cursor} (hc : c.entered = none) :
        ∃ e, Reader.nested (Reader.block p) c = .error e := by
      unfold Reader.nested Reader.block
      split
      · simp only [hc]
        exact ⟨_, rfl⟩
      · exact ⟨_, rfl⟩
    obtain ⟨e, he⟩ := herror p hc
    obtain ⟨e', he'⟩ := herror q hd
    rw [he, he']
    exact .error
  · have hblock : Twin (Opened 126 r r') (Done r r') good (Reader.block p) (Reader.block q) :=
      hp.block
    refine Twin.nested (P := fun c d => Opened 125 r r' c d ∧ c.entered ≠ none) hblock ?_ ?_ c d
      ⟨h, hc⟩
    · rintro c d ⟨⟨hleft, hright, hentered⟩, hne⟩
      have hfits := hentered.nesting_le hne
      refine ⟨?_, hleft, hright, hentered.deeper⟩
      simp only [nestingLimit]
      omega
    · intro c d m n hdone
      exact ⟨hdone.left, hdone.right, hdone.leftEntered, hdone.rightEntered⟩

theorem nextOf_nesting (m n : Nat) (place : Location) (ks : List Component) :
    Cursor.nextOf n place ks =
      (Cursor.nextOf m place ks).map fun r => (r.1, { r.2 with nesting := n }) := by
  induction ks generalizing place with
  | nil => rfl
  | cons k ks ih => cases k <;> first | rfl | exact ih _

theorem next_deeper (c : Cursor) :
    ({ c with nesting := c.nesting + 1 } : Cursor).next =
      c.next.map fun r => (r.1, { r.2 with nesting := c.nesting + 1 }) := by
  unfold Cursor.next
  rw [nextOf_nesting c.nesting]
  unfold Cursor.leave
  cases c.entered <;> rfl

theorem Twin.nestedFront {r r' : List Component} (hp : Twin (Front 125 r r') (Done r r') good p q) :
    Twin (Front 124 r r') (Done r r') good (Reader.nested p) (Reader.nested q) := by
  refine hp.nested ?_ ?_
  · rintro c d ⟨hfits, hnext⟩
    refine ⟨by simp only [nestingLimit]; omega, by simp only; omega, ?_⟩
    rw [next_deeper, next_deeper]
    revert hnext
    generalize c.next = x
    generalize d.next = y
    intro hnext
    cases hnext with
    | error => exact .error
    | ok h =>
      obtain ⟨hsound, hdone, hopened, hm, hn⟩ := h
      refine .ok ⟨hsound, fun ht => ?_, ?_, rfl, rfl⟩
      · obtain ⟨h₁, h₂, h₃, h₄⟩ := hdone ht
        exact ⟨h₁, h₂, h₃, h₄⟩
      · obtain ⟨h₁, h₂, hentered⟩ := hopened
        rw [hm, hn] at hentered
        exact ⟨h₁, h₂, hentered.deeper⟩
  · intro c d m n hdone
    exact ⟨hdone.left, hdone.right, hdone.leftEntered, hdone.rightEntered⟩

/-! Sequences. -/

theorem Like.leave {c d : Cursor} (h : Like c d) : Like c.leave d.leave := by
  refine ⟨?_, ?_⟩
  · rw [Cursor.leave_rest, Cursor.leave_rest, Cursor.leave_nesting, Cursor.leave_nesting]
    exact h.rest
  · rw [Cursor.leave_entered, Cursor.leave_entered]
    exact .none

theorem dropSpace_alike {m n : Nat} {ks ls : List Component} (h : Alike 126 m n ks ls)
    (place place' : Location) :
    Alike 126 m n (Cursor.dropSpace place ks).2 (Cursor.dropSpace place' ls).2 := by
  induction ks generalizing ls place place' with
  | nil =>
    obtain rfl := h.nil_iff.mp rfl
    exact h
  | cons k ks ih =>
    cases ls with
    | nil => exact absurd (h.nil_iff.mpr rfl) (by simp)
    | cons l ls =>
      have hhead := h.head
      cases k with
      | blanks place₁ | comment place₁ =>
        cases l <;> simp only [bare, reduceCtorEq] at hhead
        exact ih h.tail _ _
      | token t place₁ =>
        cases l <;> simp only [bare, reduceCtorEq] at hhead
        exact h
      | block t place₁ content stop =>
        cases l <;> simp only [bare, reduceCtorEq] at hhead
        exact h

theorem Twin.skipSpace : Twin Like Like (fun _ => True) skipSpace skipSpace := by
  intro c d h
  refine .ok ⟨trivial, ⟨?_, ?_⟩, Cursor.leave_nesting c, Cursor.leave_nesting d⟩
  · have := dropSpace_alike h.leave.rest c.leave.here d.leave.here
    exact this
  · change EnteredAlike 125 _ _ c.leave.entered d.leave.entered
    rw [Cursor.leave_entered, Cursor.leave_entered]
    exact .none

theorem Twin.untilComma (hp : Twin Like Like good p q) :
    Twin Like Like good (untilComma p) (untilComma q) := by
  intro c d h
  have hleave := h.leave
  obtain ⟨hpiece, htail⟩ := hleave.rest.span
  have hagree := hp.entirely { c.leave with rest := (c.leave.rest.span fun k => !k.isComma).1 }
    { d.leave with rest := (d.leave.rest.span fun k => !k.isComma).1 } ⟨hpiece, hleave.entered⟩
  unfold Reader.untilComma
  dsimp only
  revert hagree
  generalize Reader.entirely p _ = u
  generalize Reader.entirely q _ = v
  intro hagree
  cases hagree with
  | error => exact .error
  | ok hgood =>
    exact .ok ⟨hgood.1, ⟨htail, hleave.entered⟩, Cursor.leave_nesting c, Cursor.leave_nesting d⟩

theorem Twin.expectLike {f : Token → Option α} (hf : ∀ t a, t.Sound → f t = some a → good a) :
    Twin Like Like good (Reader.expect f) (Reader.expect f) := by
  refine .of_front fun r r' => ?_
  exact (Twin.expect hf).mono (fun _ => id) fun _ _ h => h.mono (by decide)

theorem Twin.takeComma : Twin Like Like (fun _ => True) takeComma takeComma :=
  Twin.succeeds (.expectLike fun _ _ _ _ => trivial)

theorem Twin.itemsWithin (hp : Twin Like Like good p q) (count : Nat) :
    Twin Like Like (fun as => as ≠ [] ∧ ∀ a ∈ as, good a) (itemsWithin p count)
      (itemsWithin q count) := by
  induction count with
  | zero =>
    refine Twin.skipSpace.bind fun _ _ => hp.untilComma.bind fun a ha => .pure ?_
    simpa using ha
  | succ n ih =>
    refine Twin.skipSpace.bind fun _ _ => hp.untilComma.bind fun a ha => ?_
    refine Twin.takeComma.whether (ih.bind fun as has => .pure ?_) (.pure (by simpa using ha))
    exact ⟨by simp, List.forall_mem_cons.mpr ⟨ha, has.2⟩⟩

theorem Twin.commaSeparated (hp : Twin Like Like good p q) :
    Twin Like Like (fun as => as ≠ [] ∧ ∀ a ∈ as, good a) (commaSeparated p)
      (commaSeparated q) := by
  refine Twin.get fun c d h => ?_
  rw [h.rest.commas_eq]
  exact hp.itemsWithin _

theorem Twin.manyWithin (hp : Twin Like Like good p q) (count : Nat) :
    Twin Like Like (fun as => ∀ a ∈ as, good a) (manyWithin p count) (manyWithin q count) := by
  induction count with
  | zero => exact .pure (by simp)
  | succ n ih =>
    refine hp.attempt.bind fun o ho => ?_
    cases o with
    | none => exact .pure (by simp)
    | some a => exact ih.bind fun as has => .pure (List.forall_mem_cons.mpr ⟨ho a rfl, has⟩)

theorem Twin.many (hp : Twin Like Like good p q) :
    Twin Like Like (fun as => ∀ a ∈ as, good a) (many p) (many q) := by
  refine Twin.get fun c d h => ?_
  rw [h.rest.length_eq]
  exact hp.manyWithin _

theorem Twin.untilEndWithin (hp : Twin Like Like good p q) (count : Nat) :
    Twin Like Like (fun as => ∀ a ∈ as, good a) (untilEndWithin p count)
      (untilEndWithin q count) := by
  induction count with
  | zero => exact .pure (by simp)
  | succ n ih =>
    refine Twin.atEnd.bind fun stop _ => ?_
    cases stop with
    | true => exact .pure (by simp)
    | false =>
      refine hp.bind fun a ha => ih.bind fun as has => .pure ?_
      exact List.forall_mem_cons.mpr ⟨ha, has⟩

theorem Twin.untilEnd (hp : Twin Like Like good p q) :
    Twin Like Like (fun as => ∀ a ∈ as, good a) (untilEnd p) (untilEnd q) := by
  refine Twin.get fun c d h => ?_
  rw [h.rest.length_eq]
  exact hp.untilEndWithin _

end Reader

end StyleGrammar
