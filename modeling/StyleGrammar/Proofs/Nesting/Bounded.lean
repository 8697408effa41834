import StyleGrammar.Proofs.Nesting.Levels

/-!
# Readers that keep within the limit

`Bounded free good p` says of every success of a reader that what it yields is
good, and that the components it takes have no more levels than there is room
for, where the blocks with a `free` opener do not count.  A reader that goes on
in a block that was just opened `Enters` it.
-/

namespace StyleGrammar

open Component

/-- How many levels there are below the cursor. -/
def Cursor.room (c : Cursor) : Nat := Reader.nestingLimit - c.nesting

/-- No block is open, and the components come from a text. -/
structure Cursor.Ready (c : Cursor) : Prop where
  sound : SoundAll c.rest
  entered : c.entered = none

/-- The cursor in front of a block that was just opened. -/
def Cursor.before (c : Cursor) (t : Token) (e : Entered) : Cursor :=
  { c with rest := .block t c.here e.content e.stop :: c.rest, entered := none }

@[simp] theorem Cursor.room_before (c : Cursor) (t : Token) (e : Entered) :
    (c.before t e).room = c.room := rfl

namespace Reader

/-- From one cursor to another, no more levels are taken than there is room for. -/
structure Passed (free : Token → Bool) (c c' : Cursor) : Prop where
  ready : c'.Ready
  nesting : c'.nesting = c.nesting
  taken : ∃ ks, c.rest = ks ++ c'.rest ∧ levelsAll free ks ≤ c.room

variable {α β : Type} {free : Token → Bool} {good : α → Prop} {good' : β → Prop}
  {p q : Reader α} {a : α} {c c' d : Cursor} {t : Token} {e : Entered}

theorem Passed.refl (h : c.Ready) : Passed free c c := ⟨h, rfl, [], rfl, Nat.zero_le _⟩

theorem Passed.trans (h : Passed free c d) (h' : Passed free d c') : Passed free c c' := by
  obtain ⟨-, hn, ks, hks, hle⟩ := h
  obtain ⟨hready, hn', ls, hls, hle'⟩ := h'
  refine ⟨hready, hn'.trans hn, ks ++ ls, by rw [hks, hls, List.append_assoc], ?_⟩
  rw [Cursor.room, hn] at hle'
  rw [levelsAll_append]
  exact Nat.max_le.mpr ⟨hle, hle'⟩

/-- Blanks and comments are no levels. -/
theorem Passed.space {bs : List Component} (hbs : ∀ k ∈ bs, k.isSpace = true) (hc : c.Ready)
    (hrest : c.rest = bs ++ c'.rest) (hn : c'.nesting = c.nesting) (he : c'.entered = none) :
    Passed free c c' :=
  ⟨⟨(soundAll_append.mp (hrest ▸ hc.sound)).2, he⟩, hn, bs, hrest,
    by simp [levelsAll_of_isSpace hbs]⟩

/-! The next token. -/

theorem leave_of_ready (h : c.Ready) : c.leave = c := by
  rw [Cursor.leave, h.entered]

theorem of_nextOf {n : Nat} {l : Location} {ks : List Component}
    (h : Cursor.nextOf n l ks = .ok (t, c')) :
    c'.nesting = n ∧ ∃ bs k, (∀ b ∈ bs, b.isSpace = true) ∧ ks = bs ++ k :: c'.rest ∧
      ((∃ stop, k = .token t stop) ∧ c'.entered = none ∨
        ∃ e, k = .block t c'.here e.content e.stop ∧ c'.entered = some e) := by
  have hspace (b : Component) (hb : b.isSpace = true) (ks : List Component)
      (h : ∃ bs k, (∀ b ∈ bs, b.isSpace = true) ∧ ks = bs ++ k :: c'.rest ∧
        ((∃ stop, k = .token t stop) ∧ c'.entered = none ∨
          ∃ e, k = .block t c'.here e.content e.stop ∧ c'.entered = some e)) :
      ∃ bs k, (∀ b ∈ bs, b.isSpace = true) ∧ b :: ks = bs ++ k :: c'.rest ∧
        ((∃ stop, k = .token t stop) ∧ c'.entered = none ∨
          ∃ e, k = .block t c'.here e.content e.stop ∧ c'.entered = some e) := by
    obtain ⟨bs, k, hbs, rfl, hk⟩ := h
    exact ⟨b :: bs, k, List.forall_mem_cons.mpr ⟨hb, hbs⟩, rfl, hk⟩
  induction ks generalizing l with
  | nil => cases h
  | cons k ks ih =>
    cases k with
    | blanks l' => exact (ih h).imp_right (hspace _ rfl ks)
    | comment l' => exact (ih h).imp_right (hspace _ rfl ks)
    | token t' l' =>
      cases h
      exact ⟨rfl, [], _, by simp, rfl, .inl ⟨⟨_, rfl⟩, rfl⟩⟩
    | block t' l' content stop =>
      cases h
      exact ⟨rfl, [], _, by simp, rfl, .inr ⟨⟨content, stop⟩, rfl, rfl⟩⟩

/-- What comes next opens nothing, or opens a block. -/
inductive Stepped (free : Token → Bool) (c : Cursor) (t : Token) (c' : Cursor) : Prop
  | token (ht : t.closer? = none) (h : Passed free c c')
  | opener (e : Entered) (ht : t.closer?.isSome = true) (he : c'.entered = some e)
      (h : Passed free c (c'.before t e))

theorem stepped_next (free : Token → Bool) (hc : c.Ready) (h : c.next = .ok (t, c')) :
    Stepped free c t c' := by
  rw [Cursor.next, leave_of_ready hc] at h
  obtain ⟨hn, bs, k, hbs, hrest, ⟨⟨stop, rfl⟩, he⟩ | ⟨e, rfl, he⟩⟩ := of_nextOf h
  · have hsound := (soundAll_append.mp (hrest ▸ hc.sound)).2
    have hready : (⟨.token t stop :: c'.rest, c.here, none, c.nesting⟩ : Cursor).Ready :=
      ⟨hsound, rfl⟩
    have hback : Passed free c ⟨.token t stop :: c'.rest, c.here, none, c.nesting⟩ :=
      .space hbs hc hrest rfl rfl
    refine .token hsound.1.1 (hback.trans ⟨⟨hsound.2, he⟩, hn, [.token t stop], rfl, ?_⟩)
    simp
  · have hsound := (soundAll_append.mp (hrest ▸ hc.sound)).2
    exact .opener e hsound.1.1 he (.space hbs hc hrest hn rfl)

/-! Rules. -/

/-- What a reader yields is good, and what it takes has no more levels than there is room for. -/
def Bounded (free : Token → Bool) (good : α → Prop) (p : Reader α) : Prop :=
  ∀ c a c', c.Ready → p c = .ok (a, c') → good a ∧ Passed free c c'

/-- A reader that begins in a block with the opener keeps within the limit, with the block. -/
def Enters (free : Token → Bool) (t : Token) (good : α → Prop) (p : Reader α) : Prop :=
  ∀ c e a c', c.entered = some e → (c.before t e).Ready → p c = .ok (a, c') →
    good a ∧ Passed free (c.before t e) c'

theorem Bounded.weaken {better : α → Prop} (h : Bounded free better p)
    (hgood : ∀ a, better a → good a) : Bounded free good p :=
  fun c a c' hc hp => (h c a c' hc hp).imp_left (hgood a)

theorem Bounded.pure (h : good a) : Bounded free good (pure a) := by
  intro c a' c' hc hp
  cases hp
  exact ⟨h, .refl hc⟩

theorem Bounded.fail (cause : Cause) : Bounded free good (fail cause) := by
  intro c a c' _ hp
  cases hp

theorem Bounded.failAt (l : Location) (cause : Cause) : Bounded free good (failAt l cause) := by
  intro c a c' _ hp
  cases hp

theorem Enters.fail (cause : Cause) : Enters free t good (Reader.fail cause) := by
  intro c e a c' _ _ hp
  cases hp

theorem Enters.failAt (l : Location) (cause : Cause) :
    Enters free t good (Reader.failAt l cause) := by
  intro c e a c' _ _ hp
  cases hp

theorem Bounded.bind {f : α → Reader β} (hp : Bounded free good p)
    (hf : ∀ a, good a → Bounded free good' (f a)) : Bounded free good' (p >>= f) := by
  intro c b c' hc h
  obtain ⟨a, d, ha, hb⟩ := of_bind h
  obtain ⟨hgood, hpassed⟩ := hp c a d hc ha
  exact (hf a hgood d b c' hpassed.ready hb).imp_right hpassed.trans

theorem Enters.bind {f : α → Reader β} (hp : Enters free t good p)
    (hf : ∀ a, good a → Bounded free good' (f a)) : Enters free t good' (p >>= f) := by
  intro c e b c' he hc h
  obtain ⟨a, d, ha, hb⟩ := of_bind h
  obtain ⟨hgood, hpassed⟩ := hp c e a d he hc ha
  exact (hf a hgood d b c' hpassed.ready hb).imp_right hpassed.trans

theorem Bounded.map {f : α → β} (hp : Bounded free good p) (hf : ∀ a, good a → good' (f a)) :
    Bounded free good' (f <$> p) :=
  hp.bind fun a ha => .pure (hf a ha)

theorem Enters.map {f : α → β} (hp : Enters free t good p) (hf : ∀ a, good a → good' (f a)) :
    Enters free t good' (f <$> p) :=
  hp.bind fun a ha => .pure (hf a ha)

theorem Bounded.ite {i : Prop} [Decidable i] (hp : i → Bounded free good p)
    (hq : ¬ i → Bounded free good q) : Bounded free good (if i then p else q) := by
  split
  · next h => exact hp h
  · next h => exact hq h

/-- A reader that fails under a condition. -/
theorem Bounded.unlessFail {i : Prop} [Decidable i] {cause : Cause} {f : Unit → Reader α}
    (h : Bounded free good (f ())) :
    Bounded free good (if i then Reader.fail cause >>= f else f ()) :=
  .ite (fun _ => fun c a c' _ hp => by cases hp) fun _ => h

theorem Bounded.unlessFailAt {i : Prop} [Decidable i] {l : Location} {cause : Cause}
    {f : Unit → Reader α} (h : Bounded free good (f ())) :
    Bounded free good (if i then Reader.failAt l cause >>= f else f ()) :=
  .ite (fun _ => fun c a c' _ hp => by cases hp) fun _ => h

theorem Bounded.place {f : Location → Reader α} (h : ∀ l, Bounded free good (f l)) :
    Bounded free good (place >>= f) :=
  fun c a c' hc hp => h c.here c a c' hc hp

theorem Bounded.get {f : Cursor → Reader α} (h : ∀ c, Bounded free good (f c)) :
    Bounded free good (get >>= f) :=
  fun c a c' hc hp => h c c a c' hc hp

theorem Bounded.orElse (hp : Bounded free good p) (hq : Bounded free good q) :
    Bounded free good (p <|> q) := by
  intro c a c' hc h
  rcases of_orElse h with h | h
  · exact hp c a c' hc h
  · exact hq c a c' hc h

theorem Bounded.attempt (hp : Bounded free good p) :
    Bounded free (fun a? => ∀ a ∈ a?, good a) (attempt p) := by
  intro c a? c' hc h
  rcases of_attempt h with ⟨a, rfl, hpc⟩ | ⟨rfl, rfl⟩
  · simpa using hp c a c' hc hpc
  · exact ⟨by simp, .refl hc⟩

/-- Something that is looked for, and what to read in either case. -/
theorem Bounded.attemptBind {f : Option α → Reader β} (hp : Bounded free good p)
    (hsome : ∀ a, good a → Bounded free good' (f (some a))) (hnone : Bounded free good' (f none)) :
    Bounded free good' (Reader.attempt p >>= f) :=
  hp.attempt.bind fun a? ha => by
    cases a? with
    | none => exact hnone
    | some a => exact hsome a (ha a rfl)

theorem Bounded.succeeds (hp : Bounded free good p) :
    Bounded free (fun _ => True) (succeeds p) :=
  hp.attempt.bind fun _ _ => .pure trivial

/-- A choice by whether something was found. -/
theorem Bounded.whether {p : Reader Bool} {q q' : Reader α} (hp : Bounded free (fun _ => True) p)
    (hfound : Bounded free good q) (helse : Bounded free good q') :
    Bounded free good (p >>= fun found => if found = true then q else q') :=
  hp.bind fun _ _ => .ite (fun _ => hfound) fun _ => helse

/-- Something that is looked for only under a condition. -/
theorem Bounded.whetherIf {p : Reader Bool} {q q' : Reader α} (b : Bool)
    (hp : Bounded free (fun _ => True) p) (hfound : Bounded free good q)
    (helse : Bounded free good q') :
    Bounded free good
      (if b = true then p >>= fun found => if found = true then q else q' else q') :=
  .ite (fun _ => hp.whether hfound helse) fun _ => helse

/-- One of two readers, and what follows either. -/
theorem Bounded.either {i : Prop} [Decidable i] {f : α → Reader β} (hp : Bounded free good p)
    (hq : Bounded free good q) (hf : ∀ a, good a → Bounded free good' (f a)) :
    Bounded free good' (if i then p >>= f else q >>= f) :=
  .ite (fun _ => hp.bind hf) fun _ => hq.bind hf

/-- Something that is read only under a condition. -/
theorem Bounded.optional {f : Option α → Reader β} (b : Bool) (hp : Bounded free good p)
    (hf : ∀ a?, (∀ a ∈ a?, good a) → Bounded free good' (f a?)) :
    Bounded free good'
      (if b = true then some <$> p >>= f else (Pure.pure none : Reader (Option α)) >>= f) :=
  .either (hp.map fun a ha => by simpa using ha) (.pure (by simp)) hf

/-! Tokens. -/

/-- A reader that goes by the next token: one that opens nothing, or the opener of a block. -/
theorem Bounded.next {f : Token → Reader α}
    (htoken : ∀ t, t.closer? = none → Bounded free good (f t))
    (hopener : ∀ t, t.closer?.isSome = true → Enters free t good (f t)) :
    Bounded free good (Reader.next >>= f) := by
  intro c a c' hc h
  obtain ⟨t, d, hnext, hf⟩ := of_bind h
  cases stepped_next free hc hnext with
  | token ht hpassed =>
    exact (htoken t ht d a c' hpassed.ready hf).imp_right hpassed.trans
  | opener e ht he hpassed =>
    exact (hopener t ht d e a c' he hpassed.ready hf).imp_right hpassed.trans

/-- Behind an expected token that opens nothing. -/
theorem Bounded.expect {f : Token → Option α}
    (hf : ∀ t a, f t = some a → t.closer? = none ∧ good a) :
    Bounded free good (expect f) := by
  intro c a c' hc h
  obtain ⟨t, hnext, ht⟩ := of_expect h
  obtain ⟨hopen, hgood⟩ := hf t a ht
  cases stepped_next free hc hnext with
  | token _ hpassed => exact ⟨hgood, hpassed⟩
  | opener e hsome =>
    rw [hopen] at hsome
    cases hsome

/-- Behind an expected opener. -/
theorem Bounded.expectOpener {f : Token → Option α} {g : α → Reader β}
    (hf : ∀ t a, f t = some a → t.closer?.isSome = true)
    (hg : ∀ t a, f t = some a → Enters free t good' (g a)) :
    Bounded free good' (Reader.expect f >>= g) := by
  intro c b c' hc h
  obtain ⟨a, d, hexpect, hga⟩ := of_bind h
  obtain ⟨t, hnext, ht⟩ := of_expect hexpect
  cases stepped_next free hc hnext with
  | token hnone =>
    have hsome := hf t a ht
    rw [hnone] at hsome
    cases hsome
  | opener e _ he hpassed =>
    exact (hg t a ht d e b c' he hpassed.ready hga).imp_right hpassed.trans

/-- A bracket that is looked for, and what to read in it or else. -/
theorem Bounded.whetherOpener {f : Token → Option Unit}
    (hf : ∀ t a, f t = some a → t.closer?.isSome = true)
    (hp : ∀ t a, f t = some a → Enters free t good p) (hq : Bounded free good q) :
    Bounded free good
      (Reader.succeeds (Reader.expect f) >>= fun found => if found = true then p else q) := by
  intro c a c' hc h
  obtain ⟨found, d, hfound, hrun⟩ := of_bind h
  rcases of_succeeds hfound with ⟨rfl, u, hexpect⟩ | ⟨rfl, rfl, -⟩
  · have hboth : Bounded free good (Reader.expect f >>= fun _ => p) := .expectOpener hf hp
    refine hboth c a c' hc ?_
    change (Reader.expect f c >>= fun r => p r.2) = _
    rw [hexpect]
    exact hrun
  · exact hq d a c' hc hrun

/-! Blocks. -/

/-- Reading all of a text bounds its levels. -/
theorem Bounded.of_entirely (hp : Bounded free good p) (hc : c.Ready)
    (h : entirely p c = .ok (a, d)) : good a ∧ levelsAll free c.rest ≤ c.room := by
  obtain ⟨hpc, e, hend⟩ := Reader.of_entirely h
  obtain ⟨hgood, hready, hn, ks, hks, hle⟩ := hp c a d hc hpc
  have hspace : ∀ k ∈ d.rest, k.isSpace = true := by
    rw [Cursor.next, leave_of_ready hready] at hend
    generalize d.here = l, d.rest = ks at hend
    induction ks generalizing l with
    | nil => simp
    | cons k ks ih =>
      cases k with
      | blanks l' | comment l' => exact List.forall_mem_cons.mpr ⟨rfl, ih l' hend⟩
      | token | block => cases hend
  refine ⟨hgood, ?_⟩
  rw [hks, levelsAll_append, levelsAll_of_isSpace hspace]
  simpa using hle

theorem levels_before_le {n : Nat} (h : levelsAll (uncounted t) e.content + n ≤ c.room)
    (ht : (if free t then 0 else 1) ≤ n) :
    levelsAll free [.block t c.here e.content e.stop] ≤ c.room := by
  simp only [levelsAll_cons, levelsAll_nil, levels_block, Nat.max_zero]
  omega

/-- The content of a block that does not count. -/
theorem Bounded.block (hp : Bounded (uncounted t) good p) (ht : free t = true) :
    Enters free t good (block p) := by
  intro c e a c' he hc h
  obtain ⟨e', d, he', hrun, rfl⟩ := of_block h
  rw [he] at he'
  cases he'
  obtain ⟨hblock, hrest⟩ := hc.sound
  obtain ⟨hgood, hle⟩ := hp.of_entirely ⟨hblock.2.2, rfl⟩ hrun
  exact ⟨hgood, ⟨hrest, rfl⟩, rfl, _, rfl, levels_before_le (n := 0) hle (by simp [ht])⟩

/-- The content of a block one level deeper. -/
theorem Bounded.nestedBlock (hp : Bounded (uncounted t) good p) :
    Enters free t good (nested (Reader.block p)) := by
  intro c e a c' he hc h
  obtain ⟨hlt, d, hrun, rfl⟩ := of_nested_deeper h
  obtain ⟨e', d', he', hrun', rfl⟩ := of_block hrun
  rw [he] at he'
  cases he'
  obtain ⟨hblock, hrest⟩ := hc.sound
  obtain ⟨hgood, hle⟩ := hp.of_entirely ⟨hblock.2.2, rfl⟩ hrun'
  refine ⟨hgood, ⟨hrest, rfl⟩, rfl, _, rfl, levels_before_le (n := 1) ?_ (by split <;> omega)⟩
  rw [Cursor.room_before]
  simp only [Cursor.room] at hle ⊢
  omega

/-- One level deeper all blocks at the front are paid for. -/
theorem Bounded.nested (hp : Bounded (fun _ => true) good p) : Bounded free good (nested p) := by
  intro c a c' hc h
  obtain ⟨hlt, d, hrun, rfl⟩ := of_nested_deeper h
  have hdeeper : ({ c with nesting := c.nesting + 1 } : Cursor).Ready := ⟨hc.sound, hc.entered⟩
  obtain ⟨hgood, hready, -, ks, hks, hle⟩ := hp _ a d hdeeper hrun
  refine ⟨hgood, ⟨hready.sound, hready.entered⟩, rfl, ks, hks, ?_⟩
  have hsucc : levelsAll free ks ≤ levelsAll (fun _ => true) ks + 1 := levelsAll_le_succ ks
  simp only [Cursor.room] at hle ⊢
  omega

/-- A function, from its name on. -/
theorem Bounded.functionNamed {name : String} {f : Unit → Reader α}
    (hf : ∀ n, sameName n name = true → Enters free (.function n) good (f ())) :
    Bounded free good (functionNamed name >>= f) := by
  intro c a c' hc h
  obtain ⟨u, d, hname, hrun⟩ := of_bind h
  obtain ⟨-, d', hnext, n, rfl, hn⟩ := Wants.functionNamed name c _ hname
  obtain ⟨t, hnext', -⟩ := of_expect hname
  rw [hnext] at hnext'
  cases hnext'
  cases stepped_next free hc hnext with
  | token hnone => cases hnone
  | opener e _ he hpassed =>
    exact (hf n hn d e a c' he hpassed.ready hrun).imp_right hpassed.trans

/-- A function that is paid for, and the reader of its content. -/
theorem Bounded.call (name : String) (hp : ∀ free, Bounded free good p) :
    Bounded (fun _ => true) good (Reader.functionNamed name >>= fun _ => Reader.block p) :=
  .functionNamed fun _ _ => (hp _).block rfl

/-! Several items. -/

theorem Bounded.skipSpace : Bounded free (fun _ => True) skipSpace := by
  intro c u c' hc h
  cases h
  refine ⟨trivial, ?_⟩
  rw [Cursor.skipSpace, leave_of_ready hc]
  have hdrop (l : Location) (ks : List Component) :
      ∃ bs, (∀ b ∈ bs, b.isSpace = true) ∧ ks = bs ++ (Cursor.dropSpace l ks).2 := by
    induction ks generalizing l with
    | nil => exact ⟨[], by simp, rfl⟩
    | cons k ks ih =>
      cases k with
      | blanks l' | comment l' =>
        obtain ⟨bs, hbs, hks⟩ := ih l'
        exact ⟨_ :: bs, List.forall_mem_cons.mpr ⟨rfl, hbs⟩, congrArg (_ :: ·) hks⟩
      | token | block => exact ⟨[], by simp, rfl⟩
  obtain ⟨bs, hbs, hrest⟩ := hdrop c.here c.rest
  exact .space hbs hc hrest rfl hc.entered

theorem Bounded.atEnd : Bounded free (fun _ => True) atEnd := .get fun _ => .pure trivial

theorem Bounded.untilComma (hp : Bounded free good p) : Bounded free good (untilComma p) := by
  intro c a c' hc h
  unfold Reader.untilComma at h
  rw [leave_of_ready hc] at h
  dsimp only at h
  rw [List.span_eq_takeWhile_dropWhile] at h
  dsimp only at h
  cases hrun : Reader.entirely p { c with rest := c.rest.takeWhile fun k => !k.isComma } with
  | error e =>
    rw [hrun] at h
    cases h
  | ok x =>
    rw [hrun] at h
    cases h
    have hsplit := (List.takeWhile_append_dropWhile (p := fun k : Component => !k.isComma)
      (l := c.rest)).symm
    obtain ⟨hpiece, htail⟩ := soundAll_append.mp (hsplit ▸ hc.sound)
    have hready : ({ c with rest := c.rest.takeWhile fun k => !k.isComma } : Cursor).Ready :=
      ⟨hpiece, hc.entered⟩
    obtain ⟨hgood, hle⟩ := hp.of_entirely hready hrun
    exact ⟨hgood, ⟨htail, hc.entered⟩, rfl, _, hsplit, hle⟩

theorem Bounded.comma : Bounded free (fun _ => True) comma :=
  .expect fun t a h => by
    split at h
    · next ht => exact ⟨ht ▸ rfl, trivial⟩
    · cases h

theorem Bounded.takeComma : Bounded free (fun _ => True) takeComma := Bounded.comma.succeeds

theorem Bounded.itemsWithin (hp : Bounded free good p) (count : Nat) :
    Bounded free (fun as => ∀ a ∈ as, good a) (itemsWithin p count) := by
  induction count with
  | zero =>
    exact Bounded.skipSpace.bind fun _ _ => hp.untilComma.bind fun a ha => .pure (by simpa using ha)
  | succ n ih =>
    refine Bounded.skipSpace.bind fun _ _ => hp.untilComma.bind fun a ha => ?_
    refine Bounded.takeComma.whether (ih.bind fun as has => .pure ?_) (.pure (by simpa using ha))
    exact List.forall_mem_cons.mpr ⟨ha, has⟩

theorem Bounded.commaSeparated (hp : Bounded free good p) :
    Bounded free (fun as => ∀ a ∈ as, good a) (commaSeparated p) :=
  .get fun _ => hp.itemsWithin _

theorem Bounded.manyWithin (hp : Bounded free good p) (count : Nat) :
    Bounded free (fun as => ∀ a ∈ as, good a) (manyWithin p count) := by
  induction count with
  | zero => exact .pure (by simp)
  | succ n ih =>
    refine hp.attemptBind (fun a ha => ih.bind fun as has => .pure ?_) (.pure (by simp))
    exact List.forall_mem_cons.mpr ⟨ha, has⟩

theorem Bounded.many (hp : Bounded free good p) :
    Bounded free (fun as => ∀ a ∈ as, good a) (many p) :=
  .get fun _ => hp.manyWithin _

theorem Bounded.untilEndWithin (hp : Bounded free good p) (count : Nat) :
    Bounded free (fun as => ∀ a ∈ as, good a) (untilEndWithin p count) := by
  induction count with
  | zero => exact .pure (by simp)
  | succ n ih =>
    refine Bounded.atEnd.whether (.pure (by simp))
      (hp.bind fun a ha => ih.bind fun as has => .pure ?_)
    exact List.forall_mem_cons.mpr ⟨ha, has⟩

theorem Bounded.untilEnd (hp : Bounded free good p) :
    Bounded free (fun as => ∀ a ∈ as, good a) (untilEnd p) :=
  .get fun _ => hp.untilEndWithin _

/-- What a whole text is read as is good, and the text has no more levels than the limit. -/
theorem Bounded.of_run (hp : Bounded free good p) {s : String} (h : p.run s = .ok a) :
    good a ∧ levelsAll free (ofText s.toList) ≤ nestingLimit := by
  obtain ⟨d, hrun⟩ := Reader.of_run h
  exact hp.of_entirely ⟨soundAll_ofText s.toList, rfl⟩ hrun

end Reader

end StyleGrammar
