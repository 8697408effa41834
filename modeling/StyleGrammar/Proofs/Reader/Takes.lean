import Mathlib.Data.List.TakeWhile
import StyleGrammar.Proofs.Reader.Twin

/-!
# What a reader takes

`Takes P Q a p` says that from every cursor in `P` the reader `p` succeeds with
`a` and leaves a cursor in `Q`; `Fails P p` that it fails.  Where a cursor is, is
said by the components left to it, without their places: it *stands* at them,
has them *ahead* if blanks do not count, or has just opened a block.
-/

namespace StyleGrammar

open Component

namespace Component

/-- Components without the blanks and comments at their front. -/
def skip (ks : List Component) : List Component := ks.dropWhile isSpace

@[simp] theorem skip_nil : skip [] = [] := rfl

@[simp] theorem skip_blanks (l : Location) (ks : List Component) :
    skip (.blanks l :: ks) = skip ks :=
  rfl

@[simp] theorem skip_token (t : Token) (l : Location) (ks : List Component) :
    skip (.token t l :: ks) = .token t l :: ks :=
  rfl

@[simp] theorem skip_block (t : Token) (l l' : Location) (content ks : List Component) :
    skip (.block t l content l' :: ks) = .block t l content l' :: ks :=
  rfl

theorem skip_cons {k : Component} (h : k.isSpace = false) (ks : List Component) :
    skip (k :: ks) = k :: ks := by
  simp [skip, h]

@[simp] theorem skip_skip (ks : List Component) : skip (skip ks) = skip ks := by
  induction ks with
  | nil => rfl
  | cons k ks ih =>
    cases h : k.isSpace with
    | true => simpa [skip, h] using ih
    | false => simp [skip, h]

theorem bareAll_dropSpace (place : Location) (ks : List Component) :
    bareAll (Cursor.dropSpace place ks).2 = skip (bareAll ks) := by
  induction ks generalizing place with
  | nil => rfl
  | cons k ks ih =>
    cases k with
    | blanks | comment => exact ih _
    | token | block => rfl

theorem nextOf_dropSpace (n : Nat) (place : Location) (ks : List Component) :
    Cursor.nextOf n place ks =
      Cursor.nextOf n (Cursor.dropSpace place ks).1 (Cursor.dropSpace place ks).2 := by
  induction ks generalizing place with
  | nil => rfl
  | cons k ks ih =>
    cases k with
    | blanks | comment => exact ih _
    | token | block => rfl

end Component

namespace Reader

/-- The components left, and the nesting around them. -/
structure Stand (n : Nat) (ks : List Component) (c : Cursor) : Prop where
  rest : bareAll c.rest = ks
  nesting : c.nesting = n

/-- The components left behind blanks and comments. -/
structure Ahead (n : Nat) (ks : List Component) (c : Cursor) : Prop where
  rest : skip (bareAll c.rest) = skip ks
  nesting : c.nesting = n

/-- A block that was just opened, and the components behind it. -/
structure Inside (n : Nat) (content ks : List Component) (c : Cursor) : Prop where
  rest : bareAll c.rest = ks
  nesting : c.nesting = n
  entered : ∃ e, c.entered = some e ∧ bareAll e.content = content

variable {α β : Type} {P Q R : Cursor → Prop} {a : α} {b : β} {p : Reader α} {n : Nat}
  {ks ls : List Component} {c : Cursor}

theorem Stand.ahead (h : Stand n ks c) : Ahead n ks c := ⟨by rw [h.rest], h.nesting⟩

/-- Blanks at the front do not count. -/
theorem Ahead.of_skip (h : Ahead n ks c) (heq : skip ks = skip ls) : Ahead n ls c :=
  ⟨h.rest.trans heq, h.nesting⟩

/-- From every cursor in `P` the reader succeeds with `a`, and leaves one in `Q`. -/
def Takes (P Q : Cursor → Prop) (a : α) (p : Reader α) : Prop :=
  ∀ c, P c → ∃ c', p c = .ok (a, c') ∧ Q c'

/-- From every cursor in `P` the reader fails. -/
def Fails (P : Cursor → Prop) (p : Reader α) : Prop :=
  ∀ c, P c → ∃ e, p c = .error e

/-! Rules. -/

theorem Takes.before {P' : Cursor → Prop} (h : Takes P' Q a p) (hP : ∀ c, P c → P' c) :
    Takes P Q a p :=
  fun c hc => h c (hP c hc)

theorem Takes.after {Q' : Cursor → Prop} (h : Takes P Q' a p) (hQ : ∀ c, Q' c → Q c) :
    Takes P Q a p := by
  intro c hc
  obtain ⟨c', hp, hc'⟩ := h c hc
  exact ⟨c', hp, hQ c' hc'⟩

theorem Fails.before {P' : Cursor → Prop} (h : Fails P' p) (hP : ∀ c, P c → P' c) : Fails P p :=
  fun c hc => h c (hP c hc)

theorem Takes.pure (a : α) : Takes P P a (pure a) := fun c hc => ⟨c, rfl, hc⟩

theorem Takes.bind {f : α → Reader β} (hp : Takes P Q a p) (hf : Takes Q R b (f a)) :
    Takes P R b (p >>= f) := by
  intro c hc
  obtain ⟨c', hpc, hc'⟩ := hp c hc
  obtain ⟨c'', hfc, hc''⟩ := hf c' hc'
  refine ⟨c'', ?_, hc''⟩
  change (p c >>= fun r => f r.1 r.2) = _
  rw [hpc]
  exact hfc

theorem Fails.bind {f : α → Reader β} (hp : Fails P p) : Fails P (p >>= f) := by
  intro c hc
  obtain ⟨e, he⟩ := hp c hc
  refine ⟨e, ?_⟩
  change (p c >>= fun r => f r.1 r.2) = _
  rw [he]
  rfl

theorem Takes.bindFails {f : α → Reader β} (hp : Takes P Q a p)
    (hf : Fails Q (f a)) : Fails P (p >>= f) := by
  intro c hc
  obtain ⟨c', hpc, hc'⟩ := hp c hc
  obtain ⟨e, he⟩ := hf c' hc'
  refine ⟨e, ?_⟩
  change (p c >>= fun r => f r.1 r.2) = _
  rw [hpc]
  exact he

theorem Takes.map (f : α → β) (hp : Takes P Q a p) : Takes P Q (f a) (f <$> p) :=
  show Takes P Q (f a) (p >>= fun x => Pure.pure (f x)) from hp.bind (.pure (f a))

theorem Fails.map (f : α → β) (hp : Fails P p) : Fails P (f <$> p) :=
  show Fails P (p >>= fun x => Pure.pure (f x)) from hp.bind

theorem Takes.get {f : Cursor → Reader β} (h : ∀ c, P c → Takes P Q b (f c)) :
    Takes P Q b (get >>= f) :=
  fun c hc => h c hc c hc

theorem Fails.get {f : Cursor → Reader α} (h : ∀ c, P c → Fails P (f c)) :
    Fails P (get >>= f) :=
  fun c hc => h c hc c hc

theorem Takes.place {f : Location → Reader β} (h : ∀ l, Takes P Q b (f l)) :
    Takes P Q b (place >>= f) :=
  fun c hc => h c.here c hc

theorem Takes.attempt (hp : Takes P Q a p) : Takes P Q (some a) (attempt p) := by
  intro c hc
  obtain ⟨c', hpc, hc'⟩ := hp c hc
  exact ⟨c', by rw [Reader.attempt, hpc], hc'⟩

theorem Fails.attempt (hp : Fails P p) : Takes P P none (attempt p) := by
  intro c hc
  obtain ⟨e, he⟩ := hp c hc
  exact ⟨c, by rw [Reader.attempt, he], hc⟩

theorem Takes.succeeds (hp : Takes P Q a p) : Takes P Q true (succeeds p) :=
  hp.attempt.bind (.pure true)

theorem Fails.succeeds (hp : Fails P p) : Takes P P false (succeeds p) :=
  hp.attempt.bind (.pure false)

theorem Takes.orElse {q : Reader α} (hp : Takes P Q a p) : Takes P Q a (p <|> q) := by
  intro c hc
  obtain ⟨c', hpc, hc'⟩ := hp c hc
  refine ⟨c', ?_, hc'⟩
  change tryCatch (p c) (fun _ => q c) = _
  rw [hpc]
  rfl

theorem Fails.orElse {q : Reader α} (hp : Fails P p) (hq : Takes P Q a q) :
    Takes P Q a (p <|> q) := by
  intro c hc
  obtain ⟨e, he⟩ := hp c hc
  obtain ⟨c', hqc, hc'⟩ := hq c hc
  refine ⟨c', ?_, hc'⟩
  change tryCatch (p c) (fun _ => q c) = _
  rw [he]
  exact hqc

theorem Fails.orElseFails {q : Reader α} (hp : Fails P p) (hq : Fails P q) : Fails P (p <|> q) := by
  intro c hc
  obtain ⟨e, he⟩ := hp c hc
  obtain ⟨e', he'⟩ := hq c hc
  refine ⟨e', ?_⟩
  change tryCatch (p c) (fun _ => q c) = _
  rw [he]
  exact he'

/-! What a success says. -/

theorem of_bind {f : α → Reader β} {c'' : Cursor} (h : (p >>= f) c = .ok (b, c'')) :
    ∃ a c', p c = .ok (a, c') ∧ f a c' = .ok (b, c'') := by
  change (p c >>= fun r => f r.1 r.2) = _ at h
  cases hp : p c with
  | error e =>
    rw [hp] at h
    cases h
  | ok x =>
    rw [hp] at h
    exact ⟨x.1, x.2, rfl, h⟩

theorem of_map {f : α → β} {c' : Cursor} (h : (f <$> p) c = .ok (b, c')) :
    ∃ a, p c = .ok (a, c') ∧ b = f a := by
  obtain ⟨a, c'', hp, hpure⟩ :=
    of_bind (p := p) (f := fun a => (Pure.pure (f a) : Reader β)) h
  cases hpure
  exact ⟨a, hp, rfl⟩

theorem of_nested {c' : Cursor} (h : nested p c = .ok (a, c')) : ∃ d d', p d = .ok (a, d') := by
  by_cases hlt : c.nesting < nestingLimit
  · rw [nested_of_lt p hlt] at h
    cases hp : p { c with nesting := c.nesting + 1 } with
    | error e =>
      rw [hp] at h
      cases h
    | ok x =>
      rw [hp] at h
      cases h
      exact ⟨_, _, hp⟩
  · rw [nested, if_neg hlt] at h
    cases h

theorem of_succeeds {found : Bool} {c' : Cursor} (h : succeeds p c = .ok (found, c')) :
    (found = true ∧ ∃ a, p c = .ok (a, c')) ∨ (found = false ∧ c' = c ∧ ∃ e, p c = .error e) := by
  obtain ⟨o, c'', ho, hpure⟩ := of_bind h
  cases hpure
  unfold Reader.attempt at ho
  cases hp : p c with
  | ok x =>
    rw [hp] at ho
    cases ho
    exact .inl ⟨rfl, x.1, rfl⟩
  | error e =>
    rw [hp] at ho
    cases ho
    exact .inr ⟨rfl, rfl, e, rfl⟩

/-! The next token. -/

theorem next_eq_dropSpace (c : Cursor) :
    c.next = Cursor.nextOf c.nesting (Cursor.dropSpace c.leave.here c.rest).1
      (Cursor.dropSpace c.leave.here c.rest).2 := by
  rw [Cursor.next, Cursor.leave_rest, nextOf_dropSpace]

theorem next_token {t : Token} (h : Ahead n (.token t .start :: ks) c) :
    ∃ c', c.next = .ok (t, c') ∧ Stand n ks c' ∧ c'.entered = none := by
  have hrest := (bareAll_dropSpace c.leave.here c.rest).trans h.rest
  rw [next_eq_dropSpace]
  generalize (Cursor.dropSpace c.leave.here c.rest).1 = place
  generalize (Cursor.dropSpace c.leave.here c.rest).2 = r at hrest
  cases r with
  | nil => cases hrest
  | cons k r =>
    obtain ⟨hk, hr⟩ := List.cons.inj hrest
    cases k <;> cases hk
    exact ⟨_, rfl, ⟨hr, h.nesting⟩, rfl⟩

theorem next_block {t : Token} {content : List Component}
    (h : Ahead n (.block t .start content .start :: ks) c) :
    ∃ c', c.next = .ok (t, c') ∧ Inside n content ks c' := by
  have hrest := (bareAll_dropSpace c.leave.here c.rest).trans h.rest
  rw [next_eq_dropSpace]
  generalize (Cursor.dropSpace c.leave.here c.rest).1 = place
  generalize (Cursor.dropSpace c.leave.here c.rest).2 = r at hrest
  cases r with
  | nil => cases hrest
  | cons k r =>
    obtain ⟨hk, hr⟩ := List.cons.inj hrest
    cases k <;> cases hk
    exact ⟨_, rfl, hr, h.nesting, _, rfl, rfl⟩

theorem next_end (h : Ahead n [] c) : ∃ e, c.next = .error e := by
  have hrest := (bareAll_dropSpace c.leave.here c.rest).trans h.rest
  rw [next_eq_dropSpace]
  generalize (Cursor.dropSpace c.leave.here c.rest).1 = place
  generalize (Cursor.dropSpace c.leave.here c.rest).2 = r at hrest
  cases r with
  | nil => exact ⟨_, rfl⟩
  | cons k r => cases hrest

theorem expect_of_next {f : Token → Option α} {t : Token} {c' : Cursor}
    (hc : c.next = .ok (t, c')) :
    Reader.expect f c =
      match f t with
      | some a => .ok (a, c')
      | none => .error ⟨.unexpectedToken t, c.here⟩ := by
  change (c.next >>= fun r => (match f r.1 with
    | some a => (Pure.pure a : Reader α)
    | none => Reader.failAt c.here (.unexpectedToken r.1)) r.2) = _
  rw [hc]
  cases h : f t with
  | some a =>
    change (match f t with
      | some a => (Pure.pure a : Reader α)
      | none => Reader.failAt c.here (.unexpectedToken t)) c' = _
    rw [h]
    rfl
  | none =>
    change (match f t with
      | some a => (Pure.pure a : Reader α)
      | none => Reader.failAt c.here (.unexpectedToken t)) c' = _
    rw [h]
    rfl

theorem of_expect {f : Token → Option α} {c' : Cursor} (h : expect f c = .ok (a, c')) :
    ∃ t, c.next = .ok (t, c') ∧ f t = some a := by
  cases hnext : c.next with
  | error e =>
    change (c.next >>= fun r => _) = _ at h
    rw [hnext] at h
    cases h
  | ok x =>
    rw [expect_of_next hnext] at h
    cases hf : f x.1 with
    | none =>
      rw [hf] at h
      cases h
    | some b =>
      rw [hf] at h
      cases h
      exact ⟨x.1, rfl, hf⟩

theorem takes_token {f : Token → Option α} {t : Token} (hf : f t = some a) :
    Takes (Ahead n (.token t .start :: ks)) (Stand n ks) a (expect f) := by
  intro c hc
  obtain ⟨c', hnext, hc', -⟩ := next_token hc
  exact ⟨c', by rw [expect_of_next hnext, hf], hc'⟩

theorem takes_next (t : Token) :
    Takes (Ahead n (.token t .start :: ks)) (Stand n ks) t Reader.next := by
  intro c hc
  obtain ⟨c', hnext, hc', -⟩ := next_token hc
  exact ⟨c', hnext, hc'⟩

theorem takes_opener {f : Token → Option α} {t : Token} {content : List Component}
    (hf : f t = some a) :
    Takes (Ahead n (.block t .start content .start :: ks)) (Inside n content ks) a (expect f) := by
  intro c hc
  obtain ⟨c', hnext, hc'⟩ := next_block hc
  exact ⟨c', by rw [expect_of_next hnext, hf], hc'⟩

theorem fails_token {f : Token → Option α} {t : Token} (hf : f t = none) :
    Fails (Ahead n (.token t .start :: ks)) (expect f) := by
  intro c hc
  obtain ⟨c', hnext, -, -⟩ := next_token hc
  exact ⟨_, by rw [expect_of_next hnext, hf]⟩

theorem fails_opener {f : Token → Option α} {t : Token} {content : List Component}
    (hf : f t = none) :
    Fails (Ahead n (.block t .start content .start :: ks)) (expect f) := by
  intro c hc
  obtain ⟨c', hnext, -⟩ := next_block hc
  exact ⟨_, by rw [expect_of_next hnext, hf]⟩

theorem fails_end {f : Token → Option α} : Fails (Ahead n []) (expect f) := by
  intro c hc
  obtain ⟨e, he⟩ := next_end hc
  refine ⟨e, ?_⟩
  change (c.next >>= fun r => _) = _
  rw [he]
  rfl

/-! Blocks. -/

theorem Takes.entirely (hp : Takes P (Ahead n []) a p) : Takes P (Ahead n []) a (entirely p) := by
  have hfinish : Takes (Ahead n []) (Ahead n []) () finish := fun c hc => by
    obtain ⟨e, he⟩ := next_end hc
    exact ⟨c, by rw [Reader.finish, he], hc⟩
  exact hp.bind (hfinish.bind (.pure a))

theorem Takes.block {content : List Component} (hp : Takes (Stand n content) (Ahead n []) a p) :
    Takes (Inside n content ks) (Stand n ks) a (block p) := by
  intro c hc
  obtain ⟨e, he, hcontent⟩ := hc.entered
  obtain ⟨c', hpc, -⟩ := hp.entirely ⟨e.content, c.here, none, c.nesting⟩ ⟨hcontent, hc.nesting⟩
  refine ⟨{ c with here := e.stop, entered := none }, ?_, hc.rest, hc.nesting⟩
  rw [Reader.block, he]
  dsimp only
  rw [hpc]
  rfl

theorem Fails.block {content : List Component} (hp : Fails (Stand n content) p) :
    Fails (Inside n content ks) (block p) := by
  intro c hc
  obtain ⟨e, he, hcontent⟩ := hc.entered
  obtain ⟨fault, hpc⟩ := (show Fails (Stand n content) (entirely p) from hp.bind)
    ⟨e.content, c.here, none, c.nesting⟩ ⟨hcontent, hc.nesting⟩
  refine ⟨fault, ?_⟩
  rw [Reader.block, he]
  dsimp only
  rw [hpc]
  rfl

/-- One level deeper, below the limit. -/
theorem Takes.nested {P' Q' : Cursor → Prop} (hp : Takes P' Q' a p)
    (hP : ∀ c, P c → c.nesting < nestingLimit ∧ P' { c with nesting := c.nesting + 1 })
    (hQ : ∀ c c', P c → Q' c' → Q { c' with nesting := c.nesting }) : Takes P Q a (nested p) := by
  intro c hc
  obtain ⟨hlt, hc'⟩ := hP c hc
  obtain ⟨c', hpc, hQ'⟩ := hp _ hc'
  refine ⟨{ c' with nesting := c.nesting }, ?_, hQ c c' hc hQ'⟩
  rw [nested_of_lt p hlt, hpc]
  rfl

theorem Takes.nestedBlock {content : List Component} (hn : n < nestingLimit)
    (hp : Takes (Stand (n + 1) content) (Ahead (n + 1) []) a p) :
    Takes (Inside n content ks) (Stand n ks) a (Reader.nested (Reader.block p)) := by
  have hblock : Takes (Inside (n + 1) content ks) (Stand (n + 1) ks) a (Reader.block p) := hp.block
  refine hblock.nested (fun c hc => ?_) fun c c' hc hc' => ⟨hc'.rest, hc.nesting⟩
  have hnesting := hc.nesting
  exact ⟨by omega, hc.rest, by simp only; omega, hc.entered⟩

theorem Takes.nestedAhead (hn : n < nestingLimit)
    (hp : Takes (Ahead (n + 1) ks) (Stand (n + 1) ls) a p) :
    Takes (Ahead n ks) (Stand n ls) a (Reader.nested p) := by
  refine hp.nested (fun c hc => ?_) fun c c' hc hc' => ⟨hc'.rest, hc.nesting⟩
  have hnesting := hc.nesting
  exact ⟨by omega, hc.rest, by simp only; omega⟩

/-! Sequences. -/

theorem all_isSpace_iff (ks : List Component) : ks.all isSpace = true ↔ skip (bareAll ks) = [] := by
  induction ks with
  | nil => exact ⟨fun _ => rfl, fun _ => rfl⟩
  | cons k ks ih =>
    cases k with
    | blanks | comment => exact ih
    | token | block => exact iff_of_false (fun h => by cases h) fun h => by cases h

theorem takes_atEnd (hks : skip ks = []) : Takes (Ahead n ks) (Ahead n []) true atEnd := by
  intro c hc
  refine ⟨c, ?_, hc.of_skip (by rw [hks]; rfl)⟩
  have : c.atEnd = true := (all_isSpace_iff c.rest).mpr (hc.rest.trans hks)
  change Except.ok (c.atEnd, c) = _
  rw [this]

theorem takes_notAtEnd (hks : skip ks ≠ []) : Takes (Ahead n ks) (Ahead n ks) false atEnd := by
  intro c hc
  refine ⟨c, ?_, hc⟩
  have : c.atEnd = false := by
    rw [← Bool.not_eq_true]
    exact fun h => hks (hc.rest.symm.trans ((all_isSpace_iff c.rest).mp h))
  change Except.ok (c.atEnd, c) = _
  rw [this]

theorem takes_skipSpace : Takes (Ahead n ks) (Stand n (skip ks)) () skipSpace := by
  intro c hc
  refine ⟨_, rfl, ?_, (Cursor.leave_nesting c).trans hc.nesting⟩
  have := bareAll_dropSpace c.leave.here c.leave.rest
  rw [Cursor.leave_rest, hc.rest] at this
  rw [← this]
  change bareAll (Cursor.dropSpace c.leave.here c.leave.rest).2 = _
  rw [Cursor.leave_rest]

theorem length_bareAll (ks : List Component) : (bareAll ks).length = ks.length := by
  simp [bareAll_eq_map]

/-- Up to a comma, or to the end, the text stands by itself. -/
theorem untilComma_eq {ms : List Component} (hks : ∀ k ∈ ks, k.isComma = false)
    (hms : ∀ k ∈ ms.head?, k.isComma = true) (hc : Stand n (ks ++ ms) c) :
    ∃ d c', Stand n ks d ∧ Stand n ms c' ∧
      ∀ {α : Type} (p : Reader α), untilComma p c = (entirely p d).map fun x => (x.1, c') := by
  have hrest : bareAll c.leave.rest = ks ++ ms := by rw [Cursor.leave_rest, hc.rest]
  have hmap : ∀ ls : List Component,
      bareAll (ls.takeWhile fun k => !k.isComma) = (bareAll ls).takeWhile fun k => !k.isComma := by
    intro ls
    rw [bareAll_eq_map, bareAll_eq_map, List.takeWhile_map]
    simp [Function.comp_def]
  have hmap' : ∀ ls : List Component,
      bareAll (ls.dropWhile fun k => !k.isComma) = (bareAll ls).dropWhile fun k => !k.isComma := by
    intro ls
    rw [bareAll_eq_map, bareAll_eq_map, List.dropWhile_map]
    simp [Function.comp_def]
  have hall : ∀ k ∈ ks, (!k.isComma) = true := fun k hk => by simp [hks k hk]
  have hnil : ms.takeWhile (fun k => !k.isComma) = [] ∧
      ms.dropWhile (fun k => !k.isComma) = ms := by
    cases ms with
    | nil => exact ⟨rfl, rfl⟩
    | cons m ms =>
      have := hms m rfl
      simp [this]
  have hpiece : bareAll (c.leave.rest.takeWhile fun k => !k.isComma) = ks := by
    rw [hmap, hrest, List.takeWhile_append_of_pos hall, hnil.1, List.append_nil]
  have htail : bareAll (c.leave.rest.dropWhile fun k => !k.isComma) = ms := by
    rw [hmap', hrest, List.dropWhile_append_of_pos hall, hnil.2]
  have hnesting : c.leave.nesting = n := (Cursor.leave_nesting c).trans hc.nesting
  refine ⟨{ c.leave with rest := c.leave.rest.takeWhile fun k => !k.isComma },
    { c.leave with
      rest := c.leave.rest.dropWhile fun k => !k.isComma
      here := endOf c.leave.here (c.leave.rest.takeWhile fun k => !k.isComma) },
    ⟨hpiece, hnesting⟩, ⟨htail, hnesting⟩, fun p => ?_⟩
  unfold Reader.untilComma
  dsimp only
  rw [List.span_eq_takeWhile_dropWhile]
  dsimp only
  cases Reader.entirely p _ <;> rfl

theorem takes_untilComma {ms : List Component} (hp : Takes (Ahead n ks) (Ahead n []) a p)
    (hks : ∀ k ∈ ks, k.isComma = false) (hms : ∀ k ∈ ms.head?, k.isComma = true) :
    Takes (Stand n (ks ++ ms)) (Stand n ms) a (untilComma p) := by
  intro c hc
  obtain ⟨d, c', hd, hc', heq⟩ := untilComma_eq hks hms hc
  obtain ⟨d', hpd, -⟩ := hp.entirely d hd.ahead
  exact ⟨c', by rw [heq, hpd]; rfl, hc'⟩

theorem fails_untilComma {ms : List Component} (hp : Fails (Ahead n ks) p)
    (hks : ∀ k ∈ ks, k.isComma = false) (hms : ∀ k ∈ ms.head?, k.isComma = true) :
    Fails (Stand n (ks ++ ms)) (untilComma p) := by
  intro c hc
  obtain ⟨d, c', hd, hc', heq⟩ := untilComma_eq hks hms hc
  obtain ⟨e, hpd⟩ := (show Fails (Ahead n ks) (entirely p) from hp.bind) d hd.ahead
  exact ⟨e, by rw [heq, hpd]; rfl⟩

/-- What stands between commas, item by item. -/
inductive Items (p : Reader α) (n : Nat) : List α → List Component → Prop
  | last {a : α} {ks : List Component} (ha : Takes (Ahead n ks) (Ahead n []) a p)
      (hks : ∀ k ∈ ks, k.isComma = false) : Items p n [a] ks
  | cons {a : α} {as : List α} {ks ls : List Component} (ha : Takes (Ahead n ks) (Ahead n []) a p)
      (hks : ∀ k ∈ ks, k.isComma = false) (h : Items p n as ls) :
      Items p n (a :: as) (ks ++ .token .comma .start :: ls)

/-- Blanks in front of the first item do not count. -/
theorem Items.blanks {as : List α} (h : Items p n as ks) : Items p n as (.blanks .start :: ks) := by
  cases h with
  | last ha hks =>
    refine .last (ha.before fun c hc => hc.of_skip rfl) ?_
    exact List.forall_mem_cons.mpr ⟨rfl, hks⟩
  | @cons a as ks ls ha hks h =>
    change Items p n (a :: as) ((.blanks .start :: ks) ++ .token .comma .start :: ls)
    refine .cons (ha.before fun c hc => hc.of_skip rfl) ?_ h
    exact List.forall_mem_cons.mpr ⟨rfl, hks⟩

theorem mem_of_mem_skip {k : Component} (h : k ∈ skip ks) : k ∈ ks :=
  (List.dropWhile_sublist _).mem h

theorem skip_append_cons {k : Component} (hk : k.isSpace = false) (ks ls : List Component) :
    skip (ks ++ k :: ls) = skip ks ++ k :: ls := by
  induction ks with
  | nil => simp [skip, hk]
  | cons k' ks ih =>
    cases h : k'.isSpace with
    | true => simpa [skip, h] using ih
    | false => simp [skip, h]

theorem takes_takeComma :
    Takes (Stand n (.token .comma .start :: ls)) (Stand n ls) true takeComma :=
  Takes.succeeds (Takes.before (takes_token rfl) fun _ h => h.ahead)

theorem takes_itemsWithin {as : List α} (h : Items p n as ks) {count : Nat}
    (hcount : ks.countP isComma ≤ count) :
    Takes (Ahead n ks) (Ahead n []) as (itemsWithin p count) := by
  induction h generalizing count with
  | @last a ks ha hks =>
    have hskip : Takes (Ahead n (skip ks)) (Ahead n []) a p :=
      ha.before fun c hc => hc.of_skip (skip_skip ks)
    have hitem : Takes (Stand n (skip ks ++ [])) (Stand n []) a (untilComma p) :=
      takes_untilComma hskip (fun k hk => hks k (mem_of_mem_skip hk)) (by simp)
    rw [List.append_nil] at hitem
    have hend : Takes (Stand n []) (Ahead n []) [a] (Pure.pure [a]) :=
      (Takes.pure [a]).after fun _ h => h.ahead
    cases count with
    | zero => exact takes_skipSpace.bind (hitem.bind hend)
    | succ count =>
      have hcomma : Takes (Stand n []) (Stand n []) false takeComma :=
        Fails.succeeds (fails_end.before fun _ h => h.ahead)
      exact takes_skipSpace.bind (hitem.bind (hcomma.bind hend))
  | @cons a as ks ls ha hks h ih =>
    have hskip : Takes (Ahead n (skip ks)) (Ahead n []) a p :=
      ha.before fun c hc => hc.of_skip (skip_skip ks)
    have hitem : Takes (Stand n (skip ks ++ .token .comma .start :: ls))
        (Stand n (.token .comma .start :: ls)) a (untilComma p) :=
      takes_untilComma hskip (fun k hk => hks k (mem_of_mem_skip hk)) (by simp [isComma])
    rw [← skip_append_cons rfl] at hitem
    rw [List.countP_append, List.countP_cons] at hcount
    simp only [isComma] at hcount
    cases count with
    | zero => simp at hcount
    | succ count =>
      have hmore := ih (show ls.countP isComma ≤ count by simp at hcount; omega)
      refine takes_skipSpace.bind (hitem.bind (takes_takeComma.bind ?_))
      exact (hmore.before fun _ h => h.ahead).bind (.pure _)

theorem Takes.commaSeparated {as : List α} (h : Items p n as ks) :
    Takes (Stand n ks) (Ahead n []) as (commaSeparated p) := by
  refine Takes.get fun c hc => (takes_itemsWithin h ?_).before fun _ h => h.ahead
  rw [← hc.rest, bareAll_eq_map, List.countP_map]
  simp [Function.comp_def]

/-- Items up to the end of the components. -/
inductive Each (p : Reader α) (n : Nat) : List α → List Component → Prop
  | nil {ks : List Component} (h : skip ks = []) : Each p n [] ks
  | cons {a : α} {as : List α} {ks ls : List Component} (hne : skip ks ≠ [])
      (ha : Takes (Ahead n ks) (Stand n ls) a p) (hlt : ls.length < ks.length)
      (h : Each p n as ls) : Each p n (a :: as) ks

theorem takes_untilEndWithin {as : List α} (h : Each p n as ks) {count : Nat}
    (hcount : ks.length ≤ count) :
    Takes (Ahead n ks) (Ahead n []) as (untilEndWithin p count) := by
  induction h generalizing count with
  | nil h =>
    cases count with
    | zero => exact (Takes.pure []).after fun c hc => hc.of_skip (by rw [h]; rfl)
    | succ count => exact (takes_atEnd h).bind (.pure [])
  | @cons a as ks ls hne ha hlt _ ih =>
    cases count with
    | zero => omega
    | succ count =>
      have hmore := ih (show ls.length ≤ count by omega)
      exact (takes_notAtEnd hne).bind (ha.bind ((hmore.before fun _ h => h.ahead).bind (.pure _)))

theorem Takes.untilEnd {as : List α} (h : Each p n as ks) :
    Takes (Stand n ks) (Ahead n []) as (untilEnd p) := by
  refine Takes.get fun c hc => (takes_untilEndWithin h ?_).before fun _ h => h.ahead
  rw [← hc.rest, length_bareAll]

/-- Items up to a place where no other can be read. -/
inductive Several (p : Reader α) (n : Nat) (ls : List Component) : List α → List Component → Prop
  | nil (h : Fails (Stand n ls) p) : Several p n ls [] ls
  | cons {a : α} {as : List α} {ks ms : List Component} (ha : Takes (Stand n ks) (Stand n ms) a p)
      (hlt : ms.length < ks.length) (h : Several p n ls as ms) : Several p n ls (a :: as) ks

theorem takes_manyWithin {as : List α} (h : Several p n ls as ks) {count : Nat}
    (hcount : ks.length ≤ count) : Takes (Stand n ks) (Stand n ls) as (manyWithin p count) := by
  induction h generalizing count with
  | nil h =>
    cases count with
    | zero => exact .pure []
    | succ count => exact h.attempt.bind (.pure [])
  | @cons a as ks ms ha hlt _ ih =>
    cases count with
    | zero => omega
    | succ count =>
      have hmore := ih (show ms.length ≤ count by omega)
      exact ha.attempt.bind (hmore.bind (.pure _))

theorem Takes.many {as : List α} (h : Several p n ls as ks) :
    Takes (Stand n ks) (Stand n ls) as (many p) := by
  refine Takes.get fun c hc => takes_manyWithin h ?_
  rw [← hc.rest, length_bareAll]

/-! Whole texts. -/

theorem soundAll_append {ks ls : List Component} :
    SoundAll (ks ++ ls) ↔ SoundAll ks ∧ SoundAll ls := by
  rw [soundAll_iff, soundAll_iff, soundAll_iff, List.forall_mem_append]

theorem bareAll_append (ks ls : List Component) :
    bareAll (ks ++ ls) = bareAll ks ++ bareAll ls := by
  simp [bareAll_eq_map]

theorem run_of_takes {s : String} {ks : List Component} (hks : bareAll (ofText s.toList) = ks)
    (hp : Takes (Stand 0 ks) (Ahead 0 []) a p) : p.run s = .ok a := by
  obtain ⟨c', hpc, -⟩ := hp.entirely (Cursor.ofText s) ⟨hks, rfl⟩
  unfold Reader.run
  rw [hpc]
  rfl

theorem run_of_fails {s : String} {ks : List Component} (hks : bareAll (ofText s.toList) = ks)
    (hp : Fails (Stand 0 ks) (entirely p)) : ∃ e, p.run s = .error e := by
  obtain ⟨e, he⟩ := hp (Cursor.ofText s) ⟨hks, rfl⟩
  refine ⟨e, ?_⟩
  unfold Reader.run
  rw [he]
  rfl

/-- Behind what was read nothing is left. -/
theorem of_entirely {c d : Cursor} (h : entirely p c = .ok (a, d)) :
    p c = .ok (a, d) ∧ ∃ e, d.next = .error e := by
  obtain ⟨a, c', hpc, hrest⟩ := of_bind h
  obtain ⟨⟨⟩, d', hfinish, hpure⟩ := of_bind hrest
  cases hpure
  unfold Reader.finish at hfinish
  cases hnext : c'.next with
  | ok y =>
    rw [hnext] at hfinish
    cases hfinish
  | error e =>
    rw [hnext] at hfinish
    cases hfinish
    exact ⟨hpc, e, hnext⟩

theorem of_run {s : String} (h : p.run s = .ok a) :
    ∃ c, entirely p (Cursor.ofText s) = .ok (a, c) := by
  unfold Reader.run at h
  cases hentirely : Reader.entirely p (Cursor.ofText s) with
  | error e =>
    rw [hentirely] at h
    cases h
  | ok x =>
    rw [hentirely] at h
    cases h
    exact ⟨x.2, rfl⟩

theorem bare_of_mem_bareAll {k : Component} (h : k ∈ bareAll ks) : k.bare = k := by
  rw [bareAll_eq_map] at h
  obtain ⟨k', -, rfl⟩ := List.mem_map.mp h
  exact bare_bare k'

/-- The next component is the same for two cursors that have it ahead. -/
theorem front_of_ahead {m n : Nat} {k : Component} {ks ls : List Component} {c d : Cursor}
    (hk : k.isSpace = false) (hbare : k.bare = k) (hsound : k.Sound) (hc : Ahead m (k :: ks) c)
    (hd : Ahead n (k :: ls) d) (hfits : m = n ∨ m + 2 * k.depth ≤ 126 ∧ n + 2 * k.depth ≤ 126) :
    ∃ r r', bareAll r = ks ∧ bareAll r' = ls ∧ Front 124 r r' c d := by
  have hm := hc.nesting
  have hn := hd.nesting
  cases k with
  | blanks | comment => cases hk
  | token t l =>
    cases hbare
    obtain ⟨c', hnext, hc', hcentered⟩ := next_token hc
    obtain ⟨d', hnext', hd', hdentered⟩ := next_token hd
    refine ⟨c'.rest, d'.rest, hc'.rest, hd'.rest, by simp only [depth] at hfits; omega, ?_⟩
    rw [hnext, hnext']
    exact .ok ⟨hsound.2, fun _ => ⟨rfl, rfl, hcentered, hdentered⟩,
      ⟨rfl, rfl, by rw [hcentered, hdentered]; exact .none⟩, hc'.nesting.trans hm.symm,
      hd'.nesting.trans hn.symm⟩
  | block t l content stop =>
    simp only [bare, Component.block.injEq, true_and] at hbare
    obtain ⟨rfl, hcontent, rfl⟩ := hbare
    obtain ⟨c', hnext, hc'⟩ := next_block hc
    obtain ⟨d', hnext', hd'⟩ := next_block hd
    obtain ⟨e, hcentered, he⟩ := hc'.entered
    obtain ⟨e', hdentered, he'⟩ := hd'.entered
    obtain ⟨hopen, htoken, hinside⟩ := hsound
    refine ⟨c'.rest, d'.rest, hc'.rest, hd'.rest, by omega, ?_⟩
    rw [hnext, hnext']
    refine .ok ⟨htoken, fun hclosed => ?_, ⟨rfl, rfl, ?_⟩, hc'.nesting.trans hm.symm,
      hd'.nesting.trans hn.symm⟩
    · rw [hclosed] at hopen
      cases hopen
    · rw [hcentered, hdentered, hc'.nesting, hd'.nesting]
      have hdepth : depthAll e.content = depthAll content := by rw [← depthAll_bareAll, he]
      refine .some ⟨he.trans he'.symm, (soundAll_bareAll e.content).mp (he ▸ hinside), ?_⟩
      simp only [depth] at hfits
      omega

theorem next_of_ahead {k : Component} (hk : k.isSpace = false) (hbare : k.bare = k)
    (hc : Ahead n (k :: ks) c) (e : Fault) : c.next ≠ .error e := by
  cases k with
  | blanks | comment => cases hk
  | token t l =>
    cases hbare
    obtain ⟨c', hnext, -⟩ := next_token hc
    simp [hnext]
  | block t l content stop =>
    simp only [bare, Component.block.injEq, true_and] at hbare
    obtain ⟨rfl, -, rfl⟩ := hbare
    obtain ⟨c', hnext, -⟩ := next_block hc
    simp [hnext]

/-- The reader needs only the next component. -/
abbrev AtHead (good : α → Prop) (p : Reader α) : Prop :=
  ∀ r r', Twin (Front 124 r r') (Opened 126 r r') good p p

/-- The components are the whole text of something, with `n` functions around them. -/
def IsText (n : Nat) (p : Reader α) (a : α) (ks : List Component) : Prop :=
  ∃ c, entirely p ⟨ks, .start, none, n⟩ = .ok (a, c)

variable {good : α → Prop}

/-- At the end of the text such a reader fails, since it knows nothing of what is left to it. -/
theorem AtHead.fails_end (hp : AtHead good p) : Fails (Ahead n []) p := by
  intro c hc
  obtain ⟨e, hnext⟩ := next_end hc
  cases hpc : p c with
  | error e => exact ⟨e, rfl⟩
  | ok x =>
    have hrest (r : List Component) : x.2.rest = r := by
      have hagree := hp r r c c ⟨.inl rfl, by rw [hnext]; exact .error⟩
      rw [hpc] at hagree
      cases hagree with
      | ok h => exact h.2.1.left
    have := (hrest []).symm.trans (hrest [.blanks .start])
    cases this

theorem isSpace_of_skip {k : Component} (h : skip ks = k :: ls) : k.isSpace = false := by
  have hhead : (ks.dropWhile Component.isSpace).head? = some k := by rw [← skip, h]; rfl
  have := List.head?_dropWhile_not Component.isSpace ks
  rw [hhead] at this
  simpa using this

/-- The text of something is one component, if the reader needs no more, and wherever that component
stands the reader takes it.  At another nesting there has to be room for it. -/
theorem IsText.takes (hp : AtHead good p) (hks : SoundAll ks) (h : IsText n p a ks) :
    ∃ k ls, skip (bareAll ks) = k :: ls ∧ skip ls = [] ∧ ∀ m ms,
      (n = m ∨ n + 2 * k.depth ≤ 126 ∧ m + 2 * k.depth ≤ 126) →
        Takes (Ahead m (k :: ms)) (Stand m ms) a p := by
  obtain ⟨c, hentirely⟩ := h
  obtain ⟨hpc, e, hend⟩ := of_entirely hentirely
  have hstand : Stand n (bareAll ks) ⟨ks, .start, none, n⟩ := ⟨rfl, rfl⟩
  have hahead := hstand.ahead.of_skip (skip_skip _).symm
  cases hskip : skip (bareAll ks) with
  | nil =>
    rw [hskip] at hahead
    obtain ⟨e', he'⟩ := hp.fails_end _ hahead
    rw [hpc] at he'
    cases he'
  | cons k ls =>
    rw [hskip] at hahead
    have hmem {k' : Component} (hk' : k' ∈ k :: ls) : k' ∈ bareAll ks :=
      mem_of_mem_skip (hskip ▸ hk')
    have hk := isSpace_of_skip hskip
    have hbare := bare_of_mem_bareAll (hmem List.mem_cons_self)
    have hsound : k.Sound :=
      soundAll_iff.mp ((soundAll_bareAll ks).mpr hks) k (hmem List.mem_cons_self)
    obtain ⟨r, r', hr, -, hfront⟩ := front_of_ahead hk hbare hsound hahead hahead (.inl rfl)
    have hagree := hp r r' _ _ hfront
    rw [hpc] at hagree
    have hrest : c.rest = r ∧ c.nesting = n := by
      cases hagree with
      | ok h => exact ⟨h.2.1.left, h.2.2.1⟩
    refine ⟨k, ls, rfl, ?_, fun m ms hroom d hd => ?_⟩
    · cases hls : skip ls with
      | nil => rfl
      | cons k' ls' =>
        have hk' : k' ∈ bareAll ks :=
          hmem (List.mem_cons_of_mem k (mem_of_mem_skip (hls ▸ List.mem_cons_self)))
        have hbehind : Ahead n (k' :: ls') c :=
          ⟨by rw [hrest.1, hr, ← hls, skip_skip], hrest.2⟩
        exact absurd hend (next_of_ahead (isSpace_of_skip hls) (bare_of_mem_bareAll hk') hbehind e)
    · obtain ⟨r, r', -, hr', hfront⟩ := front_of_ahead hk hbare hsound hahead hd hroom
      have hagree := hp r r' _ _ hfront
      rw [hpc] at hagree
      generalize hresult : p d = x at hagree
      cases hagree with
      | @ok _ _ d' h =>
        obtain ⟨-, hopened, -, hnesting⟩ := h
        exact ⟨d', rfl, by rw [hopened.right, hr'], hnesting.trans hd.nesting⟩

theorem skip_eq_nil_iff : skip ks = [] ↔ ∀ k ∈ ks, k.isSpace = true := List.dropWhile_eq_nil_iff

theorem skip_append_of_skip_nil (h : skip ks = []) (ls : List Component) :
    skip (ks ++ ls) = skip ls :=
  List.dropWhile_append_of_pos (skip_eq_nil_iff.mp h)

/-- Components with blanks in front are the blanks and what stands behind them. -/
theorem exists_of_skip {k : Component} (h : skip ks = k :: ls) :
    ∃ bs, skip bs = [] ∧ ks = bs ++ k :: ls := by
  refine ⟨ks.takeWhile Component.isSpace, skip_eq_nil_iff.mpr fun k hk => ?_, ?_⟩
  · exact List.mem_takeWhile_imp hk
  · rw [← h]
    exact List.takeWhile_append_dropWhile.symm

theorem isComma_of_skip_nil (h : skip ks = []) : ∀ k ∈ ks, k.isComma = false := by
  intro k hk
  have hspace := skip_eq_nil_iff.mp h k hk
  cases k with
  | blanks | comment => rfl
  | token | block => cases hspace

theorem IsText.of_takes (hbare : bareAll ks = ks) (h : Takes (Ahead n ks) (Ahead n []) a p) :
    IsText n p a ks := by
  obtain ⟨c', hread, -⟩ := h.entirely ⟨ks, .start, none, n⟩ ⟨by rw [hbare], rfl⟩
  exact ⟨c', hread⟩

end Reader

end StyleGrammar
