import StyleGrammar.Proofs.Reader.Takes

/-!
# What readers begin with and end at

A reader *wants* tokens of some sort if it succeeds only where one of them is
next.  Readers that want different tokens exclude each other.  A reader that
wants no comma reads the same in front of a comma as at the end of its text:
`Cut` relates two such cursors, and a reader that is put together from readers of
one component keeps them so related.
-/

namespace StyleGrammar

open Component

namespace Reader

variable {α β : Type} {S S' : Token → Prop} {p : Reader α}

/-- Where the reader succeeds, one of some tokens is next. -/
def Wants (S : Token → Prop) (p : Reader α) : Prop :=
  ∀ c x, p c = .ok x → ∃ t c', c.next = .ok (t, c') ∧ S t

theorem Wants.mono (h : Wants S p) (himp : ∀ t, S t → S' t) : Wants S' p := by
  intro c x hx
  obtain ⟨t, c', hnext, ht⟩ := h c x hx
  exact ⟨t, c', hnext, himp t ht⟩

theorem Wants.bind (h : Wants S p) (f : α → Reader β) : Wants S (p >>= f) := by
  intro c x hx
  obtain ⟨a, c', hp, -⟩ := of_bind hx
  exact h c _ hp

theorem Wants.map (h : Wants S p) (f : α → β) : Wants S (f <$> p) :=
  show Wants S (p >>= fun a => Pure.pure (f a)) from h.bind _

theorem of_orElse {q : Reader α} {c : Cursor} {x : α × Cursor} (h : (p <|> q) c = .ok x) :
    p c = .ok x ∨ q c = .ok x := by
  change tryCatch (p c) (fun _ => q c) = _ at h
  cases hp : p c with
  | ok y =>
    rw [hp] at h
    exact .inl h
  | error e =>
    rw [hp] at h
    exact .inr h

theorem Wants.orElse {q : Reader α} (hp : Wants S p) (hq : Wants S q) : Wants S (p <|> q) := by
  intro c x hx
  rcases of_orElse hx with h | h
  · exact hp c x h
  · exact hq c x h

theorem Wants.next {f : Token → Reader α} (h : ∀ t c x, f t c = .ok x → S t) :
    Wants S (Reader.next >>= f) := by
  intro c x hx
  obtain ⟨t, c', hnext, hf⟩ := of_bind hx
  exact ⟨t, c', hnext, h t c' x hf⟩

theorem Wants.place {f : Location → Reader α} (h : ∀ l, Wants S (f l)) :
    Wants S (Reader.place >>= f) :=
  fun c x hx => h c.here c x hx

theorem Wants.expect {f : Token → Option α} (h : ∀ t, f t ≠ none → S t) :
    Wants S (Reader.expect f) := by
  refine Wants.place fun l => Wants.next fun t c x hx => h t fun hnone => ?_
  rw [hnone] at hx
  cases hx

theorem Wants.failNext : Wants S (Reader.failNext : Reader α) :=
  Wants.next fun _ _ _ hx => by cases hx

theorem Wants.nested (h : Wants S p) : Wants S (Reader.nested p) := by
  intro c x hx
  by_cases hlt : c.nesting < nestingLimit
  · rw [nested_of_lt p hlt] at hx
    cases hp : p { c with nesting := c.nesting + 1 } with
    | error e =>
      rw [hp] at hx
      cases hx
    | ok y =>
      obtain ⟨t, c', hnext, ht⟩ := h _ _ hp
      rw [next_deeper] at hnext
      cases hc : c.next with
      | error e =>
        rw [hc] at hnext
        cases hnext
      | ok z =>
        rw [hc] at hnext
        cases hnext
        exact ⟨z.1, z.2, rfl, ht⟩
  · rw [Reader.nested, if_neg hlt] at hx
    cases hx

theorem Wants.functionNamed (name : String) :
    Wants (fun t => ∃ n, t = .function n ∧ sameName n name = true) (functionNamed name) := by
  refine Wants.expect fun t ht => ?_
  cases t with
  | function n =>
    refine ⟨n, rfl, ?_⟩
    by_contra hn
    simp [hn] at ht
  | _ => simp at ht

/-- Where one reader takes something, another that wants other tokens fails. -/
theorem Wants.fails {q : Reader β} (hp : Wants S p) (hq : Wants S' q) (hS : ∀ t, S t → ¬ S' t)
    {P Q : Cursor → Prop} {a : α} (h : Takes P Q a p) : Fails P q := by
  intro c hc
  obtain ⟨c', hpc, -⟩ := h c hc
  obtain ⟨t, d, hnext, ht⟩ := hp c _ hpc
  cases hqc : q c with
  | error e => exact ⟨e, rfl⟩
  | ok x =>
    obtain ⟨t', d', hnext', ht'⟩ := hq c x hqc
    rw [hnext] at hnext'
    cases hnext'
    exact absurd ht' (hS t ht)

/-- Where a reader takes something, there is none of the tokens that it does not want. -/
theorem Wants.fails_expect {f : Token → Option β} (hp : Wants S p) (hf : ∀ t, S t → f t = none)
    {P Q : Cursor → Prop} {a : α} (h : Takes P Q a p) : Fails P (Reader.expect f) :=
  hp.fails (Wants.expect fun _ ht => (show f _ ≠ none from ht)) (fun t ht hne => hne (hf t ht)) h

theorem Wants.fails_end (h : Wants S p) {n : Nat} : Fails (Ahead n []) p := by
  intro c hc
  obtain ⟨e, he⟩ := next_end hc
  cases hpc : p c with
  | error e => exact ⟨e, rfl⟩
  | ok x =>
    obtain ⟨t, c', hnext, -⟩ := h c x hpc
    rw [he] at hnext
    cases hnext

theorem Wants.fails_token (hp : Wants S p) {t : Token} (ht : ¬ S t) {n : Nat}
    {ls : List Component} :
    Fails (Ahead n (.token t .start :: ls)) p := by
  intro c hc
  obtain ⟨c', hnext, -, -⟩ := next_token hc
  cases hpc : p c with
  | error e => exact ⟨e, rfl⟩
  | ok x =>
    obtain ⟨t', c'', hnext', ht'⟩ := hp c x hpc
    rw [hnext] at hnext'
    cases hnext'
    exact absurd ht' ht

/-- A reader that wants no comma takes none. -/
theorem Wants.isComma (hwants : Wants S p) (hS : ¬ S .comma) {k : Component}
    (hbare : k.bare = k) {Q : Cursor → Prop} (h : Takes (Ahead n [k]) Q a p) :
    k.isComma = false := by
  by_contra hcomma
  have hk : k = .token .comma .start := by
    cases k with
    | token t l =>
      cases t with
      | comma => exact hbare.symm
      | _ => exact absurd rfl hcomma
    | _ => exact absurd rfl hcomma
  subst hk
  have hahead : Ahead n [.token .comma .start]
      ⟨[.token .comma .start], .start, none, n⟩ := ⟨rfl, rfl⟩
  obtain ⟨c', hp, -⟩ := h _ hahead
  obtain ⟨t, c'', hnext, ht⟩ := hwants _ _ hp
  obtain ⟨d, hnext', -, -⟩ := next_token hahead
  rw [hnext] at hnext'
  cases hnext'
  exact hS ht

theorem atHead_expect (f : Token → Option α) :
    AtHead (fun _ => True) (Reader.expect f) := fun _ _ =>
  (Twin.expect fun _ _ _ _ => trivial).mono (fun _ => id) fun _ _ h => h.mono (by decide)

/-! In front of a comma. -/

variable {good : α → Prop} {a : α} {n : Nat} {ks ls : List Component}

/-- What stands behind something that has no comma in it: a comma, or nothing. -/
inductive Tail
  | comma (ls : List Component)
  | nothing

def Tail.components : Tail → List Component
  | comma ls => .token .comma .start :: ls
  | nothing => []

/-- The same components are left, to one of them before a tail. -/
structure Cut (tail : Tail) (c d : Cursor) : Prop where
  rest : ∃ ks, SoundAll ks ∧ skip (bareAll c.rest) = skip (bareAll ks) ∧
    skip (bareAll d.rest) = skip (bareAll ks ++ tail.components)
  nesting : c.nesting = d.nesting

/-- The reader reads the same in front of a comma. -/
abbrev StopsAtComma (p : Reader α) : Prop :=
  ∀ tail, Twin (Cut tail) (Cut tail) (fun _ => True) p p

theorem AtHead.stopsAtComma (hp : AtHead good p) (hwants : Wants S p) (hS : ¬ S .comma) :
    StopsAtComma p := by
  rintro tail c d ⟨⟨ks, hsound, hc, hd⟩, hn⟩
  cases hskip : skip (bareAll ks) with
  | nil =>
    rw [hskip] at hc
    rw [skip_append_of_skip_nil hskip] at hd
    obtain ⟨e, he⟩ := hp.fails_end c ⟨hc, rfl⟩
    have hfails : ∃ e', p d = .error e' := by
      cases tail with
      | comma ls => exact hwants.fails_token hS d ⟨hd, rfl⟩
      | nothing => exact hp.fails_end d ⟨hd, rfl⟩
    obtain ⟨e', he'⟩ := hfails
    rw [he, he']
    exact .error
  | cons k ks' =>
    obtain ⟨bs, hbs, hsplit⟩ := exists_of_skip hskip
    rw [hskip] at hc
    rw [hsplit, List.append_assoc, skip_append_of_skip_nil hbs, List.cons_append] at hd
    have hmem : ∀ k' ∈ k :: ks', k' ∈ bareAll ks := fun k' hk' => by
      rw [hsplit]
      exact List.mem_append_right _ hk'
    have hsound' : SoundAll (k :: ks') := soundAll_iff.mpr fun k' hk' =>
      soundAll_iff.mp ((soundAll_bareAll ks).mpr hsound) k' (hmem k' hk')
    have hk := isSpace_of_skip hskip
    obtain ⟨r, r', hr, hr', hfront⟩ := front_of_ahead hk
      (bare_of_mem_bareAll (hmem k List.mem_cons_self)) hsound'.1
      (⟨hc.trans (skip_cons hk ks').symm, rfl⟩ : Ahead c.nesting (k :: ks') c)
      (⟨hd, rfl⟩ : Ahead d.nesting (k :: (ks' ++ tail.components)) d) (.inl hn)
    refine (hp r r' c d hfront).mono ?_
    rintro a c' d' ⟨-, hopened, hm, hm'⟩
    refine ⟨trivial, ⟨⟨r, ?_, by rw [hopened.left], ?_⟩, by rw [hm, hm', hn]⟩, hm, hm'⟩
    · rw [← soundAll_bareAll, hr]
      exact hsound'.2
    · rw [hopened.right, hr', hr]

theorem stopsAtComma_expect {f : Token → Option α} (hf : f .comma = none) :
    StopsAtComma (expect f) :=
  (atHead_expect f).stopsAtComma (Wants.expect fun t ht => (show f t ≠ none from ht)) (by simp [hf])

/-- The text of something, where a comma follows it or nothing. -/
theorem IsText.takes_cut (hp : StopsAtComma p) (hks : SoundAll ks) (h : IsText n p a ks)
    (tail : Tail) :
    Takes (Ahead n (bareAll ks ++ tail.components)) (Ahead n tail.components) a p := by
  obtain ⟨c, hentirely⟩ := h
  obtain ⟨hpc, e, hend⟩ := of_entirely hentirely
  intro d hd
  have hcut : Cut tail ⟨ks, .start, none, n⟩ d := ⟨⟨ks, hks, rfl, hd.rest⟩, hd.nesting.symm⟩
  have hagree := hp tail _ _ hcut
  rw [hpc] at hagree
  generalize p d = x at hagree
  cases hagree with
  | @ok _ _ d' hpost =>
    obtain ⟨-, ⟨⟨ks', -, hc, hd'⟩, -⟩, -, hnesting⟩ := hpost
    refine ⟨d', rfl, ?_, hnesting.trans hd.nesting⟩
    have hnil : skip (bareAll c.rest) = [] := by
      cases hskip : skip (bareAll c.rest) with
      | nil => rfl
      | cons k ls' =>
        obtain ⟨bs, -, hsplit⟩ := exists_of_skip hskip
        have hbehind : Ahead c.nesting (k :: ls') c :=
          ⟨by rw [hskip, skip_cons (isSpace_of_skip hskip)], rfl⟩
        have hmem : k ∈ bareAll c.rest := by
          rw [hsplit]
          simp
        exact absurd hend
          (next_of_ahead (isSpace_of_skip hskip) (bare_of_mem_bareAll hmem) hbehind e)
    rw [hd', skip_append_of_skip_nil (hc.symm.trans hnil)]

end Reader

end StyleGrammar
