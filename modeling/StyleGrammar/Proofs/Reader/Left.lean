import StyleGrammar.Proofs.Reader.Heads

/-!
# What is left besides blanks

Blanks and comments in front of a component are skipped, so a reader that takes
component after component never meets them.  `Left` says what is left to a cursor
without them.
-/

namespace StyleGrammar

namespace Component

/-- Components without blanks and comments. -/
def dense (ks : List Component) : List Component := ks.filter fun k => !k.isSpace

@[simp] theorem dense_nil : dense [] = [] := rfl

@[simp] theorem dense_append (ks ls : List Component) : dense (ks ++ ls) = dense ks ++ dense ls :=
  List.filter_append ..

@[simp] theorem dense_blanks (l : Location) (ks : List Component) :
    dense (.blanks l :: ks) = dense ks := rfl

theorem dense_cons {k : Component} (hk : k.isSpace = false) (ks : List Component) :
    dense (k :: ks) = k :: dense ks := by
  simp [dense, hk]

@[simp] theorem dense_token (t : Token) (l : Location) (ks : List Component) :
    dense (.token t l :: ks) = .token t l :: dense ks := rfl

theorem dense_eq_self {ks : List Component} (h : ∀ k ∈ ks, k.isSpace = false) : dense ks = ks :=
  List.filter_eq_self.mpr fun k hk => by simp [h k hk]

theorem dense_of_skip_nil {ks : List Component} (h : skip ks = []) : dense ks = [] := by
  simpa [dense] using Reader.skip_eq_nil_iff.mp h

theorem skip_of_dense_nil {ks : List Component} (h : dense ks = []) : skip ks = [] :=
  Reader.skip_eq_nil_iff.mpr (by simpa [dense] using h)

theorem dense_skip (ks : List Component) : dense (skip ks) = dense ks := by
  induction ks with
  | nil => rfl
  | cons k ks ih =>
    cases hk : k.isSpace with
    | true => simpa [skip, dense, hk] using ih
    | false => rw [skip_cons hk]

/-- The first component that is no blank, and what is behind it. -/
theorem exists_of_dense {k : Component} {ks ls : List Component} (h : dense ks = k :: ls) :
    k.isSpace = false ∧ ∃ ls', skip ks = k :: ls' ∧ dense ls' = ls := by
  have hk : k.isSpace = false := by
    have hmem : k ∈ dense ks := by rw [h]; exact List.mem_cons_self
    simpa using (List.mem_filter.mp hmem).2
  rw [← dense_skip] at h
  cases hskip : skip ks with
  | nil =>
    rw [hskip] at h
    cases h
  | cons k' ls' =>
    rw [hskip, dense_cons (Reader.isSpace_of_skip hskip)] at h
    cases h
    exact ⟨hk, ls', rfl, rfl⟩

end Component

open Component

namespace Reader

variable {α : Type} {p : Reader α} {a : α} {n : Nat} {k : Component} {ks ls : List Component}
  {c : Cursor}

/-- The components left besides blanks and comments. -/
structure Left (n : Nat) (ks : List Component) (c : Cursor) : Prop where
  rest : dense (bareAll c.rest) = ks
  nesting : c.nesting = n

theorem Stand.left (h : Stand n ks c) : Left n (dense ks) c := ⟨by rw [h.rest], h.nesting⟩

theorem Ahead.left (h : Ahead n ks c) : Left n (dense ks) c :=
  ⟨by rw [← dense_skip, h.rest, dense_skip], h.nesting⟩

theorem Left.ahead_nil (h : Left n [] c) : Ahead n [] c :=
  ⟨skip_of_dense_nil h.rest, h.nesting⟩

theorem Left.ahead_cons (h : Left n (k :: ls) c) :
    k.isSpace = false ∧ ∃ ls', Ahead n (k :: ls') c ∧ dense ls' = ls := by
  obtain ⟨hk, ls', hskip, hls⟩ := exists_of_dense h.rest
  exact ⟨hk, ls', ⟨by rw [hskip, skip_cons hk], h.nesting⟩, hls⟩

theorem Left.length_le (h : Left n ks c) : ks.length ≤ c.rest.length := by
  rw [← h.rest, ← length_bareAll c.rest]
  exact List.length_filter_le _ _

/-- A reader of one component, wherever that stands. -/
theorem Takes.left (h : ∀ ls, Takes (Ahead n (k :: ls)) (Stand n ls) a p) :
    Takes (Left n (k :: ls)) (Left n ls) a p := by
  intro c hc
  obtain ⟨-, ls', hahead, rfl⟩ := hc.ahead_cons
  obtain ⟨c', hpc, hc'⟩ := h ls' c hahead
  exact ⟨c', hpc, hc'.left⟩

theorem Fails.left (h : ∀ ls, Fails (Ahead n (k :: ls)) p) : Fails (Left n (k :: ls)) p := by
  intro c hc
  obtain ⟨-, ls', hahead, -⟩ := hc.ahead_cons
  exact h ls' c hahead

theorem takes_left {f : Token → Option α} {t : Token} (h : f t = some a) :
    Takes (Left n (.token t .start :: ls)) (Left n ls) a (expect f) :=
  Takes.left fun _ => takes_token h

theorem fails_left {f : Token → Option α} {t : Token} (h : f t = none) :
    Fails (Left n (.token t .start :: ls)) (expect f) :=
  Fails.left fun _ => fails_token h

theorem fails_left_end {f : Token → Option α} : Fails (Left n []) (expect f) :=
  fails_end.before fun _ hc => hc.ahead_nil

theorem takes_atEnd_left : Takes (Left n []) (Left n []) true atEnd :=
  ((takes_atEnd rfl).before fun _ hc => hc.ahead_nil).after fun _ hc => hc.left

theorem takes_notAtEnd_left : Takes (Left n (k :: ls)) (Left n (k :: ls)) false atEnd := by
  intro c hc
  obtain ⟨hk, ls', hahead, hls⟩ := hc.ahead_cons
  obtain ⟨c', hpc, hc'⟩ := takes_notAtEnd (by simp [skip_cons hk]) c hahead
  refine ⟨c', hpc, ?_⟩
  rw [← hls, ← dense_cons hk]
  exact hc'.left

/-- The content of a function, from which something is read whole. -/
theorem Takes.callLeft {name : String} {p : Reader α} {content : List Component}
    (hp : Takes (Left n (dense content)) (Left n []) a p) {f : Token → Option Unit}
    (hf : f (.function name) = some ()) (ls : List Component) :
    Takes (Ahead n (.block (.function name) .start content .start :: ls)) (Stand n ls) a
      (expect f >>= fun _ => Reader.block p) :=
  (takes_opener hf).bind
    ((hp.before fun _ hc => hc.left).after fun _ hc => hc.ahead_nil).block

/-- The text of something is one component besides blanks, if the reader needs no more, and wherever
that component stands the reader takes it. -/
theorem IsText.exists_dense {good : α → Prop} (hp : AtHead good p) (hks : SoundAll ks)
    (h : IsText n p a ks) :
    ∃ k, dense (bareAll ks) = [k] ∧ k.depth ≤ depthAll ks ∧ ∀ m ms,
      (n = m ∨ n + 2 * k.depth ≤ 126 ∧ m + 2 * k.depth ≤ 126) →
        Takes (Ahead m (k :: ms)) (Stand m ms) a p := by
  obtain ⟨k, ls, hskip, hls, htakes⟩ := h.takes hp hks
  refine ⟨k, ?_, ?_, htakes⟩
  · rw [← dense_skip, hskip, dense_cons (isSpace_of_skip hskip), dense_of_skip_nil hls]
  · have hmem : k ∈ bareAll ks := mem_of_mem_skip (hskip ▸ List.mem_cons_self)
    have hdepth := depthAll_le_of_sublist (List.singleton_sublist.mpr hmem)
    rw [depthAll_bareAll] at hdepth
    exact Nat.le_trans (Nat.le_max_left _ _) hdepth

/-- What needs only the next component takes one. -/
theorem AtHead.dense_eq {good : α → Prop} (hp : AtHead good p) {c c' : Cursor}
    (hsound : SoundAll c.rest) (h : p c = .ok (a, c')) :
    (∃ k, dense (bareAll c.rest) = k :: dense (bareAll c'.rest)) ∧ SoundAll c'.rest := by
  cases hskip : skip (bareAll c.rest) with
  | nil =>
    obtain ⟨e, he⟩ := hp.fails_end c ⟨hskip, rfl⟩
    rw [h] at he
    cases he
  | cons k ls =>
    have hmem {k' : Component} (hk' : k' ∈ k :: ls) : k' ∈ bareAll c.rest :=
      mem_of_mem_skip (hskip ▸ hk')
    have hk := isSpace_of_skip hskip
    have hks : SoundAll (k :: ls) := soundAll_iff.mpr fun k' hk' =>
      soundAll_iff.mp ((soundAll_bareAll c.rest).mpr hsound) k' (hmem hk')
    have hahead : Ahead c.nesting (k :: ls) c := ⟨by rw [skip_cons hk, hskip], rfl⟩
    obtain ⟨r, r', hr, -, hfront⟩ := front_of_ahead hk
      (bare_of_mem_bareAll (hmem List.mem_cons_self)) hks.1 hahead hahead (.inl rfl)
    have hagree := hp r r' c c hfront
    rw [h] at hagree
    cases hagree with
    | ok h =>
      obtain ⟨-, hopened, -⟩ := h
      rw [hopened.left]
      exact ⟨⟨k, by rw [hr, ← dense_skip, hskip, dense_cons hk]⟩,
        (soundAll_bareAll r).mp (hr ▸ hks.2)⟩

/-- The component that something is read from, with `n` functions around it. -/
def ReadAt [Readable α] (n : Nat) (a : α) (k : Component) : Prop :=
  ∀ ls, Takes (Ahead n (k :: ls)) (Stand n ls) a read

end Reader

end StyleGrammar
