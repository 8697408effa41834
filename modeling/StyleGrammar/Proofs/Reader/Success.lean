import StyleGrammar.Proofs.Reader.Heads

/-!
# What a success says of its parts

A reader that is put together from others succeeds only where they do.  The readers
of blocks and of deeper levels say also from which cursor the inner reader began
and where it left the outer one.
-/

namespace StyleGrammar

namespace Reader

variable {α β : Type} {p : Reader α} {a : α} {b : β} {c c' d : Cursor} {t : Token}

/-- What passes a check was read. -/
theorem exists_of_any {ε α : Type} {x : Except ε α} {check : α → Bool}
    (h : x.toOption.any check = true) : ∃ a, x = .ok a ∧ check a = true := by
  cases x with
  | error e => cases h
  | ok a => exact ⟨a, rfl, h⟩

/-- An attempt succeeds as its reader does, or leaves the cursor as it is. -/
theorem of_attempt {a? : Option α} (h : attempt p c = .ok (a?, c')) :
    (∃ a, a? = some a ∧ p c = .ok (a, c')) ∨ (a? = none ∧ c' = c) := by
  unfold attempt at h
  split at h
  · next a d hpc =>
    cases h
    exact .inl ⟨a, rfl, hpc⟩
  · cases h
    exact .inr ⟨rfl, rfl⟩

/-- A block is read in its content, and the outer cursor goes on behind it. -/
theorem of_block (h : block p c = .ok (a, c')) :
    ∃ e d, c.entered = some e ∧ entirely p ⟨e.content, c.here, none, c.nesting⟩ = .ok (a, d) ∧
      c' = { c with here := e.stop, entered := none } := by
  unfold Reader.block at h
  cases he : c.entered with
  | none =>
    rw [he] at h
    cases h
  | some e =>
    rw [he] at h
    dsimp only at h
    cases hp : entirely p ⟨e.content, c.here, none, c.nesting⟩ with
    | error f =>
      rw [hp] at h
      cases h
    | ok x =>
      rw [hp] at h
      cases h
      exact ⟨e, x.2, rfl, hp, rfl⟩

/-- One level deeper there is still room. -/
theorem of_nested_deeper (h : nested p c = .ok (a, c')) :
    c.nesting < nestingLimit ∧ ∃ d, p { c with nesting := c.nesting + 1 } = .ok (a, d) ∧
      c' = { d with nesting := c.nesting } := by
  by_cases hlt : c.nesting < nestingLimit
  · rw [nested_of_lt p hlt] at h
    cases hp : p { c with nesting := c.nesting + 1 } with
    | error e =>
      rw [hp] at h
      cases h
    | ok x =>
      rw [hp] at h
      cases h
      exact ⟨hlt, x.2, rfl, rfl⟩
  · rw [nested, if_neg hlt] at h
    cases h

/-- The next token does not depend on the level. -/
theorem next_deeper_ok (h : c.next = .ok (t, d)) :
    ({ c with nesting := c.nesting + 1 } : Cursor).next =
      .ok (t, { d with nesting := c.nesting + 1 }) := by
  rw [next_deeper, h]
  rfl

/-- What was expected is what the next token stands for. -/
theorem of_expect_next {f : Token → Option α} (hnext : c.next = .ok (t, d))
    (h : expect f c = .ok (a, c')) : f t = some a ∧ c' = d := by
  obtain ⟨t', ht, hf⟩ := of_expect h
  rw [hnext] at ht
  cases ht
  exact ⟨hf, rfl⟩

/-- A reader that begins with an expected token goes on behind the next one. -/
theorem of_expect_bind {f : Token → Option α} {g : α → Reader β} (hnext : c.next = .ok (t, d))
    (h : (expect f >>= g) c = .ok (b, c')) : ∃ a, f t = some a ∧ g a d = .ok (b, c') := by
  obtain ⟨a, e, hexpect, hg⟩ := of_bind h
  obtain ⟨hf, rfl⟩ := of_expect_next hnext hexpect
  exact ⟨a, hf, hg⟩

theorem of_place_bind {g : Location → Reader β} (h : (place >>= g) c = .ok (b, c')) :
    g c.here c = .ok (b, c') := h

/-! What a reader yields, wherever it begins. -/

section Yields

variable {good : α → Prop} {good' : β → Prop}

/-- All that a reader yields has a property. -/
def Yields (p : Reader α) (good : α → Prop) : Prop := ∀ c a c', p c = .ok (a, c') → good a

theorem good_of_yields (good : α → Prop) (h : p c = .ok (a, c')) (hp : Yields p good) : good a :=
  hp c a c' h

theorem yields_bind {f : α → Reader β} (hp : Yields p good)
    (hf : ∀ a, good a → Yields (f a) good') : Yields (p >>= f) good' := by
  intro c b c' h
  obtain ⟨a, d, ha, hb⟩ := of_bind h
  exact hf a (hp c a d ha) d b c' hb

theorem yields_true (p : Reader α) : Yields p fun _ => True := fun _ _ _ _ => trivial

/-- What was read first does not matter. -/
theorem yields_after {f : α → Reader β} (hf : ∀ a, Yields (f a) good') : Yields (p >>= f) good' :=
  yields_bind (yields_true p) fun a _ => hf a

theorem yields_pure (h : good a) : Yields (pure a) good := by
  intro c a' c' hrun
  cases hrun
  exact h

theorem yields_map {f : α → β} (hp : Yields p good) (hf : ∀ a, good a → good' (f a)) :
    Yields (f <$> p) good' :=
  fun c b c' h => yields_bind hp (fun a ha => yields_pure (hf a ha)) c b c' h

theorem yields_fail (cause : Cause) : Yields (fail cause) good := by
  intro c a c' h
  cases h

theorem yields_ite {q : Reader α} {i : Prop} [Decidable i] (hp : Yields p good)
    (hq : Yields q good) : Yields (if i then p else q) good := by
  split
  · exact hp
  · exact hq

theorem yields_attempt (hp : Yields p good) : Yields (attempt p) fun a? => ∀ a ∈ a?, good a := by
  intro c a? c' h
  rcases of_attempt h with ⟨a, rfl, hpc⟩ | ⟨rfl, -⟩
  · simpa using hp c a c' hpc
  · simp

theorem yields_nested (hp : Yields p good) : Yields (nested p) good := by
  intro c a c' h
  obtain ⟨d, d', hd⟩ := of_nested h
  exact hp d a d' hd

theorem yields_entirely (hp : Yields p good) : Yields (entirely p) good := by
  intro c a c' h
  exact hp c a c' (of_entirely h).1

theorem yields_block (hp : Yields p good) : Yields (block p) good := by
  intro c a c' h
  obtain ⟨e, d, -, hd, -⟩ := of_block h
  exact yields_entirely hp _ a d hd

theorem yields_untilEndWithin (hp : Yields p good) (count : Nat) :
    Yields (untilEndWithin p count) fun as => ∀ a ∈ as, good a := by
  induction count with
  | zero => exact yields_pure fun a ha => absurd ha List.not_mem_nil
  | succ n ih =>
    rw [untilEndWithin]
    refine yields_after fun stop => ?_
    cases stop with
    | true => exact yields_pure fun a ha => absurd ha List.not_mem_nil
    | false =>
      refine yields_bind hp fun a ha => yields_bind ih fun as has => yields_pure ?_
      exact List.forall_mem_cons.mpr ⟨ha, has⟩

theorem yields_untilEnd (hp : Yields p good) : Yields (untilEnd p) fun as => ∀ a ∈ as, good a :=
  yields_after fun _ => yields_untilEndWithin hp _

theorem good_of_run (hp : Yields p good) {s : String} (h : p.run s = .ok a) : good a := by
  obtain ⟨c, hc⟩ := of_run h
  exact yields_entirely hp _ a c hc

end Yields

end Reader

end StyleGrammar
