import StyleGrammar.Proofs.Reader.Success
import StyleGrammar.Proofs.Token.Written

/-!
# The strings in a text

A null character is replaced wherever a text holds one, also if it is escaped.  So
no string that is read from a text has one.  What holds of all tokens of a text is
shown of what a reader makes of them along the reader: no cursor has other tokens.
-/

namespace StyleGrammar

/-- A string without null characters, or any other token. -/
def Token.Clean (t : Token) : Prop := ∀ s, t = .quotedString s → Scan.Sound s.toList

namespace Scan

theorem sound_string (quote : Char) (s : List Char) : Sound (string quote s).1.1 := by
  fun_induction string quote s with
  | case6 r _ _ t _ _ ih =>
    intro c hc
    rcases List.mem_cons.mp hc with rfl | hc
    · exact val_ne_zero_of_escape r
    · exact ih c hc
  | case7 c r _ _ _ t ih =>
    intro d hd
    rcases List.mem_cons.mp hd with rfl | hd
    · split
      · decide
      · next h => exact h
    · exact ih d hd
  | case5 r _ _ _ _ ih => exact ih
  | _ => simp [Sound]

theorem clean_identLike (s : List Char) : (identLike s).1.Clean := by
  intro t h
  unfold identLike addressToken at h
  dsimp only at h
  repeat' split at h
  all_goals cases h

theorem clean_numeric (s : List Char) : (numeric s).1.Clean := by
  intro t h
  unfold numeric at h
  dsimp only at h
  repeat' split at h
  all_goals cases h

theorem clean_token (c : Char) (r : List Char) : (token c r).1.Clean := by
  unfold token
  split
  · next t h =>
    rintro s rfl
    unfold single? at h
    split at h <;> cases h
  split
  · next t h =>
    rintro s hs
    unfold pair at hs
    split at hs
    · subst hs
      unfold pair? at h
      split at h <;> cases h
    · cases hs
  split
  · split
    · next s rest h =>
      rintro s' hs
      cases hs
      simpa [h] using sound_string c r
    · rintro s' ⟨⟩
  split
  · unfold afterHash
    rintro s hs
    repeat' split at hs
    all_goals cases hs
  split
  · split
    · exact clean_numeric _
    split
    · rintro s ⟨⟩
    split
    · exact clean_identLike _
    · rintro s ⟨⟩
  split
  · exact clean_numeric _
  split
  · rintro s ⟨⟩
  split
  · split <;> rintro s ⟨⟩
  split
  · exact clean_identLike _
  · rintro s ⟨⟩

theorem clean_of_mem_lexes {s : List Char} {t : Token} (h : .token t ∈ lexes s) : t.Clean := by
  fun_induction lexes s with
  | case1 => simp at h
  | case2 c r ih =>
    rcases List.mem_cons.mp h with h | h
    · unfold lexeme at h
      split at h
      · cases h
      split at h
      · cases h
      · cases h
        exact clean_token c r
    · exact ih h

end Scan

namespace Component

/-- The tokens of a component have a property, those in blocks included. -/
inductive Every (P : Token → Prop) : Component → Prop
  | token {t : Token} {l : Location} (ht : P t) : Every P (.token t l)
  | blanks (l : Location) : Every P (.blanks l)
  | comment (l : Location) : Every P (.comment l)
  | block {t : Token} {l stop : Location} {content : List Component} (ht : P t)
      (hcontent : ∀ k ∈ content, Every P k) : Every P (.block t l content stop)

theorem follows_every (P : Token → Prop) : Follows P (Every P) where
  token _ _ _ ht := .token ht
  blanks := .blanks
  comment := .comment
  block _ _ _ _ _ ht hcontent := .block ht hcontent

end Component

open Component

namespace Reader

variable {P : Token → Prop} {α β : Type} {p : Reader α} {good : α → Prop} {good' : β → Prop}
  {c c' : Cursor} {t : Token}

/-- A cursor whose tokens have a property. -/
structure Within (P : Token → Prop) (c : Cursor) : Prop where
  rest : ∀ k ∈ c.rest, k.Every P
  entered : ∀ e ∈ c.entered, ∀ k ∈ e.content, k.Every P

theorem within_nextOf {n : Nat} {l : Location} {ks : List Component} (hks : ∀ k ∈ ks, k.Every P)
    (h : Cursor.nextOf n l ks = .ok (t, c')) : P t ∧ Within P c' := by
  induction ks generalizing l with
  | nil => cases h
  | cons k ks ih =>
    obtain ⟨hk, hrest⟩ := List.forall_mem_cons.mp hks
    cases k with
    | blanks | comment => exact ih hrest h
    | token =>
      cases h
      cases hk with
      | token ht => exact ⟨ht, hrest, by simp⟩
    | block =>
      cases h
      cases hk with
      | block ht hcontent => exact ⟨ht, hrest, by simpa using hcontent⟩

/-- From a cursor with such tokens a reader makes what is good, and leaves such a cursor. -/
def Among (P : Token → Prop) (p : Reader α) (good : α → Prop) : Prop :=
  ∀ c, Within P c → ∀ a c', p c = .ok (a, c') → good a ∧ Within P c'

theorem Among.pure {a : α} (h : good a) : Among P (pure a) good := by
  intro c hc a' c' hrun
  cases hrun
  exact ⟨h, hc⟩

theorem Among.bind {f : α → Reader β} (hp : Among P p good)
    (hf : ∀ a, good a → Among P (f a) good') : Among P (p >>= f) good' := by
  intro c hc b c' h
  obtain ⟨a, d, ha, hb⟩ := of_bind h
  obtain ⟨hgood, hd⟩ := hp c hc a d ha
  exact hf a hgood d hd b c' hb

theorem Among.expect {f : Token → Option α} (hf : ∀ t a, P t → f t = some a → good a) :
    Among P (expect f) good := by
  intro c hc a c' h
  obtain ⟨t, hnext, ha⟩ := of_expect h
  rw [Cursor.next, Cursor.leave_rest] at hnext
  obtain ⟨ht, hc'⟩ := within_nextOf hc.rest hnext
  exact ⟨hf t a ht ha, hc'⟩

theorem Among.expectAny (f : Token → Option α) : Among P (Reader.expect f) fun _ => True :=
  .expect fun _ _ _ _ => trivial

theorem Among.attempt (hp : Among P p good) : Among P (attempt p) fun a? => ∀ a ∈ a?, good a := by
  intro c hc a? c' h
  rcases of_attempt h with ⟨a, rfl, hpc⟩ | ⟨rfl, rfl⟩
  · obtain ⟨hgood, hc'⟩ := hp c hc a c' hpc
    exact ⟨by simpa using hgood, hc'⟩
  · exact ⟨by simp, hc⟩

theorem Among.block (hp : Among P p good) : Among P (block p) good := by
  intro c hc a c' h
  obtain ⟨e, d, he, hentirely, rfl⟩ := of_block h
  obtain ⟨hgood, -⟩ := hp _ ⟨hc.entered e he, by simp⟩ a d (of_entirely hentirely).1
  exact ⟨hgood, hc.rest, by simp⟩

theorem Among.good_of_run (hp : Among Token.Clean p good) {s : String} {a : α}
    (h : p.run s = .ok a) : good a := by
  obtain ⟨c, hc⟩ := of_run h
  refine (hp _ ⟨?_, by simp [Cursor.ofText]⟩ a c (of_entirely hc).1).1
  exact forall_mem_ofText (follows_every _) fun _ => Scan.clean_of_mem_lexes

end Reader

end StyleGrammar
