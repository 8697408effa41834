import StyleGrammar.Proofs.Token.Blocks

/-!
# The names in a text

The names that a text holds are not empty, and no character of theirs is the
null character, which reading replaces.
-/

namespace StyleGrammar

/-- Names that identifiers of a text have. -/
structure IsName (s : String) : Prop where
  nonempty : s ≠ ""
  sound : Scan.Sound s.toList

/-- Tokens as they come from a text. -/
def Token.Sound : Token → Prop
  | ident n | idHash n => IsName n
  | _ => True

namespace Component

mutual

/-- Components as they come from a text: a block has the token that opens it, and the tokens are
sound. -/
def Sound : Component → Prop
  | token t _ => t.closer? = none ∧ t.Sound
  | blanks _ => True
  | comment _ => True
  | block t _ content _ => t.closer?.isSome = true ∧ t.Sound ∧ SoundAll content

def SoundAll : List Component → Prop
  | [] => True
  | k :: ks => Sound k ∧ SoundAll ks

end

theorem soundAll_iff {ks : List Component} : SoundAll ks ↔ ∀ k ∈ ks, k.Sound := by
  induction ks with
  | nil => simp [SoundAll]
  | cons k ks ih => simp [SoundAll, ih]

mutual

theorem sound_bare (k : Component) : k.bare.Sound ↔ k.Sound := by
  cases k with
  | block t l content stop => simp [bare, Sound, soundAll_bareAll content]
  | _ => rfl

theorem soundAll_bareAll (ks : List Component) : SoundAll (bareAll ks) ↔ SoundAll ks := by
  cases ks with
  | nil => rfl
  | cons k ks => simp [bareAll, SoundAll, sound_bare k, soundAll_bareAll ks]

end

end Component

namespace Scan

theorem val_ne_zero_of_charOf (n : Nat) : (charOf n).val ≠ 0 := by
  unfold charOf
  split
  · decide
  · next h =>
    have h0 : n ≠ 0 := fun h0 => h (by simp [h0])
    have hvalid : n.isValidChar := by
      by_contra hvalid
      exact h (by simp [hvalid])
    intro hzero
    rw [Char.ofNat, dif_pos hvalid] at hzero
    have hzero := congrArg UInt32.toNat hzero
    exact h0 hzero

theorem val_ne_zero_of_escape (s : List Char) : (escape s).1.val ≠ 0 := by
  have hreplacement : Escape.replacement.val ≠ 0 := by decide
  unfold escape
  split
  · exact hreplacement
  · split
    · exact val_ne_zero_of_charOf _
    · split
      · exact hreplacement
      · next h => exact h

theorem sound_name (s : List Char) : Sound (name s).1 := by
  fun_induction name s with
  | case1 => simp [Sound]
  | case2 => simp [Sound]
  | case3 r h n ih =>
    intro c hc
    rcases List.mem_cons.mp hc with rfl | hc
    · exact val_ne_zero_of_escape r
    · exact ih c hc
  | case4 c r hb h0 n ih =>
    intro d hd
    rcases List.mem_cons.mp hd with rfl | hd
    · decide
    · exact ih d hd
  | case5 c r hb h0 hname n ih =>
    intro d hd
    rcases List.mem_cons.mp hd with rfl | hd
    · exact h0
    · exact ih d hd
  | case6 => simp [Sound]

theorem name_ne_nil {s : List Char} (h : startsName s = true) : (name s).1 ≠ [] := by
  cases s with
  | nil => cases h
  | cons c r =>
    rw [name]
    split
    · next hb =>
      subst hb
      have : startsWithNewline r = false := by simpa [startsName] using h
      simp [this]
    · next hb =>
      split
      · simp
      · next h0 =>
        have hplain : isNameChar c = true := by
          by_cases hdash : c = '-'
          · subst hdash
            rfl
          · rw [startsName_cons hdash hb] at h
            simp only [Bool.or_eq_true, decide_eq_true_eq, h0, or_false] at h
            rcases h with (h | h) | h
            · simp [isNameChar, Escape.isPlain, Char.isAlphanum, h]
            · simp [isNameChar, Escape.isPlain, h]
            · simp [isNameChar, Escape.isPlain, h]
        simp [hplain]

theorem sound_ident {s : List Char} (h : startsName s = true) :
    (Token.ident (String.ofList (name s).1)).Sound := by
  refine ⟨?_, by simpa using sound_name s⟩
  simpa using name_ne_nil h

theorem sound_identLike {s : List Char} (h : startsName s = true) : (identLike s).1.Sound := by
  unfold identLike
  dsimp only
  split
  · split
    · unfold addressToken
      split
      · trivial
      · split
        · trivial
        · split <;> trivial
    · trivial
  · exact sound_ident h

theorem sound_token (c : Char) (r : List Char) : (token c r).1.Sound := by
  unfold token
  split
  · next t h => cases t <;> first | trivial | (unfold single? at h; split at h <;> cases h)
  split
  · next t h =>
    unfold pair
    split
    · cases t <;> first | trivial | (unfold pair? at h; split at h <;> cases h)
    · trivial
  split
  · split <;> trivial
  split
  · unfold afterHash
    split
    · next h => exact sound_ident h
    · split
      · split <;> trivial
      · trivial
  split
  · split
    · unfold numeric
      dsimp only
      split
      · trivial
      · split <;> trivial
    split
    · trivial
    split
    · next h => exact sound_identLike h
    · trivial
  split
  · unfold numeric
    dsimp only
    split
    · trivial
    · split <;> trivial
  split
  · trivial
  split
  · split <;> trivial
  split
  · next h => exact sound_identLike h
  · trivial

theorem sound_of_mem_lexes {s : List Char} {t : Token} (h : .token t ∈ lexes s) : t.Sound := by
  fun_induction lexes s with
  | case1 => simp at h
  | case2 c r ih =>
    rcases List.mem_cons.mp h with h | h
    · unfold lexeme at h
      split at h
      · cases h
      split at h
      · cases h
      · cases h
        exact sound_token c r
    · exact ih h

end Scan

namespace Component

variable {P : Token → Prop} {Q : Component → Prop}

/-- What holds of components that are built from tokens with a property. -/
structure Follows (P : Token → Prop) (Q : Component → Prop) : Prop where
  token : ∀ t l, t.closer? = none → P t → Q (token t l)
  blanks : ∀ l, Q (blanks l)
  comment : ∀ l, Q (comment l)
  block : ∀ t l content stop, t.closer?.isSome = true → P t → (∀ k ∈ content, Q k) →
    Q (block t l content stop)

namespace Fold

/-- The finished components and those in open blocks, and the tokens that opened the blocks. -/
structure Holds (P : Token → Prop) (Q : Component → Prop) (f : Fold) : Prop where
  done : ∀ k ∈ f.done, Q k
  opened : ∀ o ∈ f.opened, o.opener.closer?.isSome = true ∧ P o.opener ∧ ∀ k ∈ o.content, Q k

theorem Holds.push {f : Fold} (hf : f.Holds P Q) {k : Component} (hk : Q k) :
    (f.push k).Holds P Q := by
  obtain ⟨hdone, hopened⟩ := hf
  unfold Fold.push
  cases h : f.opened with
  | nil =>
    rw [h] at hopened
    exact ⟨by simpa using ⟨hk, hdone⟩, by simp⟩
  | cons o os =>
    rw [h] at hopened
    obtain ⟨⟨hcloser, hopener, hcontent⟩, hrest⟩ := List.forall_mem_cons.mp hopened
    exact ⟨hdone, List.forall_mem_cons.mpr
      ⟨⟨hcloser, hopener, List.forall_mem_cons.mpr ⟨hk, hcontent⟩⟩, hrest⟩⟩

variable (hQ : Follows P Q)

include hQ

theorem Holds.close {f : Fold} (hf : f.Holds P Q) (stop : Location) : (f.close stop).Holds P Q := by
  have hopened := hf.opened
  unfold Fold.close
  cases h : f.opened with
  | nil => exact hf
  | cons o os =>
    rw [h] at hopened
    obtain ⟨⟨hcloser, hopener, hcontent⟩, hrest⟩ := List.forall_mem_cons.mp hopened
    have hrest : Fold.Holds P Q { f with opened := os } := ⟨hf.done, hrest⟩
    refine hrest.push (hQ.block _ _ _ _ hcloser hopener ?_)
    simpa using hcontent

theorem Holds.step {f : Fold} (hf : f.Holds P Q) {l : Located}
    (hl : ∀ t, l.lexeme = .token t → P t) : (f.step l).Holds P Q := by
  unfold Fold.step
  split
  · exact hf.push (hQ.blanks _)
  · exact hf.push (hQ.comment _)
  · next t ht =>
    split
    · next hcloser =>
      exact ⟨hf.done, List.forall_mem_cons.mpr ⟨⟨hcloser, hl t ht, by simp⟩, hf.opened⟩⟩
    · next hcloser =>
      have hpush : (f.push (.token t l.stop)).Holds P Q :=
        hf.push (hQ.token _ _ (by simpa using hcloser) (hl t ht))
      split
      · split
        · exact hf.close hQ l.stop
        · exact hpush
      · exact hpush

theorem Holds.finish {f : Fold} (hf : f.Holds P Q) (stop : Location) :
    ∀ k ∈ f.finish stop, Q k := by
  have hclose (os : List Open) (g : Fold) (hg : g.Holds P Q) :
      (os.foldl (fun f _ => f.close stop) g).Holds P Q := by
    induction os generalizing g with
    | nil => exact hg
    | cons o os ih => exact ih _ (hg.close hQ stop)
  rw [Fold.finish]
  simpa using (hclose f.opened f hf).done

end Fold

/-- What follows from a property of the tokens of a text holds of its components. -/
theorem forall_mem_ofText (hQ : Follows P Q) {s : List Char}
    (hP : ∀ t, .token t ∈ Scan.lexes s → P t) : ∀ k ∈ ofText s, Q k := by
  have hstep (ls : List Located) (hls : ∀ l ∈ ls, ∀ t, l.lexeme = .token t → P t) (f : Fold)
      (hf : f.Holds P Q) : (ls.foldl Fold.step f).Holds P Q := by
    induction ls generalizing f with
    | nil => exact hf
    | cons l ls ih =>
      obtain ⟨hl, hls⟩ := List.forall_mem_cons.mp hls
      exact ih hls _ (hf.step hQ hl)
  refine Fold.Holds.finish hQ (hstep _ (fun l hl t ht => hP t ?_) _ ⟨by simp, by simp⟩) _
  have hmem := List.mem_map_of_mem (f := Located.lexeme) hl
  rwa [map_lexeme_lexemes, ht] at hmem

theorem follows_sound : Follows Token.Sound Sound where
  token _ _ hcloser ht := ⟨hcloser, ht⟩
  blanks _ := trivial
  comment _ := trivial
  block _ _ _ _ hcloser ht hcontent := ⟨hcloser, ht, soundAll_iff.mpr hcontent⟩

theorem soundAll_ofText (s : List Char) : SoundAll (ofText s) :=
  soundAll_iff.mpr (forall_mem_ofText follows_sound fun _ => Scan.sound_of_mem_lexes)

end Component

end StyleGrammar
