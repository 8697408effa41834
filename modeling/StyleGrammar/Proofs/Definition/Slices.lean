import StyleGrammar.Grammar.Definition
import Mathlib.Tactic.Common

/-!
# Slices of texts

A slice is in range if it ends between two characters.  So a text can be cut at the bytes of its
front, and nowhere else (`split?_eq_some_iff`), and what is cut from a text is cut from all longer
ones.
-/

namespace StyleGrammar

open List

namespace Definition

variable {p : Char → Bool} {c d : Char} {n : Nat} {f b text start stop : List Char}

@[simp] theorem bytes_nil : bytes [] = 0 := rfl

@[simp] theorem bytes_cons (c : Char) (text : List Char) :
    bytes (c :: text) = c.utf8Size + bytes text := rfl

@[simp] theorem bytes_append (f b : List Char) : bytes (f ++ b) = bytes f + bytes b := by
  induction f with
  | nil => simp
  | cons c f ih => simp [ih, Nat.add_assoc]

theorem split?_append (f b : List Char) : split? (bytes f) (f ++ b) = some (f, b) := by
  induction f with
  | nil => rw [bytes_nil, nil_append, split?]
  | cons c f ih =>
    obtain ⟨size, hsize⟩ := Nat.exists_eq_succ_of_ne_zero (Nat.ne_of_gt c.utf8Size_pos)
    have hcount : bytes (c :: f) = size + bytes f + 1 := by
      rw [bytes_cons, hsize]
      omega
    have hleft : size + bytes f + 1 - c.utf8Size = bytes f := by omega
    rw [hcount, cons_append, split?, if_pos (by omega), hleft, ih]
    rfl

theorem eq_append_of_split? (h : split? n text = some (f, b)) : text = f ++ b ∧ bytes f = n := by
  induction text generalizing n f with
  | nil =>
    cases n with
    | zero =>
      rw [split?] at h
      cases h
      exact ⟨rfl, rfl⟩
    | succ n => cases h
  | cons c text ih =>
    cases n with
    | zero =>
      rw [split?] at h
      cases h
      exact ⟨rfl, rfl⟩
    | succ n =>
      rw [split?] at h
      split at h
      next hle =>
        obtain ⟨⟨f', b'⟩, hsplit, heq⟩ := Option.map_eq_some_iff.mp h
        cases heq
        obtain ⟨rfl, hbytes⟩ := ih hsplit
        exact ⟨rfl, by rw [bytes_cons]; omega⟩
      next => cases h

theorem split?_eq_some_iff : split? n text = some (f, b) ↔ text = f ++ b ∧ bytes f = n := by
  constructor
  · exact eq_append_of_split?
  · rintro ⟨rfl, rfl⟩
    exact split?_append f b

theorem before?_eq_some_iff : before? n text = some f ↔ ∃ b, text = f ++ b ∧ bytes f = n := by
  simp only [before?, Option.map_eq_some_iff, Prod.exists, split?_eq_some_iff]
  constructor
  · rintro ⟨f', b, hcut, rfl⟩
    exact ⟨b, hcut⟩
  · rintro ⟨b, hcut⟩
    exact ⟨f, b, hcut, rfl⟩

theorem behind?_eq_some_iff : behind? n text = some b ↔ ∃ f, text = f ++ b ∧ bytes f = n := by
  simp only [behind?, Option.map_eq_some_iff, Prod.exists, split?_eq_some_iff]
  constructor
  · rintro ⟨f, b', hcut, rfl⟩
    exact ⟨f, hcut⟩
  · rintro ⟨f, hcut⟩
    exact ⟨f, b, hcut, rfl⟩

@[simp] theorem before?_append (f b : List Char) : before? (bytes f) (f ++ b) = some f :=
  before?_eq_some_iff.mpr ⟨b, rfl, rfl⟩

@[simp] theorem behind?_append (f b : List Char) : behind? (bytes f) (f ++ b) = some b :=
  behind?_eq_some_iff.mpr ⟨f, rfl, rfl⟩

@[simp] theorem before?_takeWhile (p : Char → Bool) (text : List Char) :
    before? (bytes (text.takeWhile p)) text = some (text.takeWhile p) :=
  before?_eq_some_iff.mpr ⟨_, takeWhile_append_dropWhile.symm, rfl⟩

@[simp] theorem behind?_takeWhile (p : Char → Bool) (text : List Char) :
    behind? (bytes (text.takeWhile p)) text = some (text.dropWhile p) :=
  behind?_eq_some_iff.mpr ⟨_, takeWhile_append_dropWhile.symm, rfl⟩

/-- Behind a character of one byte. -/
theorem behind?_one (hc : c.utf8Size = 1) : behind? 1 (c :: text) = some text :=
  behind?_eq_some_iff.mpr ⟨[c], rfl, hc⟩

/-- Up to behind a character of one byte. -/
theorem before?_succ (hd : d.utf8Size = 1) :
    before? (bytes f + 1) (f ++ d :: b) = some (f ++ [d]) :=
  before?_eq_some_iff.mpr ⟨b, by simp, by simp [hd]⟩

theorem behind?_succ (hd : d.utf8Size = 1) : behind? (bytes f + 1) (f ++ d :: b) = some b :=
  behind?_eq_some_iff.mpr ⟨f ++ [d], by simp, by simp [hd]⟩

theorem slice?_one (hc : c.utf8Size = 1) : slice? 1 (bytes (c :: f)) (c :: (f ++ b)) = some f := by
  rw [slice?, ← cons_append, before?_append]
  exact behind?_one hc

/-! What is cut from a text is cut from a longer one. -/

theorem before?_append_right (h : before? n text = some f) (more : List Char) :
    before? n (text ++ more) = some f := by
  obtain ⟨b, rfl, hbytes⟩ := before?_eq_some_iff.mp h
  exact before?_eq_some_iff.mpr ⟨b ++ more, append_assoc .., hbytes⟩

theorem behind?_append_right (h : behind? n text = some b) (more : List Char) :
    behind? n (text ++ more) = some (b ++ more) := by
  obtain ⟨f, rfl, hbytes⟩ := behind?_eq_some_iff.mp h
  exact behind?_eq_some_iff.mpr ⟨f, append_assoc .., hbytes⟩

theorem slice?_append_right {m : Nat} (h : slice? m n text = some b) (more : List Char) :
    slice? m n (text ++ more) = some b := by
  obtain ⟨f, hfront, hslice⟩ := Option.bind_eq_some_iff.mp h
  rw [slice?, before?_append_right hfront]
  exact hslice

theorem suffix_of_behind? (h : behind? n text = some b) : b <:+ text := by
  obtain ⟨f, rfl, -⟩ := behind?_eq_some_iff.mp h
  exact suffix_append f b

/-- Behind some bytes the text is shorter. -/
theorem length_lt_of_behind? (h : behind? n text = some b) (hn : 0 < n) :
    b.length < text.length := by
  obtain ⟨f, rfl, hbytes⟩ := behind?_eq_some_iff.mp h
  have hf : 0 < f.length := by
    cases f with
    | nil =>
      subst hbytes
      cases hn
    | cons c f => exact Nat.succ_pos _
  rw [length_append]
  omega

/-! ## Seeking -/

theorem seek?_append (hf : ∀ c ∈ f, p c = false) (hd : p d = true) :
    seek? p (f ++ d :: b) = some (bytes f) := by
  induction f with
  | nil => rw [nil_append, seek?, if_pos hd, bytes_nil]
  | cons c f ih =>
    obtain ⟨hc, hf⟩ := forall_mem_cons.mp hf
    rw [cons_append, seek?, if_neg (by rw [hc]; exact Bool.false_ne_true), ih hf, bytes_cons]
    rfl

/-- What is found is behind characters of other kinds. -/
theorem exists_of_seek? (h : seek? p text = some n) :
    ∃ f d b, text = f ++ d :: b ∧ (∀ c ∈ f, p c = false) ∧ p d = true ∧ n = bytes f := by
  induction text generalizing n with
  | nil => cases h
  | cons c text ih =>
    rw [seek?] at h
    split at h
    next hc =>
      cases h
      exact ⟨[], c, text, rfl, by simp, hc, rfl⟩
    next hc =>
      obtain ⟨m, hm, rfl⟩ := Option.map_eq_some_iff.mp h
      obtain ⟨f, d, b, rfl, hf, hd, rfl⟩ := ih hm
      exact ⟨c :: f, d, b, rfl, forall_mem_cons.mpr ⟨Bool.eq_false_iff.mpr hc, hf⟩, hd, rfl⟩

theorem seek?_append_right (h : seek? p text = some n) (more : List Char) :
    seek? p (text ++ more) = some n := by
  obtain ⟨f, d, b, rfl, hf, hd, rfl⟩ := exists_of_seek? h
  rw [append_assoc]
  exact seek?_append hf hd

/-- What stands in front of the place that is found is of other kinds. -/
theorem forall_of_slice? {m : Nat} (hfound : seek? p text = some n)
    (hslice : slice? m n text = some b) : ∀ c ∈ b, p c = false := by
  obtain ⟨f, d, behind, rfl, hf, -, rfl⟩ := exists_of_seek? hfound
  rw [slice?, before?_append] at hslice
  have hsuffix : b <:+ f := suffix_of_behind? hslice
  exact fun c hc => hf c (hsuffix.subset hc)

/-! ## Texts between two points -/

@[simp] theorem between?_append (f b : List Char) : between? (f ++ b) b = some f := by
  rw [between?, bytes_append, if_pos (Nat.le_add_left _ _), Nat.add_sub_cancel, before?_append]

theorem exists_between? (h : stop <:+ start) : ∃ text, between? start stop = some text := by
  obtain ⟨f, rfl⟩ := h
  exact ⟨f, between?_append f stop⟩

end Definition

end StyleGrammar
