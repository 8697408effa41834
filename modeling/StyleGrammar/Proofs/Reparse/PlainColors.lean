import StyleGrammar.Proofs.Reparse.Keywords

/-!
# Plain colors are read back from their text

A color of one token is written as one token again: a name as it stands in the
table, and hexadecimal notation with the digits of its channels.
-/

namespace StyleGrammar

open Reader Output Component Scan

/-! Names. -/

theorem isPlain_of_isAlpha {c : Char} (h : c.isAlpha = true) : Escape.isPlain c = true := by
  simp [Escape.isPlain, Char.isAlphanum, h]

theorem name_of_isPlain {s : List Char} (h : ∀ c ∈ s, Escape.isPlain c = true) :
    Escape.name s = s := by
  induction s with
  | nil => rfl
  | cons c s ih =>
    have hc : Escape.nameChar c = [c] := if_pos (h c List.mem_cons_self)
    have hs := ih fun d hd => h d (List.mem_cons_of_mem c hd)
    rw [Escape.name, List.flatMap_cons, hc, ← Escape.name, hs]
    rfl

theorem identifier_of_isAlpha {c : Char} {s : List Char} (hc : c.isAlpha = true)
    (hs : ∀ d ∈ s, Escape.isPlain d = true) : Escape.identifier (c :: s) = c :: s := by
  have hhyphen : c ≠ '-' := by rintro rfl; cases hc
  have hdigit : c.isDigit = false := isDigit_eq_false_of_isName (by simp [hc])
  have hfirst : Escape.nameChar c = [c] := if_pos (isPlain_of_isAlpha hc)
  unfold Escape.identifier
  split
  · next h => cases h
  · next h =>
    cases h
    exact absurd rfl hhyphen
  · next h =>
    cases h
    exact absurd rfl hhyphen
  · next h =>
    cases h
    exact absurd rfl hhyphen
  · next h =>
    cases h
    simp [hdigit, hfirst, name_of_isPlain hs]

theorem IsWord.of_isLettered {s : String} (h : isLettered s = true) : IsWord s := by
  simp only [isLettered, Bool.and_eq_true, List.all_eq_true] at h
  obtain ⟨hne, hletters⟩ := h
  obtain ⟨c, r, hs⟩ : ∃ c r, s.toList = c :: r := by
    cases hs : s.toList with
    | nil => simp [hs] at hne
    | cons c r => exact ⟨c, r, rfl⟩
  rw [hs] at hletters
  have hplain : ∀ d ∈ r, Escape.isPlain d = true := fun d hd =>
    isPlain_of_isAlpha (hletters d (List.mem_cons_of_mem c hd))
  refine ⟨?_, ?_, ?_⟩
  · rw [identifierText, hs, identifier_of_isAlpha (hletters c List.mem_cons_self) hplain, ← hs,
      String.ofList_toList]
  · rintro rfl
    cases hs
  · rw [hs]
    intro d hd h0
    have hd0 : d = '\x00' := Char.ext h0
    have := hletters d hd
    rw [hd0] at this
    cases this

/-- The name of a color stands for that color. -/
theorem PlainColor.reads_name {s : String} {c : PlainColor} (h : PlainColor.ofName? s = some c)
    (compact : Bool) :
    ∃ n, NeatAs (print compact c) [.token (.ident n) .start] ∧ PlainColor.ofName? n = some c := by
  have hsame {n m : String} (h : sameName n m = true) : n.toLower = m.toLower := by
    simpa [sameName] using h
  unfold PlainColor.ofName? at h
  split at h
  · cases h
    have hword : IsWord "currentcolor" := (isWord_iff _).mp (by decide)
    exact ⟨"currentcolor", hword.neatAs, by decide +kernel⟩
  · next hcurrent =>
    have hname {n : String} (h : sameName n s = true) :
        PlainColor.ofName? n = PlainColor.ofName? s := by
      rw [← ofName?_toLower, hsame h, ofName?_toLower]
    split at h
    · next n hn =>
      cases h
      have hword := IsWord.of_isLettered
        (isLettered_of_mem_colors n (List.mem_append_left _ (List.mem_of_find?_eq_some hn)))
      refine ⟨n, hword.neatAs, ?_⟩
      rw [hname (by simpa using List.find?_some hn), PlainColor.ofName?, if_neg hcurrent, hn]
    · next hnone =>
      cases hn : PlainColor.systemColor? s with
      | none => simp [hn] at h
      | some n =>
        rw [hn] at h
        cases h
        have hword := IsWord.of_isLettered
          (isLettered_of_mem_colors n (List.mem_append_right _ (List.mem_of_find?_eq_some hn)))
        refine ⟨n, hword.neatAs, ?_⟩
        rw [hname (by simpa using List.find?_some hn), PlainColor.ofName?,
          if_neg hcurrent, hnone, hn]
        rfl

/-! Hexadecimal notation. -/

theorem lexes_hash (s : List Char) :
    lexes ('#' :: s) = .token (afterHash s).1 :: lexes (afterHash s).2 := by
  refine lexes_cons ?_
  rw [lexeme_of_not_space (by decide) (by decide)]
  simp [Scan.token, single?, Scan.pair?]

/-- A hash and letters or digits are one token. -/
theorem Makes.hash {s : List Char} (hs : s ≠ []) (h : s.all Char.isAlphanum = true) :
    ∃ t, (t = .hash (String.ofList s) ∨ t = .idHash (String.ofList s)) ∧
      Makes wordStops ('#' :: s) [.token t .start] := by
  have hplain : s.all Escape.isPlain = true := by
    simp only [List.all_eq_true] at h ⊢
    exact fun c hc => by simp [Escape.isPlain, h c hc]
  have hword : Word s := by
    refine word_of_all (List.all_eq_true.mpr fun c hc => ?_)
    simp [isWordChar, List.all_eq_true.mp hplain c hc]
  have hname : name s = (s, []) := by
    have := name_of_all_isPlain hplain (name_of_apart (apart_nil wordStops))
    rwa [List.append_nil] at this
  have hafter : (afterHash s).2 = [] ∧
      ((afterHash s).1 = .hash (String.ofList s) ∨
      (afterHash s).1 = .idHash (String.ofList s)) := by
    unfold afterHash
    by_cases hstarts : startsName s = true
    · simp [hstarts, hname]
    · cases s with
      | nil => exact absurd rfl hs
      | cons c r =>
        have hc : c.isAlphanum = true := List.all_eq_true.mp h c List.mem_cons_self
        have hhyphen : c ≠ '-' := by rintro rfl; cases hc
        have hb : c ≠ '\\' := by rintro rfl; cases hc
        have hdigit : c.isDigit = true := by
          rw [startsName_cons hhyphen hb] at hstarts
          simp only [Bool.or_eq_true, not_or] at hstarts
          simpa [Char.isAlphanum, hstarts.1.1.1] using hc
        simp [hstarts, hdigit, hname]
  refine ⟨(afterHash s).1, hafter.2, fun post hpost f => ?_⟩
  rw [List.cons_append, lexes_hash, (afterHash_append hword hpost).2, hafter.1, List.nil_append,
    Fold.after_cons, Fold.step_inert (afterHash_isInert s)]
  rfl

namespace Rgba

theorem isAlphanum_digit : ∀ n < 16, (Nat.digitChar n).isAlphanum = true := by decide

/-- The digits that are printed for a channel stand for it. -/
theorem hexadecimal_digits : ∀ m < 256,
    pair? (digit (UInt8.ofNat m / 16)) (digit (UInt8.ofNat m % 16)) = some (UInt8.ofNat m) ∧
      (UInt8.ofNat m % 17 = 0 → single? (digit (UInt8.ofNat m / 17)) = some (UInt8.ofNat m)) := by
  decide +kernel

theorem pair?_digits (n : UInt8) : pair? (digit (n / 16)) (digit (n % 16)) = some n := by
  simpa using (hexadecimal_digits n.toNat n.toNat_lt).1

theorem single?_digit {n : UInt8} (h : n % 17 = 0) : single? (digit (n / 17)) = some n := by
  have := (hexadecimal_digits n.toNat n.toNat_lt).2
  rw [UInt8.ofNat_toNat] at this
  exact this h

/-- The digits of a color. -/
def digits (c : Rgba) : List Char :=
  c.written.flatMap fun n =>
    if c.written.all (· % 17 = 0) then [digit (n / 17)] else [digit (n / 16), digit (n % 16)]

theorem chars_print (compact : Bool) (c : Rgba) : chars (print compact c) = '#' :: c.digits := by
  unfold print instPrintableRgba digits
  dsimp only
  rw [chars_append, chars_char]
  split <;> simp [chars_flatMap, chars_printPair]

theorem isAlphanum_digits (c : Rgba) : c.digits.all Char.isAlphanum = true := by
  have hsmall (n : UInt8) : (n / 16).toNat < 16 ∧ (n % 16).toNat < 16 ∧ (n / 17).toNat < 16 := by
    have := n.toNat_lt
    simp only [UInt8.toNat_div, UInt8.toNat_mod, UInt8.reduceToNat]
    omega
  simp only [digits, List.all_flatMap, List.all_eq_true]
  intro n _
  obtain ⟨hn₁, hn₂, hn₃⟩ := hsmall n
  have hhigh : (digit (n / 16)).isAlphanum = true := isAlphanum_digit _ hn₁
  have hlow : (digit (n % 16)).isAlphanum = true := isAlphanum_digit _ hn₂
  have honce : (digit (n / 17)).isAlphanum = true := isAlphanum_digit _ hn₃
  split <;> simp [hhigh, hlow, honce]

theorem ofDigits?_digits (c : Rgba) : ofDigits? c.digits = some c := by
  obtain ⟨r, g, b, a⟩ := c
  by_cases ha : a = 255
  · subst ha
    by_cases hall : ([r, g, b].all (· % 17 = 0)) = true
    · have hr : r % 17 = 0 ∧ g % 17 = 0 ∧ b % 17 = 0 := by simpa using hall
      simp [digits, written, hr, ofDigits?, single?_digit]
    · simp [digits, written, hall, ofDigits?, pair?_digits]
  · by_cases hall : ([r, g, b, a].all (· % 17 = 0)) = true
    · have hr : r % 17 = 0 ∧ g % 17 = 0 ∧ b % 17 = 0 ∧ a % 17 = 0 := by simpa using hall
      simp [digits, written, ha, hr, ofDigits?, single?_digit]
    · simp [digits, written, ha, hall, ofDigits?, pair?_digits]

end Rgba

/-- A plain color is written as one token, which stands for it. -/
theorem PlainColor.reads_token {t : Token} {c : PlainColor} (h : PlainColor.ofToken? t = some c)
    (compact : Bool) :
    ∃ t', NeatAs (print compact c) [.token t' .start] ∧ PlainColor.ofToken? t' = some c := by
  have hhex {s : String} (h : (Rgba.ofDigits? s.toList).map PlainColor.hex = some c) :
      ∃ t', NeatAs (print compact c) [.token t' .start] ∧ PlainColor.ofToken? t' = some c := by
    cases hx : Rgba.ofDigits? s.toList with
    | none => simp [hx] at h
    | some x =>
      rw [hx] at h
      cases h
      have hne : x.digits ≠ [] := by
        intro hnil
        have := x.ofDigits?_digits
        rw [hnil] at this
        cases this
      obtain ⟨t', ht', hmakes⟩ := Makes.hash hne x.isAlphanum_digits
      refine ⟨t', ⟨?_, (solid_rgba compact x).2⟩, ?_⟩
      · change Makes wordStops (chars (print compact x)) _
        rwa [Rgba.chars_print]
      · rcases ht' with rfl | rfl <;> simp [PlainColor.ofToken?, x.ofDigits?_digits]
  cases t with
  | hash s => exact hhex h
  | idHash s => exact hhex h
  | ident n =>
    obtain ⟨m, hneat, hm⟩ := PlainColor.reads_name h compact
    exact ⟨.ident m, hneat, hm⟩
  | _ => cases h

end StyleGrammar
