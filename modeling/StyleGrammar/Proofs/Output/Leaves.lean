import StyleGrammar.Proofs.Output.Neat

/-!
# The outputs of single values

Numbers, dimensions, names, strings, addresses and plain colors are solid.  Of
numbers this includes that none of them prints as nothing.
-/

namespace StyleGrammar

namespace Output

open Scan Written

theorem mem_of_mem_stripped {strip s : List Char} {fuel : Nat} {c : Char}
    (h : c ∈ stripped strip fuel s) : c ∈ s := by
  induction fuel generalizing s with
  | zero => exact h
  | succ n ih =>
    rw [stripped] at h
    split at h
    · exact List.mem_of_mem_drop (ih h)
    · exact h

theorem mem_stripped {strip s : List Char} {c : Char} (h : c ∈ s) (hstrip : c ∉ strip)
    (fuel : Nat) : c ∈ stripped strip fuel s := by
  induction fuel generalizing s with
  | zero => exact h
  | succ n ih =>
    rw [stripped]
    split
    · next hfront =>
      rw [Bool.and_eq_true] at hfront
      obtain ⟨t, rfl⟩ := List.isPrefixOf_iff_prefix.mp hfront.2
      rw [List.drop_left]
      exact ih ((List.mem_append.mp h).resolve_left hstrip)
    · exact h

theorem solid_numeral {s : String} {o : Output} (ho : chars o = s.toList) (h : Numeral s)
    (hne : s ≠ "") : Solid o := by
  refine solid_word (ho ▸ word_of_all (List.all_eq_true.mpr h)) ?_
  simpa [ho] using hne

@[simp] theorem chars_numericToken (v : Single) (integral : Bool) :
    chars (numericToken v integral) = (numeric v integral).toList := by
  unfold numericToken Written.numeric
  split <;> simp

theorem Substantial.ne_empty {s : String} (h : Substantial s) : s ≠ "" := by
  rintro rfl
  obtain ⟨c, hc, -⟩ := h
  simp at hc

theorem solid_fraction {s : String} {negative : Bool} (h : Numeral s)
    (hs : negative = false → Substantial s) : Solid (fraction negative s) := by
  have hstripped (p : String) (fuel : Nat) :
      ∀ c ∈ stripped p.toList fuel s.toList, isWordChar c = true :=
    fun c hc => h c (mem_of_mem_stripped hc)
  rw [fraction]
  cases negative with
  | true =>
    have hword : Word (chars (char '-' ++ text (String.ofList
        (stripped "-0".toList s.length s.toList)))) := by
      rw [chars_append, chars_char, chars_text, String.toList_ofList]
      exact .char (by decide) (word_of_all (List.all_eq_true.mpr (hstripped _ _)))
    exact solid_word hword (by simp)
  | false =>
    obtain ⟨c, hc, hne⟩ := hs rfl
    have hmem : c ∈ stripped "0".toList s.length s.toList :=
      mem_stripped hc (by simpa using hne) s.length
    have hword := word_of_all (List.all_eq_true.mpr (hstripped "0" s.length))
    refine solid_word (by simpa using hword) ?_
    simpa using List.ne_nil_of_mem hmem

/-! Numbers. -/

theorem positional_ne_empty (ds : List Nat) (point : Int) (fraction : Bool) :
    positional ds point fraction ≠ "" := by
  unfold positional
  split
  · simp
  · next hpoint =>
    have hleft : digitText (ds.take point.toNat) ++ zeros (point.toNat - ds.length) ≠ "" := by
      obtain ⟨n, hn⟩ : ∃ n, point.toNat = n + 1 := ⟨point.toNat - 1, by omega⟩
      cases ds <;> simp [digitText, zeros, hn]
    dsimp only
    split
    · split
      · simp
      · exact hleft
    · simp

theorem sheetMagnitude_ne_empty (d : Decimal) : sheetMagnitude d ≠ "" := by
  unfold sheetMagnitude
  dsimp only
  split
  · exact positional_ne_empty _ _ _
  · simp [scientific]

theorem numeric_ne_empty (v : Single) (integral : Bool) : numeric v integral ≠ "" := by
  have hsheet : sheet v ≠ "" := by
    cases v with
    | finite s m e =>
      unfold sheet
      dsimp only
      split
      · simp
      · split
        · simp
        · exact sheetMagnitude_ne_empty _
    | infinite s => cases s <;> simp [sheet]
    | nan => simp [sheet]
  unfold Written.numeric
  split
  · simp
  · exact hsheet

theorem substantial_numeric {v : Single} (h : isFraction v Single.one = true)
    (hnegative : v.isNegative = false) (integral : Bool) : Substantial (numeric v integral) := by
  rw [isFraction, Bool.and_eq_true, Bool.not_eq_true'] at h
  obtain ⟨hzero, hbelow⟩ := h
  have hsheet : Substantial (sheet v) := by
    cases v with
    | finite s m e =>
      have hm : m ≠ 0 := by simpa [Binary.isZero] using hzero
      have hs : s = false := by simpa [Binary.isNegative, hm] using hnegative
      have := substantial_sheet hm hbelow
      simpa [sheet, hs, hm] using this
    | infinite s => cases hbelow
    | nan => cases hbelow
  unfold Written.numeric
  split
  · exact hsheet.append_left _
  · exact hsheet

theorem solid_infinite {s : String} (sign : List Char) (hs : s.toList = ['c', 'a', 'l', 'c', '('] ++
    (sign ++ ['/', '0', ')'])) (hsign : Word sign) : Solid (text s) := by
  obtain ⟨ts, -, hts⟩ := Makes.word hsign
  obtain ⟨us, -, hus⟩ := Makes.word (word_of_all (s := ['0']) (by decide))
  have hslash := hus.slash (.inl ⟨'0', [], rfl, by decide⟩)
  have hinside := hts.append hslash (by simp [wordStops]) (List.Subset.refl _)
  have hshape : chars (text s) = ['c', 'a', 'l', 'c'] ++ '(' :: (sign ++ ['/', '0'] ++ [')']) := by
    simp [hs]
  refine solid_of_block (hshape ▸ Makes.call (by decide) (by decide) (hinside.before (by decide)))
    ?_
  rw [hshape]
  exact begins_of_isCallable (by decide) _

theorem solid_number (v : Single) (integral : Bool) : Solid (number v integral) := by
  unfold number
  split
  · exact solid_text (by decide)
  · next negative =>
    cases negative with
    | false => exact solid_infinite ['1'] (by simp) (word_of_all (by decide))
    | true => exact solid_infinite ['-', '1'] (by simp) (word_of_all (by decide))
  · split
    · next h => exact solid_fraction (numeral_numeric _ _) fun hn => substantial_numeric h hn _
    · exact solid_numeral (chars_numericToken _ _) (numeral_numeric _ _) (numeric_ne_empty _ _)

/-- Units that are written as they are. -/
def isUnitText (s : String) : Bool :=
  (identifierText s).toList.all isWordChar && (identifierText s).toList.any (· != '0')

theorem solid_dimension (v : Single) {unit : String} (h : isUnitText unit = true) :
    Solid (dimension v unit) := by
  simp only [isUnitText, Bool.and_eq_true] at h
  have hnumeral := (numeral_numeric v v.isWhole).append (List.all_eq_true.mp h.1)
  have hsubstantial : Substantial (identifierText unit) := by simpa [Substantial] using h.2
  unfold dimension
  split
  · exact solid_fraction hnumeral fun _ => hsubstantial.append_right _
  · exact solid_numeral (by simp) hnumeral (Substantial.ne_empty (hsubstantial.append_right _))

theorem solid_percentage (compact : Bool) (p : Percentage) : Solid (print compact p) := by
  have hnumeral := (numeral_numeric (p.fraction.mul Percentage.hundred)
    (p.fraction.mul Percentage.hundred).isWhole).append
    (Numeral.of_toList ['%'] (s := "%") (by simp) (by decide))
  have hsubstantial : Substantial "%" := .of_toList ['%'] (by simp) (by decide)
  unfold print instPrintablePercentage
  dsimp only
  split
  · exact solid_fraction hnumeral fun _ => hsubstantial.append_right _
  · exact solid_numeral (by simp) hnumeral (Substantial.ne_empty (hsubstantial.append_right _))

/-! Addresses and colors. -/

theorem solid_url (compact : Bool) (u : Url) : Solid (print compact u) := by
  have hbegins (s : List Char) : Begins (['u', 'r', 'l'] ++ s) :=
    begins_of_isCallable (by decide) s
  have hquoted {o : Output} (ho : chars o = (quotedText u.address).toList) :
      Solid (text "url(" ++ o ++ char ')') := by
    have hshape : chars (text "url(" ++ o ++ char ')') =
        ['u', 'r', 'l'] ++ '(' :: (Escape.quoted u.address.toList ++ [')']) := by
      simp [ho, quotedText]
    exact solid_of_block (hshape ▸ Makes.quotedAddress _) (hshape ▸ hbegins _)
  have hbare : Solid (text ("url(" ++ addressText u.address ++ ")")) := by
    obtain ⟨a, ha⟩ := Makes.address u.address.toList
    have hshape : chars (text ("url(" ++ addressText u.address ++ ")")) =
        ['u', 'r', 'l'] ++ '(' :: (u.address.toList.flatMap Escape.addressChar ++ [')']) := by
      simp [addressText, Escape.address]
    refine ⟨⟨_, fun k hk => ?_, hshape ▸ ha⟩, hshape ▸ hbegins _⟩
    rw [List.mem_singleton.mp hk]
    rfl
  unfold print instPrintableUrl
  dsimp only
  split
  · split
    · exact hquoted (chars_text _)
    · exact hbare
  · exact hquoted (chars_quoted _)

theorem isWordChar_digit : ∀ n < 16, isWordChar (Nat.digitChar n) = true := by
  decide

/-- Two digits, of which the first may be a zero. -/
theorem chars_printPair (n : UInt8) :
    chars (Rgba.printPair n) = [Rgba.digit (n / 16), Rgba.digit (n % 16)] := by
  unfold Rgba.printPair
  split
  next h =>
    have hlt : n.toNat < 16 := by simpa [UInt8.lt_iff_toNat_lt] using h
    have hhigh : n / 16 = 0 := UInt8.toNat_inj.mp (by simpa using Nat.div_eq_of_lt hlt)
    have hlow : n % 16 = n := UInt8.toNat_inj.mp (by simpa using Nat.mod_eq_of_lt hlt)
    have hzero : Rgba.digit 0 = '0' := rfl
    rw [hhigh, hlow, hzero]
    simp
  next => rw [chars_text, String.toList_ofList]

theorem solid_rgba (compact : Bool) (c : Rgba) : Solid (print compact c) := by
  have hhigh (n : UInt8) : isWordChar (Rgba.digit (n / 16)) = true := by
    have hlt : n.toNat / 16 < 16 := by have := n.toNat_lt; omega
    exact isWordChar_digit _ hlt
  have hlow (n : UInt8) : isWordChar (Rgba.digit (n % 16)) = true := by
    have hlt : n.toNat % 16 < 16 := by omega
    exact isWordChar_digit _ hlt
  have hboth (n : UInt8) : isWordChar (Rgba.digit (n / 17)) = true := by
    have hlt : n.toNat / 17 < 16 := by have := n.toNat_lt; omega
    exact isWordChar_digit _ hlt
  have hword (f : UInt8 → Output) (hf : ∀ n, (chars (f n)).all isWordChar = true)
      (ns : List UInt8) : Word (chars (char '#' ++ ns.flatMap f)) := by
    rw [chars_append, chars_char, chars_flatMap]
    exact .char (by decide) (.flatMap fun n _ => word_of_all (hf n))
  unfold print instPrintableRgba
  dsimp only
  split
  · exact solid_word (hword _ (by simp [hboth]) _) (by simp)
  · refine solid_word (hword _ (fun n => ?_) _) (by simp)
    rw [chars_printPair]
    simp [hhigh, hlow]

/-- Names of letters only. -/
def isLettered (s : String) : Bool := !s.toList.isEmpty && s.toList.all Char.isAlpha

theorem isWritten_of_isLettered {s : String} (h : isLettered s = true) : isWritten s = true := by
  simp only [isLettered, isWritten, Bool.and_eq_true, List.all_eq_true] at h ⊢
  exact ⟨h.1, fun c hc => isWordChar_of_isAlpha (h.2 c hc)⟩

theorem isLettered_ofList {l : List Char} (h : (!l.isEmpty && l.all Char.isAlpha) = true) :
    isLettered (String.ofList l) = true := by
  rw [isLettered, String.toList_ofList, h]

theorem isLettered_of_mem_colors :
    ∀ n ∈ ("transparent" :: namedColors) ++ (systemColors ++ deprecatedSystemColors),
      isLettered n = true := by
  simp only [namedColors, systemColors, deprecatedSystemColors, List.cons_append, List.nil_append]
  -- a string that is written out is made of its characters, which spares decoding it
  repeat' first
    | exact List.forall_mem_nil _
    | refine List.forall_mem_cons.mpr ⟨isLettered_ofList ?_, ?_⟩
  all_goals rfl

theorem solid_color {s : String} {c : PlainColor} (h : PlainColor.ofName? s = some c)
    (compact : Bool) : Solid (print compact c) := by
  unfold PlainColor.ofName? at h
  split at h
  · cases h
    exact solid_text (by decide)
  · split at h
    · next n hn =>
      cases h
      exact solid_text (isWritten_of_isLettered
        (isLettered_of_mem_colors n (List.mem_append_left _ (List.mem_of_find?_eq_some hn))))
    · cases hn : PlainColor.systemColor? s with
      | none => simp [hn] at h
      | some n =>
        rw [hn] at h
        cases h
        exact solid_text (isWritten_of_isLettered
          (isLettered_of_mem_colors n (List.mem_append_right _ (List.mem_of_find?_eq_some hn))))

end Output

end StyleGrammar
