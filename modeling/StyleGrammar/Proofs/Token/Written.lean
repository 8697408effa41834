import StyleGrammar.Proofs.Token.Words

/-!
# Lexemes of what is written

What `Escape` writes is read back: the text of an identifier as the identifier,
that of a string as a string, and that of an address as an address.  The other
lemmas give the lexemes of the separators and of the head of a function.
-/

namespace StyleGrammar

namespace Scan

/-! Names. -/

theorem toDigits_isNumber : ∀ n < 128,
    ((Nat.toDigits 16 n).all isHexDigit = true ∧ Nat.toDigits 16 n ≠ [] ∧
      (Nat.toDigits 16 n).length ≤ 6) ∧
      (n ≠ 0 → numberedChar (Nat.toDigits 16 n) = Char.ofNat n) := by
  decide

theorem word_byNumber {c : Char} (hc : c.toNat < 128) : Word (Escape.byNumber c) := by
  obtain ⟨hdigits, hne, hlength⟩ := (toDigits_isNumber c.toNat hc).1
  exact .numbered hdigits hne hlength .nil

theorem toNat_lt_of_isControl {c : Char} (h : Escape.isControl c = true) : c.toNat < 128 := by
  simp only [Escape.isControl, Bool.or_eq_true, Bool.and_eq_true, decide_eq_true_eq] at h
  rcases h with ⟨-, h⟩ | h
  · have : c.toNat < 0x20 := UInt32.lt_iff_toNat_lt.mp h
    omega
  · have : c.toNat = 0x7f := congrArg UInt32.toNat h
    omega

theorem toNat_lt_of_isDigit {c : Char} (h : c.isDigit = true) : c.toNat < 128 := by
  simp only [Char.isDigit, Bool.and_eq_true, decide_eq_true_eq] at h
  have : c.toNat ≤ 57 := UInt32.le_iff_toNat_le.mp h.2
  omega

theorem isLower_iff {c : Char} : c.isLower = true ↔ 'a'.val ≤ c.val ∧ c.val ≤ 'z'.val := by
  change (decide ('a'.val ≤ c.val) && decide (c.val ≤ 'z'.val)) = true ↔ _
  rw [Bool.and_eq_true, decide_eq_true_eq, decide_eq_true_eq]

theorem isUpper_iff {c : Char} : c.isUpper = true ↔ 'A'.val ≤ c.val ∧ c.val ≤ 'Z'.val := by
  change decide ('A'.val ≤ c.val ∧ c.val ≤ 'Z'.val) = true ↔ _
  rw [decide_eq_true_eq]

theorem isAlpha_iff {c : Char} : c.isAlpha = true ↔ c.isUpper = true ∨ c.isLower = true :=
  (Bool.or_eq_true c.isUpper c.isLower).to_iff

theorem isPlain_of_isHexDigit {c : Char} (h : isHexDigit c = true) : Escape.isPlain c = true := by
  suffices c.isDigit = true ∨ c.isLower = true ∨ c.isUpper = true by
    rcases this with h | h | h <;> simp [Escape.isPlain, Char.isAlphanum, isAlpha_iff, h]
  simp only [isHexDigit, Bool.or_eq_true, Bool.and_eq_true, decide_eq_true_eq] at h
  rcases h with (h | ⟨hlow, hhigh⟩) | ⟨hlow, hhigh⟩
  · exact .inl h
  · have hz : c.val ≤ 'z'.val := UInt32.le_trans hhigh (by decide)
    exact .inr (.inl (isLower_iff.mpr ⟨hlow, hz⟩))
  · have hz : c.val ≤ 'Z'.val := UInt32.le_trans hhigh (by decide)
    exact .inr (.inr (isUpper_iff.mpr ⟨hlow, hz⟩))

theorem isControl_of_newline {c : Char} (h : Newline c = true) : Escape.isControl c = true := by
  simp only [Newline, Bool.or_eq_true, decide_eq_true_eq] at h
  rcases h with (rfl | rfl) | rfl <;> decide

theorem isEscapable_of_not {c : Char} (hplain : Escape.isPlain c = false) (h0 : c.val ≠ 0)
    (hcontrol : Escape.isControl c = false) : isEscapable c = true := by
  have hhex : isHexDigit c = false :=
    Bool.eq_false_iff.mpr fun h => by simp [isPlain_of_isHexDigit h] at hplain
  have hnewline : Newline c = false :=
    Bool.eq_false_iff.mpr fun h => by simp [isControl_of_newline h] at hcontrol
  simp [isEscapable, hhex, hnewline, h0]

theorem word_nameChar (c : Char) : Word (Escape.nameChar c) := by
  unfold Escape.nameChar
  split
  · next h => exact .char (by simp [isWordChar, h]) .nil
  split
  · exact .char (by decide) .nil
  split
  · next h => exact word_byNumber (toNat_lt_of_isControl h)
  · next hplain h0 hcontrol =>
    exact .escaped (isEscapable_of_not (by simpa using hplain) h0 (by simpa using hcontrol)) .nil

theorem word_name (s : List Char) : Word (Escape.name s) := .flatMap fun c _ => word_nameChar c

theorem word_first (c : Char) :
    Word (if c.isDigit then Escape.byNumber c else Escape.nameChar c) := by
  split
  · next h => exact word_byNumber (toNat_lt_of_isDigit h)
  · exact word_nameChar c

theorem word_identifier (s : List Char) : Word (Escape.identifier s) := by
  have hdash : isWordChar '-' = true := by decide
  unfold Escape.identifier
  split
  · exact .nil
  · exact .char hdash (.char hdash (word_name _))
  · exact .escaped (by decide) .nil
  · exact .char hdash ((word_first _).append (word_name _))
  · exact (word_first _).append (word_name _)

theorem name_cons_of_isPlain {c : Char} (h : Escape.isPlain c = true) (r : List Char) :
    name (c :: r) = (c :: (name r).1, (name r).2) := by
  have hb : c ≠ '\\' := by rintro rfl; revert h; decide
  have h0 : c.val ≠ 0 := fun h0 => by
    have : c = '\x00' := Char.ext h0
    subst this
    revert h
    decide
  rw [name, if_neg hb, if_neg h0, if_pos (show isNameChar c = true from h)]

theorem name_byNumber {c : Char} (hc : c.toNat < 128) (h0 : c.val ≠ 0) (r : List Char) :
    name (Escape.byNumber c ++ r) = (c :: (name r).1, (name r).2) := by
  obtain ⟨⟨hdigits, hne, hlength⟩, hchar⟩ := toDigits_isNumber c.toNat hc
  have hchar : numberedChar (Nat.toDigits 16 c.toNat) = c := by
    rw [hchar fun h => h0 (UInt32.toNat_inj.mp h), Char.ofNat_toNat]
  have happend : Escape.byNumber c ++ r = '\\' :: (Nat.toDigits 16 c.toNat ++ ' ' :: r) := by
    simp [Escape.byNumber]
  rw [happend, name_backslash (not_startsWithNewline_of_numbered hdigits hne r),
    escape_of_numbered hdigits hne hlength, hchar]

theorem name_nameChar {c : Char} (h0 : c.val ≠ 0) (r : List Char) :
    name (Escape.nameChar c ++ r) = (c :: (name r).1, (name r).2) := by
  unfold Escape.nameChar
  split
  · next h => exact name_cons_of_isPlain h r
  split
  · next h => exact name_byNumber (toNat_lt_of_isControl h) h0 r
  · next hplain hcontrol =>
    have hc := isEscapable_of_not (by simpa using hplain) h0 (by simpa using hcontrol)
    change name ('\\' :: c :: r) = _
    rw [name_backslash (not_startsWithNewline_of_isEscapable hc r), escape_of_isEscapable hc]

theorem name_first {c : Char} (h0 : c.val ≠ 0) (r : List Char) :
    name ((if c.isDigit then Escape.byNumber c else Escape.nameChar c) ++ r) =
      (c :: (name r).1, (name r).2) := by
  split
  · next h => exact name_byNumber (toNat_lt_of_isDigit h) h0 r
  · exact name_nameChar h0 r

/-- Names that a sheet can hold: no character of theirs is the null character. -/
def Sound (s : List Char) : Prop := ∀ c ∈ s, c.val ≠ 0

theorem name_escapeName {s post : List Char} (hs : Sound s) (hpost : name post = ([], post)) :
    name (Escape.name s ++ post) = (s, post) := by
  induction s with
  | nil => exact hpost
  | cons c s ih =>
    have hc : c.val ≠ 0 := hs c List.mem_cons_self
    have hs : Sound s := fun d hd => hs d (List.mem_cons_of_mem c hd)
    rw [Escape.name, List.flatMap_cons, List.append_assoc, name_nameChar hc]
    change (c :: (name (Escape.name s ++ post)).1, (name (Escape.name s ++ post)).2) = _
    rw [ih hs]

theorem name_identifier {s post : List Char} (hs : Sound s) (hpost : name post = ([], post)) :
    name (Escape.identifier s ++ post) = (s, post) := by
  have hdash : Escape.isPlain '-' = true := by decide
  unfold Escape.identifier
  split
  · exact hpost
  · next r =>
    have hr : Sound r := fun d hd => hs d (by simp [hd])
    simp only [List.cons_append, name_cons_of_isPlain hdash, name_escapeName hr hpost]
  · change name ('\\' :: '-' :: post) = _
    rw [name_backslash (not_startsWithNewline_of_isEscapable (by decide) post),
      escape_of_isEscapable (by decide), hpost]
  · next c r _ =>
    have hc : c.val ≠ 0 := hs c (by simp)
    have hr : Sound r := fun d hd => hs d (by simp [hd])
    rw [List.append_assoc, List.cons_append, name_cons_of_isPlain hdash, name_first hc,
      name_escapeName hr hpost]
  · next c r _ _ _ =>
    have hc : c.val ≠ 0 := hs c (by simp)
    have hr : Sound r := fun d hd => hs d (by simp [hd])
    rw [List.append_assoc, name_first hc, name_escapeName hr hpost]

/-- How an identifier goes on where it could be mistaken for a number. -/
theorem first_cases (c : Char) :
    (∃ t, Word ('\\' :: t) ∧
    (if c.isDigit then Escape.byNumber c else Escape.nameChar c) = '\\' :: t) ∨
      ∃ d, (if c.isDigit then Escape.byNumber c else Escape.nameChar c) = [d] ∧
        Escape.isPlain d = true ∧ d.isDigit = false ∧ (d = '-' → c = '-') := by
  have hword := word_first c
  split at hword
  · next h => exact .inl ⟨_, hword, by rw [if_pos h]; rfl⟩
  · next h =>
    rw [if_neg h]
    unfold Escape.nameChar at hword ⊢
    split at hword
    · next hplain => exact .inr ⟨c, by simp [hplain], hplain, by simpa using h, id⟩
    split at hword
    · next hplain h0 =>
      refine .inr ⟨Escape.replacement, by simp [hplain, h0], by decide, by decide, ?_⟩
      intro hdash
      cases hdash
    split at hword
    · next hplain h0 hcontrol => exact .inl ⟨_, hword, by simp [hplain, h0, hcontrol]; rfl⟩
    · next hplain h0 hcontrol => exact .inl ⟨_, hword, by simp [hplain, h0, hcontrol]⟩

theorem startsName_of_backslash {r : List Char} (hs : Word ('\\' :: r)) (post : List Char) :
    startsName ('\\' :: r ++ post) = true := by
  cases hs with
  | char hc => exact absurd hc (by decide)
  | escaped hc =>
    simpa [startsName] using not_startsWithNewline_of_isEscapable hc _
  | numbered hds hne =>
    simpa [startsName] using not_startsWithNewline_of_numbered hds hne _

theorem isName_of_isPlain {c : Char} (hplain : Escape.isPlain c = true)
    (hdigit : c.isDigit = false) :
    c = '-' ∨ (c.isAlpha || c = '_' || c.val = 0 || 0x80 ≤ c.val) = true := by
  simp only [Escape.isPlain, Char.isAlphanum, hdigit, Bool.or_false, Bool.or_eq_true,
    decide_eq_true_eq] at hplain ⊢
  tauto

theorem startsName_identifier {s : List Char} (hs : s ≠ []) (post : List Char) :
    startsName (Escape.identifier s ++ post) = true := by
  unfold Escape.identifier
  split
  · exact absurd rfl hs
  · simp [startsName]
  · exact startsName_of_backslash (.escaped (by decide) .nil) post
  · next c r hdash =>
    rcases first_cases c with ⟨t, -, ht⟩ | ⟨d, hd, hplain, hdigit, -⟩
    · simp [ht, startsName]
    · rcases isName_of_isPlain hplain hdigit with rfl | h
      · simp [hd, startsName]
      · simp only [Bool.or_eq_true, decide_eq_true_eq] at h
        simp only [hd, startsName, List.append_assoc, List.cons_append, Bool.or_eq_true,
          decide_eq_true_eq]
        tauto
  · next c r h₁ h₂ h₃ =>
    have hc : c ≠ '-' := by
      rintro rfl
      cases r with
      | nil => exact h₂ rfl rfl
      | cons d r => exact h₃ d r rfl rfl
    rcases first_cases c with ⟨t, hword, ht⟩ | ⟨d, hd, hplain, hdigit, hdash⟩
    · rw [ht, List.append_assoc]
      exact startsName_of_backslash hword _
    · have hne : d ≠ '-' := fun h => hc (hdash h)
      have hb : d ≠ '\\' := by rintro rfl; revert hplain; decide
      rw [hd, List.append_assoc, List.cons_append, startsName_cons hne hb]
      exact (isName_of_isPlain hplain hdigit).resolve_left hne

/-- Behind a hyphen an identifier does not go on like a number. -/
theorem startsDigits_identifier {s r : List Char} (h : Escape.identifier s = '-' :: r) :
    startsDigits r = false := by
  unfold Escape.identifier at h
  split at h
  · cases h
  · cases h
    rfl
  · cases h
  · next c r' hdash =>
    obtain ⟨-, rfl⟩ := List.cons.inj h
    rcases first_cases c with ⟨t, -, ht⟩ | ⟨d, hd, hplain, hdigit, -⟩
    · simp [ht, startsDigits, startsDigit]
    · have hpoint : d ≠ '.' := by rintro rfl; revert hplain; decide
      simp [hd, startsDigits, startsDigit, hpoint, hdigit]
  · next c r' h₁ h₂ h₃ =>
    have hc : c ≠ '-' := by
      rintro rfl
      cases r' with
      | nil => exact h₂ rfl rfl
      | cons d r => exact h₃ d r rfl rfl
    rcases first_cases c with ⟨t, -, ht⟩ | ⟨d, hd, -, -, hdash⟩
    · rw [ht] at h
      cases h
    · rw [hd] at h
      exact absurd (hdash (List.cons.inj h).1) hc

theorem isDigit_eq_false_of_isName {c : Char}
    (h : (c.isAlpha || c = '_' || c.val = 0 || 0x80 ≤ c.val) = true) : c.isDigit = false := by
  refine Bool.eq_false_iff.mpr fun hdigit => ?_
  simp only [Char.isDigit, isAlpha_iff, isUpper_iff, isLower_iff, Bool.or_eq_true,
    Bool.and_eq_true, decide_eq_true_eq, UInt32.le_iff_toNat_le, ge_iff_le] at h hdigit
  have hlow : 48 ≤ c.val.toNat := hdigit.1
  have hhigh : c.val.toNat ≤ 57 := hdigit.2
  rcases h with (((h | h) | rfl) | h) | h
  · have : 65 ≤ c.val.toNat := h.1
    omega
  · have : 97 ≤ c.val.toNat := h.1
    omega
  · revert hhigh
    decide
  · have : c.val.toNat = 0 := congrArg UInt32.toNat h
    omega
  · have : 128 ≤ c.val.toNat := h
    omega

theorem token_of_startsName {c : Char} {r post : List Char} (hs : Word (c :: r))
    (hpost : Apart wordStops post) (hstarts : startsName (c :: r) = true)
    (hdash : c = '-' → startsDigits r = false) :
    token c (r ++ post) =
      (.ident (String.ofList (name (c :: r)).1), (name (c :: r)).2 ++ post) := by
  obtain ⟨-, -, hident⟩ := identLike_append hs hpost
  have hstartsAppend := startsName_append hs hpost
  rw [hstarts, List.cons_append] at hstartsAppend
  rw [List.cons_append] at hident
  by_cases hb : c = '\\'
  · subst hb
    rw [token_backslash hstartsAppend, hident]
  by_cases hm : c = '-'
  · subst hm
    have hclose := take_append_ne_commentClose (hs.of_cons (by decide)) hpost
    have hdigits := hdash rfl
    rw [← startsDigits_append hpost] at hdigits
    simp [token, single?, pair?, hdigits, hclose, hstartsAppend, hident]
  · have hc := hs.isWordChar hb
    have hname := hstarts
    rw [startsName_cons hm hb] at hname
    have hhash : c ≠ '#' := by rintro rfl; revert hname; decide
    have hplus : c ≠ '+' := by rintro rfl; revert hname; decide
    have hpoint : c ≠ '.' := by rintro rfl; revert hname; decide
    have hdigit := isDigit_eq_false_of_isName hname
    unfold token
    simp [single?_of_isWordChar hc, pair?_of_isWordChar hc, hhash, hm, hplus, hpoint, hdigit,
      ne_of_isWordChar hc (d := '"') rfl, ne_of_isWordChar hc (d := '\'') rfl,
      ne_of_isWordChar hc (d := '<') rfl, ne_of_isWordChar hc (d := '@') rfl, hstartsAppend, hident]

/-- A word that is a name and nothing else is one identifier. -/
theorem lexes_name {s post t : List Char} (hword : Word t) (hname : name t = (s, []))
    (hstarts : startsName t = true) (hdash : ∀ r, t = '-' :: r → startsDigits r = false)
    (hpost : Apart wordStops post) :
    lexes (t ++ post) = .token (.ident (String.ofList s)) :: lexes post := by
  cases t with
  | nil => cases hstarts
  | cons c r =>
    obtain ⟨hblank, hcomment, -⟩ := hword.head
    have htoken := token_of_startsName hword hpost hstarts (by rintro rfl; exact hdash r rfl)
    rw [hname] at htoken
    have hlexeme := lexeme_of_not_space (r := r ++ post) hblank hcomment
    rw [htoken] at hlexeme
    rw [List.cons_append, lexes_cons hlexeme]
    rfl

/-- An identifier is read back from its text. -/
theorem lexes_identifier {s post : List Char} (hs : s ≠ []) (hsound : Sound s)
    (hpost : Apart wordStops post) :
    lexes (Escape.identifier s ++ post) = .token (.ident (String.ofList s)) :: lexes post := by
  have hname := name_identifier hsound (name_of_apart (apart_nil wordStops))
  rw [List.append_nil] at hname
  have hstarts := startsName_identifier hs []
  rw [List.append_nil] at hstarts
  exact lexes_name (word_identifier s) hname hstarts (fun _ h => startsDigits_identifier h) hpost

/-- So is one with two leading hyphens that are written as they are. -/
theorem lexes_dashed {s post : List Char} (hsound : Sound s) (hpost : Apart wordStops post) :
    lexes ('-' :: '-' :: Escape.name s ++ post) =
      .token (.ident (String.ofList ('-' :: '-' :: s))) :: lexes post := by
  have hdash : Escape.isPlain '-' = true := by decide
  have hname : name ('-' :: '-' :: Escape.name s) = ('-' :: '-' :: s, []) := by
    have hrest := name_escapeName hsound (name_of_apart (apart_nil wordStops))
    rw [List.append_nil] at hrest
    rw [name_cons_of_isPlain hdash, name_cons_of_isPlain hdash, hrest]
  have hword : Word ('-' :: '-' :: Escape.name s) :=
    .char (by decide) (.char (by decide) (word_name s))
  refine lexes_name hword hname (by simp [startsName]) ?_ hpost
  rintro r ⟨⟩
  simp [startsDigits, startsDigit]

/-! Strings and addresses. -/

/-- What a written text keeps of a character: the null character cannot be represented. -/
def kept (c : Char) : Char := if c.val = 0 then Escape.replacement else c

theorem kept_of_isControl {c : Char} (h : Escape.isControl c = true) : c.val ≠ 0 ∧ kept c = c := by
  have h0 : c.val ≠ 0 := fun h0 => by
    have : c = '\x00' := Char.ext h0
    subst this
    revert h
    decide
  exact ⟨h0, if_neg h0⟩

/-- The escape that `byNumber` writes. -/
theorem escape_byNumber {c : Char} (hc : c.toNat < 128) (h0 : c.val ≠ 0) (r : List Char) :
    ∃ t, Escape.byNumber c ++ r = '\\' :: t ∧ startsWithNewline t = false ∧ escape t = (c, r) := by
  obtain ⟨⟨hdigits, hne, hlength⟩, hchar⟩ := toDigits_isNumber c.toNat hc
  refine ⟨Nat.toDigits 16 c.toNat ++ ' ' :: r, by simp [Escape.byNumber],
    not_startsWithNewline_of_numbered hdigits hne r, ?_⟩
  rw [escape_of_numbered hdigits hne hlength, hchar fun h => h0 (UInt32.toNat_inj.mp h),
    Char.ofNat_toNat]

theorem string_backslash {t r : List Char} {c : Char} (hnewline : startsWithNewline t = false)
    (hescape : escape t = (c, r)) (hne : t ≠ []) :
    string '"' ('\\' :: t) = ((c :: (string '"' r).1.1, (string '"' r).1.2), (string '"' r).2) := by
  rw [string]
  simp [hnewline, hescape, Newline, hne]

theorem string_stringChar (c : Char) (r : List Char) :
    string '"' (Escape.stringChar c ++ r) =
      ((kept c :: (string '"' r).1.1, (string '"' r).1.2), (string '"' r).2) := by
  unfold Escape.stringChar
  split
  · next h =>
    simp only [Bool.or_eq_true, decide_eq_true_eq] at h
    have hc : isEscapable c = true ∧ kept c = c := by rcases h with rfl | rfl <;> decide
    rw [hc.2]
    exact string_backslash (not_startsWithNewline_of_isEscapable hc.1 r)
      (escape_of_isEscapable hc.1 r) (by simp)
  split
  · next h =>
    rw [List.cons_append, List.nil_append, string]
    simp [Newline, Escape.replacement, kept, h]
  split
  · next h =>
    obtain ⟨h0, hkept⟩ := kept_of_isControl h
    obtain ⟨t, ht, hnewline, hescape⟩ := escape_byNumber (toNat_lt_of_isControl h) h0 r
    have hne : t ≠ [] := by
      rintro rfl
      simp [Escape.byNumber] at ht
    rw [ht, hkept]
    exact string_backslash hnewline hescape hne
  · next hquote h0 hcontrol =>
    have hnewline : Newline c = false :=
      Bool.eq_false_iff.mpr fun h => hcontrol (isControl_of_newline h)
    simp only [Bool.or_eq_true, decide_eq_true_eq, not_or] at hquote
    rw [List.cons_append, List.nil_append, string]
    simp [hquote.1, hquote.2, hnewline, kept, h0]

theorem string_quoted (s post : List Char) :
    string '"' (s.flatMap Escape.stringChar ++ '"' :: post) = ((s.map kept, false), post) := by
  induction s with
  | nil =>
    rw [List.flatMap_nil, List.nil_append, string]
    simp
  | cons c s ih => rw [List.flatMap_cons, List.append_assoc, string_stringChar, ih, List.map_cons]

/-- A quoted string is one lexeme, whatever follows. -/
theorem lexes_quoted (s post : List Char) :
    lexes (Escape.quoted s ++ post) =
      .token (.quotedString (String.ofList (s.map kept))) :: lexes post := by
  have hshape : Escape.quoted s ++ post = '"' :: (s.flatMap Escape.stringChar ++ '"' :: post) := by
    simp [Escape.quoted]
  rw [hshape, lexes_cons]
  simp [lexeme, Blank, Newline, token, single?, pair?, string_quoted]

theorem address_backslash {t r : List Char} {c : Char} (hnewline : startsWithNewline t = false)
    (hescape : escape t = (c, r)) :
    address ('\\' :: t) = ((c :: (address r).1.1, (address r).1.2), (address r).2) := by
  rw [address]
  simp [hnewline, hescape, Blank, Newline, breaksAddress]

theorem blank_le {c : Char} (h : Blank c = true) : c.val ≤ 0x20 := by
  simp only [Blank, Newline, Bool.or_eq_true, decide_eq_true_eq] at h
  rcases h with (rfl | rfl) | (rfl | rfl) | rfl <;> decide

theorem address_addressChar (c : Char) :
    ∃ d, ∀ r, address (Escape.addressChar c ++ r) =
      ((d :: (address r).1.1, (address r).1.2), (address r).2) := by
  unfold Escape.addressChar
  split
  · next h =>
    have hc : c.toNat < 128 := by
      simp only [Bool.or_eq_true, decide_eq_true_eq] at h
      rcases h with h | h
      · have : c.toNat ≤ 0x20 := UInt32.le_iff_toNat_le.mp h
        omega
      · have : c.toNat = 0x7f := congrArg UInt32.toNat h
        omega
    obtain ⟨⟨hdigits, hne, hlength⟩, -⟩ := toDigits_isNumber c.toNat hc
    refine ⟨numberedChar (Nat.toDigits 16 c.toNat), fun r => ?_⟩
    have := address_backslash (not_startsWithNewline_of_numbered hdigits hne r)
      (escape_of_numbered hdigits hne hlength r)
    simpa [Escape.byNumber] using this
  split
  · next h =>
    have hc : isEscapable c = true := by
      simp only [Bool.or_eq_true, decide_eq_true_eq] at h
      rcases h with (((rfl | rfl) | rfl) | rfl) | rfl <;> decide
    exact ⟨c, fun r => address_backslash (not_startsWithNewline_of_isEscapable hc r)
      (escape_of_isEscapable hc r)⟩
  · next hcontrol hspecial =>
    simp only [Bool.or_eq_true, decide_eq_true_eq, not_or] at hcontrol hspecial
    have hblank : Blank c = false := Bool.eq_false_iff.mpr fun h => hcontrol.1 (blank_le h)
    have h0 : c.val ≠ 0 := fun h => hcontrol.1 (by rw [h]; decide)
    have hlow : ¬ c.val < 0x20 := fun h => hcontrol.1 (UInt32.le_of_lt h)
    obtain ⟨⟨⟨⟨hopen, hclose⟩, hdouble⟩, hsingle⟩, hbackslash⟩ := hspecial
    refine ⟨c, fun r => ?_⟩
    rw [List.cons_append, List.nil_append, address]
    simp [hclose, hblank, breaksAddress, hopen, hdouble, hsingle, hlow, hcontrol.2, hbackslash, h0]

theorem address_written (s : List Char) :
    ∃ a, ∀ post, address (s.flatMap Escape.addressChar ++ ')' :: post) = ((a, false), post) := by
  induction s with
  | nil =>
    refine ⟨[], fun post => ?_⟩
    rw [List.flatMap_nil, List.nil_append, address]
    simp
  | cons c s ih =>
    obtain ⟨a, ha⟩ := ih
    obtain ⟨d, hd⟩ := address_addressChar c
    refine ⟨d :: a, fun post => ?_⟩
    rw [List.flatMap_cons, List.append_assoc, hd, ha]

/-- An address begins with neither a blank nor a quote. -/
theorem address_head (s post : List Char) :
    ∃ c r, s.flatMap Escape.addressChar ++ ')' :: post = c :: r ∧ Blank c = false ∧
      c ≠ '"' ∧ c ≠ '\'' := by
  cases s with
  | nil => exact ⟨')', post, rfl, by decide, by decide, by decide⟩
  | cons c s =>
    rw [List.flatMap_cons, List.append_assoc]
    unfold Escape.addressChar
    split
    · exact ⟨'\\', _, rfl, by decide, by decide, by decide⟩
    split
    · exact ⟨'\\', _, rfl, by decide, by decide, by decide⟩
    · next hcontrol hspecial =>
      simp only [Bool.or_eq_true, decide_eq_true_eq, not_or] at hcontrol hspecial
      exact ⟨c, _, rfl, Bool.eq_false_iff.mpr fun h => hcontrol.1 (blank_le h), hspecial.1.1.2,
        hspecial.1.2⟩

theorem addressToken_written (s : List Char) :
    ∃ a, ∀ post, addressToken (s.flatMap Escape.addressChar ++ ')' :: post) =
      some (.unquotedUrl a, post) := by
  obtain ⟨a, ha⟩ := address_written s
  refine ⟨String.ofList a, fun post => ?_⟩
  obtain ⟨c, r, hshape, hblank, hdouble, hsingle⟩ := address_head s post
  have haddress := ha post
  rw [hshape] at haddress ⊢
  simp [addressToken, hblank, hdouble, hsingle, haddress]

/-! Functions and separators. -/

/-- Names that a function can have as they are written. -/
def isCallable (n : List Char) : Bool := n.head?.any Char.isAlpha && n.all Escape.isPlain

theorem isWordChar_of_isAlpha {c : Char} (h : c.isAlpha = true) : isWordChar c = true := by
  simp [isWordChar, Escape.isPlain, Char.isAlphanum, h]

theorem lexeme_of_isAlpha {c : Char} (h : c.isAlpha = true) (r : List Char) :
    lexeme c r = (.token (identLike (c :: r)).1, (identLike (c :: r)).2) := by
  have hc := isWordChar_of_isAlpha h
  have hb : c ≠ '\\' := by rintro rfl; revert h; decide
  have hdash : c ≠ '-' := by rintro rfl; revert h; decide
  have hhash : c ≠ '#' := by rintro rfl; revert h; decide
  have hplus : c ≠ '+' := by rintro rfl; revert h; decide
  have hpoint : c ≠ '.' := by rintro rfl; revert h; decide
  have hname : (c.isAlpha || c = '_' || c.val = 0 || 0x80 ≤ c.val) = true := by simp [h]
  have hdigit := isDigit_eq_false_of_isName hname
  have hstarts : startsName (c :: r) = true := by rw [startsName_cons hdash hb, hname]
  obtain ⟨hblank, hcomment, -⟩ := (Word.char hc .nil).head
  rw [lexeme_of_not_space hblank hcomment]
  unfold token
  simp [single?_of_isWordChar hc, pair?_of_isWordChar hc, hhash, hdash, hplus, hpoint, hdigit,
    ne_of_isWordChar hc (d := '"') rfl, ne_of_isWordChar hc (d := '\'') rfl,
    ne_of_isWordChar hc (d := '<') rfl, ne_of_isWordChar hc (d := '@') rfl, hstarts]

theorem name_of_all_isPlain {n : List Char} (h : n.all Escape.isPlain = true) {rest : List Char}
    (hrest : name rest = ([], rest)) : name (n ++ rest) = (n, rest) := by
  induction n with
  | nil => exact hrest
  | cons c n ih =>
    rw [List.all_cons, Bool.and_eq_true] at h
    rw [List.cons_append, name_cons_of_isPlain h.1, ih h.2]

theorem lexes_callable {n : List Char} (h : isCallable n = true) (rest : List Char) :
    lexes (n ++ '(' :: rest) =
      .token (identLike (n ++ '(' :: rest)).1 :: lexes (identLike (n ++ '(' :: rest)).2 := by
  simp only [isCallable, Bool.and_eq_true] at h
  cases n with
  | nil => exact absurd h.1 (by simp)
  | cons c n => exact lexes_cons (lexeme_of_isAlpha (by simpa using h.1) _)

theorem name_callable {n : List Char} (h : isCallable n = true) (rest : List Char) :
    name (n ++ '(' :: rest) = (n, '(' :: rest) := by
  simp only [isCallable, Bool.and_eq_true] at h
  refine name_of_all_isPlain h.2 ?_
  rw [name]
  simp [isNameChar, Escape.isPlain, Char.isAlphanum]

/-- The head of a function is one lexeme, except that `url(` may begin an address. -/
theorem lexes_function {n : List Char} (h : isCallable n = true)
    (hurl : n.map Char.toLower ≠ ['u', 'r', 'l']) (rest : List Char) :
    lexes (n ++ '(' :: rest) = .token (.function (String.ofList n)) :: lexes rest := by
  rw [lexes_callable h]
  simp [identLike, name_callable h, hurl]

theorem identLike_url (rest : List Char) :
    identLike (['u', 'r', 'l'] ++ '(' :: rest) =
      (addressToken rest).getD (.function "url", rest) := by
  have hname := name_callable (n := ['u', 'r', 'l']) (by decide) rest
  unfold identLike
  simp only [hname]
  rfl

theorem lexes_address (s : List Char) :
    ∃ a, ∀ post, lexes (['u', 'r', 'l'] ++ '(' :: (s.flatMap Escape.addressChar ++ ')' :: post)) =
      .token (.unquotedUrl a) :: lexes post := by
  obtain ⟨a, ha⟩ := addressToken_written s
  refine ⟨a, fun post => ?_⟩
  rw [lexes_callable (by decide), identLike_url, ha]
  rfl

theorem lexes_quotedAddress (s post : List Char) :
    lexes (['u', 'r', 'l'] ++ '(' :: (Escape.quoted s ++ post)) =
      .token (.function "url") :: lexes (Escape.quoted s ++ post) := by
  rw [lexes_callable (by decide), identLike_url]
  rfl

theorem lexes_single {c : Char} {t : Token} (h : single? c = some t) (hblank : Blank c = false)
    (hcomment : c ≠ '/') (s : List Char) : lexes (c :: s) = .token t :: lexes s := by
  refine lexes_cons ?_
  rw [lexeme_of_not_space hblank hcomment]
  simp [token, h]

theorem lexes_blank {s : List Char} (h : ∀ c ∈ s.head?, Blank c = false) :
    lexes (' ' :: s) = .blanks :: lexes s := by
  refine lexes_cons ?_
  cases s with
  | nil => rfl
  | cons c s =>
    have hc : Blank c = false := h c rfl
    have hdrop : (c :: s).dropWhile Blank = c :: s := by simp [hc]
    rw [lexeme, if_pos (by decide), hdrop]

/-- A run of blanks is one lexeme. -/
theorem lexes_blank_blank {c : Char} (hc : Blank c = true) (s : List Char) :
    lexes (' ' :: c :: s) = lexes (c :: s) := by
  have hrun {c : Char} (hc : Blank c = true) (s : List Char) :
      lexes (c :: s) = .blanks :: lexes (s.dropWhile Blank) :=
    lexes_cons (by rw [lexeme, if_pos hc])
  rw [hrun (by decide), hrun hc, List.dropWhile_cons_of_pos hc]

theorem lexes_slash {s : List Char} (h : s.head? ≠ some '*') :
    lexes ('/' :: s) = .token (.delim '/') :: lexes s := by
  refine lexes_cons ?_
  simp [lexeme, Blank, Newline, h, token, single?, pair?, startsName]

theorem lexes_percent (s : List Char) : lexes ('%' :: s) = .token (.delim '%') :: lexes s := by
  refine lexes_cons ?_
  simp [lexeme, Blank, Newline, token, single?, pair?, startsName]

theorem lexes_star {s : List Char} (h : s.head? ≠ some '=') :
    lexes ('*' :: s) = .token (.delim '*') :: lexes s := by
  refine lexes_cons ?_
  cases s with
  | nil => rfl
  | cons c s =>
    have hc : c ≠ '=' := by simpa using h
    simp [lexeme, Blank, Newline, token, single?, pair?, pair, hc]

theorem lexes_plus (s : List Char) :
    lexes ('+' :: ' ' :: s) = .token (.delim '+') :: lexes (' ' :: s) :=
  lexes_cons rfl

theorem lexes_minus (s : List Char) :
    lexes ('-' :: ' ' :: s) = .token (.delim '-') :: lexes (' ' :: s) :=
  lexes_cons rfl

end Scan

end StyleGrammar
