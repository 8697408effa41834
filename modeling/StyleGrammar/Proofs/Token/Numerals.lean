import StyleGrammar.Proofs.Token.Blocks

/-!
# How numbers are scanned

A number is written as a sign, digits before and behind a point, and an exponent
that makes it smaller.  Behind it nothing stands, a percent sign or a unit of
letters, and the token is a number, a percentage or a dimension.
-/

namespace StyleGrammar

/-- What may stand behind a number. -/
inductive Suffix
  | empty
  | percent
  | unit (name : String)
  deriving DecidableEq, Repr

namespace Suffix

/-- The characters of a suffix. -/
def chars : Suffix → List Char
  | empty => []
  | percent => ['%']
  | unit n => n.toList

/-- The token that a number with the suffix makes. -/
def token (signed : Bool) (value : Single) (int? : Option Int) : Suffix → Token
  | empty => .number signed value int?
  | percent => .percentage signed value int?
  | unit n => .dimension signed value int? n

/-- A unit has letters only. -/
def Lettered : Suffix → Prop
  | unit n => n.toList ≠ [] ∧ ∀ c ∈ n.toList, c.isAlpha = true
  | _ => True

end Suffix

namespace Scan

/-- The characters of a sign. -/
def signText (negative : Bool) : List Char := if negative then ['-'] else []

/-- The characters of a fraction, from its point on. -/
def pointText : List Char → List Char
  | [] => []
  | fs => '.' :: fs

/-- The characters of an exponent below zero. -/
def exponentText : List Char → List Char
  | [] => []
  | es => 'e' :: '-' :: es

/-- The digits of a fraction, if it has any. -/
def digits? (ds : List Char) : Option (List Char) := if ds = [] then none else some ds

/-- The exponent that digits stand for, if there are any. -/
def exponent? (es : List Char) : Option Int := if es = [] then none else some (-(natural es : Int))

theorem takeWhile_isDigit {ds t : List Char} (h : ∀ c ∈ ds, c.isDigit = true)
    (ht : startsDigit t = false) :
    (ds ++ t).takeWhile Char.isDigit = ds ∧ (ds ++ t).dropWhile Char.isDigit = t := by
  have hnone : t.takeWhile Char.isDigit = [] ∧ t.dropWhile Char.isDigit = t := by
    cases t with
    | nil => exact ⟨rfl, rfl⟩
    | cons c t =>
      have hc : c.isDigit = false := ht
      simp [hc]
  rw [List.takeWhile_append_of_pos h, List.dropWhile_append_of_pos h, hnone.1, hnone.2]
  exact ⟨List.append_nil ds, rfl⟩

theorem fractionDigits_pointText {fs t : List Char} (h : ∀ c ∈ fs, c.isDigit = true)
    (ht : startsDigit t = false) (hpoint : t.head? ≠ some '.') :
    fractionDigits (pointText fs ++ t) = (digits? fs, t) := by
  cases fs with
  | nil =>
    cases t with
    | nil => rfl
    | cons c t =>
      have hc : c ≠ '.' := by simpa using hpoint
      rw [pointText, List.nil_append, digits?, if_pos rfl]
      unfold fractionDigits
      split
      · next heq => exact absurd (List.cons.inj heq).1 hc
      · rfl
  | cons c fs =>
    have hc : c.isDigit = true := h c List.mem_cons_self
    obtain ⟨htake, hdrop⟩ := takeWhile_isDigit h ht
    change fractionDigits ('.' :: c :: (fs ++ t)) = _
    rw [digits?, if_neg (List.cons_ne_nil c fs)]
    simp only [fractionDigits, hc, if_true]
    rw [← List.cons_append, htake, hdrop]

theorem exponent_exponentText {es t : List Char} (h : ∀ c ∈ es, c.isDigit = true)
    (ht : startsDigit t = false) (hexponent : exponent t = (none, t)) :
    exponent (exponentText es ++ t) = (exponent? es, t) := by
  cases es with
  | nil => exact hexponent
  | cons c es =>
    have hc : c.isDigit = true := h c List.mem_cons_self
    obtain ⟨htake, hdrop⟩ := takeWhile_isDigit h ht
    change exponent ('e' :: '-' :: c :: (es ++ t)) = _
    rw [exponent?, if_neg (List.cons_ne_nil c es)]
    simp only [exponent, sign, hc, if_true, decide_true, Bool.true_or]
    rw [← List.cons_append, htake, hdrop]

theorem sign_signText (negative : Bool) {s : List Char} (h : s.head? ≠ some '-')
    (h' : s.head? ≠ some '+') : sign (signText negative ++ s) = ((negative, negative), s) := by
  cases negative with
  | true => rfl
  | false =>
    change sign s = _
    unfold sign
    split
    · exact absurd rfl h
    · exact absurd rfl h'
    · rfl

/-- Behind such a text no number goes on. -/
structure EndsNumber (t : List Char) : Prop where
  digit : startsDigit t = false
  point : t.head? ≠ some '.'
  exponent : exponent t = (none, t)

theorem isDigit_eq_false_of_isAlpha {c : Char} (h : c.isAlpha = true) : c.isDigit = false :=
  isDigit_eq_false_of_isName (by simp [h])

theorem EndsNumber.of_isAlpha {t : List Char} (h : ∀ c ∈ t, c.isAlpha = true) : EndsNumber t := by
  cases t with
  | nil => exact ⟨rfl, by simp, rfl⟩
  | cons c t =>
    have hc := h c List.mem_cons_self
    refine ⟨isDigit_eq_false_of_isAlpha hc, ?_, ?_⟩
    · rintro hpoint
      cases hpoint
      cases hc
    · unfold Scan.exponent
      simp only
      split
      · cases t with
        | nil => rfl
        | cons d t =>
          have hd := h d (List.mem_cons_of_mem c List.mem_cons_self)
          have hsign : sign (d :: t) = ((false, false), d :: t) := by
            unfold sign
            split
            · next heq =>
              cases heq
              cases hd
            · next heq =>
              cases heq
              cases hd
            · rfl
          simp [hsign, isDigit_eq_false_of_isAlpha hd]
      · rfl

theorem EndsNumber.chars {s : Suffix} (h : s.Lettered) : EndsNumber s.chars := by
  cases s with
  | empty => exact .of_isAlpha (by simp [Suffix.chars])
  | percent => exact ⟨rfl, by simp [Suffix.chars], rfl⟩
  | unit n => exact .of_isAlpha h.2

/-- The value of a number, in double precision. -/
def numeralValue (negative : Bool) (whole fs : List Char) (n? : Option Int) : Binary :=
  let sum := (integral whole).add .double (fractional fs)
  let signed := if negative then sum.neg else sum
  n?.elim signed fun n => signed.mul .double (Binary.Format.double.powerOfTen n)

/-- The integer that a number is written as. -/
def numeralInt? (negative : Bool) (whole : List Char) (fs? : Option (List Char)) (n? : Option Int) :
    Option Int :=
  if fs?.isSome || n?.isSome then none
  else some (clamp (if negative then -(natural whole : Int) else natural whole))

end Scan

/-- The single-precision value of the token that a number with the suffix makes. -/
def Suffix.value (v : Binary) : Suffix → Single
  | percent => (v.div .double (Binary.Format.double.ofNat 100)).toFormat .single
  | _ => v.toFormat .single

namespace Scan

theorem name_of_isAlpha {s : List Char} (h : ∀ c ∈ s, c.isAlpha = true) : name s = (s, []) := by
  have hplain : s.all Escape.isPlain = true :=
    List.all_eq_true.mpr fun c hc => by simp [Escape.isPlain, Char.isAlphanum, h c hc]
  have hname := name_of_all_isPlain hplain (show name [] = ([], []) by rw [name])
  rwa [List.append_nil] at hname

theorem startsName_of_isAlpha {s : List Char} (hne : s ≠ []) (h : ∀ c ∈ s, c.isAlpha = true) :
    startsName s = true := by
  cases s with
  | nil => exact absurd rfl hne
  | cons c s =>
    have hc := h c List.mem_cons_self
    unfold startsName
    split
    · next heq =>
      cases heq
      cases hc
    · next heq =>
      cases heq
      cases hc
    · next heq =>
      cases heq
      simp [hc]
    · next heq => cases heq

/-- A number by its parts: what is behind the sign, the digits, the fraction and the exponent. -/
theorem numeric_of_parts {s t u v : List Char} {signed negative : Bool} {fs? : Option (List Char)}
    {n? : Option Int} {suffix : Suffix} (hsign : sign s = ((signed, negative), t))
    (hfraction : fractionDigits (t.dropWhile Char.isDigit) = (fs?, u))
    (hexponent : exponent u = (n?, v)) (hsuffix : suffix.Lettered) (hv : v = suffix.chars) :
    numeric s = (suffix.token signed (suffix.value
      (numeralValue negative (t.takeWhile Char.isDigit) (fs?.getD []) n?))
      (numeralInt? negative (t.takeWhile Char.isDigit) fs? n?), []) := by
  unfold numeric
  simp only [hsign, hfraction, hexponent]
  rw [hv]
  cases suffix with
  | empty => cases n? <;> rfl
  | percent => cases n? <;> rfl
  | unit n =>
    obtain ⟨hne, halpha⟩ := hsuffix
    simp only [Suffix.chars]
    split
    · next r heq =>
      have := halpha '%' (by simp [heq])
      cases this
    · rw [startsName_of_isAlpha hne halpha, name_of_isAlpha halpha]
      cases n? <;> simp [Suffix.token, Suffix.value, numeralValue, numeralInt?]

theorem numeric_numeral (negative : Bool) {whole fs es : List Char}
    (hwhole : ∀ c ∈ whole, c.isDigit = true) (hfs : ∀ c ∈ fs, c.isDigit = true)
    (hes : ∀ c ∈ es, c.isDigit = true) (hne : whole ≠ [] ∨ fs ≠ []) {s : Suffix} (hs : s.Lettered) :
    numeric (signText negative ++ (whole ++ (pointText fs ++ (exponentText es ++ s.chars)))) =
      (s.token negative (s.value (numeralValue negative whole fs (exponent? es)))
        (numeralInt? negative whole (digits? fs) (exponent? es)), []) := by
  obtain ⟨hdigit, hpoint, hexponent⟩ := EndsNumber.chars hs
  have hdigit' : startsDigit (exponentText es ++ s.chars) = false := by
    cases es with
    | nil => exact hdigit
    | cons => rfl
  have hpoint' : (exponentText es ++ s.chars).head? ≠ some '.' := by
    cases es with
    | nil => exact hpoint
    | cons => simp [exponentText]
  have hdigit'' : startsDigit (pointText fs ++ (exponentText es ++ s.chars)) = false := by
    cases fs with
    | nil => exact hdigit'
    | cons => rfl
  have hsigned (c : Char) (hc : c.isDigit = false) (hdot : c ≠ '.') :
      (whole ++ (pointText fs ++ (exponentText es ++ s.chars))).head? ≠ some c := by
    cases whole with
    | cons d whole =>
      intro h
      cases h
      rw [hwhole c List.mem_cons_self] at hc
      cases hc
    | nil =>
      cases fs with
      | nil => exact absurd hne (by simp)
      | cons =>
        intro h
        cases h
        exact hdot rfl
  have hsign := sign_signText negative (hsigned '-' rfl (by decide)) (hsigned '+' rfl (by decide))
  obtain ⟨htake, hdrop⟩ := takeWhile_isDigit hwhole hdigit''
  have hfraction := fractionDigits_pointText hfs hdigit' hpoint'
  have hget : (digits? fs).getD [] = fs := by
    cases fs <;> rfl
  rw [← hdrop] at hfraction
  rw [numeric_of_parts hsign hfraction (exponent_exponentText hes hdigit hexponent) hs rfl, htake,
    hget]

theorem isWordChar_of_isDigit {c : Char} (h : c.isDigit = true) : isWordChar c = true := by
  simp [isWordChar, Escape.isPlain, Char.isAlphanum, h]

theorem word_numeral (negative : Bool) {whole fs es : List Char}
    (hwhole : ∀ c ∈ whole, c.isDigit = true) (hfs : ∀ c ∈ fs, c.isDigit = true)
    (hes : ∀ c ∈ es, c.isDigit = true) {s : Suffix} (hs : s.Lettered) :
    Word (signText negative ++ (whole ++ (pointText fs ++ (exponentText es ++ s.chars)))) := by
  have hdigits {ds : List Char} (h : ∀ c ∈ ds, c.isDigit = true) : Word ds :=
    word_of_all (List.all_eq_true.mpr fun c hc => isWordChar_of_isDigit (h c hc))
  have hsign : Word (signText negative) := by
    cases negative with
    | true => exact word_of_all rfl
    | false => exact .nil
  have hpoint : Word (pointText fs) := by
    cases fs with
    | nil => exact .nil
    | cons c fs => exact .char (by decide) (hdigits hfs)
  have hexponent : Word (exponentText es) := by
    cases es with
    | nil => exact .nil
    | cons c es => exact .char (by decide) (.char (by decide) (hdigits hes))
  have hsuffix : Word s.chars := by
    cases s with
    | empty => exact .nil
    | percent => exact word_of_all rfl
    | unit n =>
      exact word_of_all
        (List.all_eq_true.mpr fun c hc => isWordChar_of_isAlpha (hs.2 c hc))
  exact hsign.append ((hdigits hwhole).append (hpoint.append (hexponent.append hsuffix)))

/-- Whether the digits of a number begin, perhaps behind a point. -/
theorem startsDigits_numeral {whole fs t : List Char} (hwhole : ∀ c ∈ whole, c.isDigit = true)
    (hfs : ∀ c ∈ fs, c.isDigit = true) (hne : whole ≠ [] ∨ fs ≠ []) :
    startsDigits (whole ++ (pointText fs ++ t)) = true ∧
      ∃ c r, whole ++ (pointText fs ++ t) = c :: r ∧
        (c.isDigit || (c = '.' && startsDigit r)) = true := by
  cases whole with
  | cons c whole =>
    have hc := hwhole c List.mem_cons_self
    have hdot : c ≠ '.' := by
      rintro rfl
      cases hc
    refine ⟨?_, c, _, rfl, by rw [hc]; rfl⟩
    rw [List.cons_append]
    unfold startsDigits
    split
    · next heq => exact absurd (List.cons.inj heq).1 hdot
    · exact hc
  | nil =>
    cases fs with
    | nil => exact absurd hne (by simp)
    | cons c fs =>
      have hc := hfs c List.mem_cons_self
      exact ⟨hc, '.', _, rfl, by simp [startsDigit, hc]⟩

/-- Such a text is one token. -/
theorem makes_numeral (negative : Bool) {whole fs es : List Char}
    (hwhole : ∀ c ∈ whole, c.isDigit = true) (hfs : ∀ c ∈ fs, c.isDigit = true)
    (hes : ∀ c ∈ es, c.isDigit = true) (hne : whole ≠ [] ∨ fs ≠ []) {s : Suffix} (hs : s.Lettered) :
    Makes wordStops (signText negative ++ (whole ++ (pointText fs ++ (exponentText es ++ s.chars))))
      [.token (s.token negative (s.value (numeralValue negative whole fs (exponent? es)))
        (numeralInt? negative whole (digits? fs) (exponent? es))) .start] := by
  have hnumeric := numeric_numeral negative hwhole hfs hes hne hs
  have hword := word_numeral negative hwhole hfs hes hs
  obtain ⟨hstarts, c, r, hshape, hc⟩ := startsDigits_numeral (t := exponentText es ++ s.chars)
    hwhole hfs hne
  have htoken : ∃ c r,
      signText negative ++ (whole ++ (pointText fs ++ (exponentText es ++ s.chars))) =
      c :: r ∧ token c r = numeric (c :: r) := by
    cases negative with
    | true =>
      refine ⟨'-', _, rfl, ?_⟩
      simp [token, single?, pair?, hstarts]
    | false =>
      refine ⟨c, r, hshape, ?_⟩
      change (whole ++ (pointText fs ++ (exponentText es ++ s.chars))) = c :: r at hshape
      have hplain : isWordChar c = true := by
        rcases Bool.or_eq_true_iff.mp hc with hc | hc
        · exact isWordChar_of_isDigit hc
        · obtain rfl : c = '.' := by simpa using (Bool.and_eq_true_iff.mp hc).1
          decide
      have hne : c ≠ '#' ∧ c ≠ '+' ∧ c ≠ '-' := by
        refine ⟨?_, ?_, ?_⟩ <;> rintro rfl <;> cases hc
      have hdigit : c.isDigit = true ∨ c = '.' ∧ startsDigit r = true := by simpa using hc
      simp [token, single?_of_isWordChar hplain, pair?_of_isWordChar hplain,
        ne_of_isWordChar hplain (d := '"') rfl,
          ne_of_isWordChar hplain (d := '\'') rfl, hne, hdigit]
  obtain ⟨c, r, hshape, htoken⟩ := htoken
  rw [hshape] at hnumeric hword ⊢
  obtain ⟨ks, hks, hnil⟩ := Makes.first hword
  rw [htoken, hnumeric] at hks hnil
  rwa [hnil rfl] at hks

end Scan

end StyleGrammar
