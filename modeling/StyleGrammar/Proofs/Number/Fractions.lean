import StyleGrammar.Proofs.Number.Integers
import StyleGrammar.Proofs.Number.Ranges
import StyleGrammar.Proofs.Reparse.PlainColors

/-!
# Numbers below one, without their leading zero

A number below one is written without the zero before its point.  What is left
is a number of the same sign, unless a negative one has no such zero to lose: in
scientific notation, or rounded up to one, it gets a second minus sign, and the
text begins with an identifier.
-/

namespace StyleGrammar

open Binary Decimal Output Scan Written Component

namespace Written

variable {m : Nat} {e : Int}

/-- The parts of a text of a positive number: digits before and behind its point, and digits of an
exponent below zero. -/
structure Parts (s whole fs es : List Char) : Prop where
  text : s = whole ++ (pointText fs ++ exponentText es)
  digits_whole : ∀ c ∈ whole, c.isDigit = true
  digits_fraction : ∀ c ∈ fs, c.isDigit = true
  digits_exponent : ∀ c ∈ es, c.isDigit = true
  length_whole : whole.length ≤ 2
  length_fraction : fs.length ≤ 20

theorem isDigit_map_digit {ds : List Nat} (h : ∀ d ∈ ds, d < 10) :
    ∀ c ∈ ds.map digit, c.isDigit = true := by
  intro c hc
  obtain ⟨d, hd, rfl⟩ := List.mem_map.mp hc
  exact (isDigit_digit d (h d hd)).1

/-- A decimal behind the point has its zero and a fraction. -/
theorem parts_positional {ds : List Nat} (h : ∀ d ∈ ds, d < 10) (hne : ds ≠ []) {point : Int}
    (hpoint : point ≤ 0) (hleast : -5 ≤ point) (hlength : ds.length ≤ 6) :
    ∃ fs, fs ≠ [] ∧ Parts (positional ds point false).toList ['0'] fs [] := by
  refine ⟨List.replicate (-point).toNat '0' ++ ds.map digit, by simp [hne], ?_,
    by simp, ?_, by simp,
    by simp, ?_⟩
  · unfold positional
    rw [if_pos hpoint]
    cases hk : (-point).toNat with
    | zero =>
      cases ds with
      | nil => exact absurd rfl hne
      | cons d ds => simp [zeros, digitText, pointText, exponentText]
    | succ k => simp [zeros, digitText, pointText, exponentText, List.replicate_succ]
  · intro c hc
    rcases List.mem_append.mp hc with hc | hc
    · rw [List.eq_of_mem_replicate hc]
      rfl
    · exact isDigit_map_digit h c hc
  · rw [List.length_append, List.length_replicate, List.length_map]
    omega

theorem toList_toString_of_neg {n : Int} (h : n < 0) :
    ∃ es, es ≠ [] ∧ (toString n).toList = '-' :: es ∧ ∀ c ∈ es, c.isDigit = true := by
  cases n with
  | ofNat k => exact absurd h (by simp)
  | negSucc k =>
    refine ⟨Nat.toDigits 10 (k + 1), Nat.toDigits_ne_nil, by simp [toString, Int.repr],
      fun c hc => ?_⟩
    exact Nat.isDigit_of_mem_toDigits (by decide) (by decide) hc

theorem parts_scientific {coefficient : String} {n : Int} (hn : n < 0) {whole fs : List Char}
    (h : Parts coefficient.toList whole fs []) :
    ∃ es, es ≠ [] ∧ Parts (scientific coefficient n).toList whole fs es := by
  obtain ⟨es, hne, hes, hdigits⟩ := toList_toString_of_neg hn
  refine ⟨es, hne, ?_, h.digits_whole, h.digits_fraction, hdigits, h.length_whole,
    h.length_fraction⟩
  have hexponent : exponentText es = 'e' :: '-' :: es := by
    cases es with
    | nil => exact absurd rfl hne
    | cons => rfl
  rw [scientific, String.toList_append, String.toList_append, h.text, hes, hexponent]
  simp [exponentText]

theorem parts_coefficient {ds : List Nat} (h : ∀ d ∈ ds, d < 10) (hlead : Leading ds)
    (hlength : ds.length ≤ 6) :
    ∃ c fs, c ≠ '0' ∧ Parts (coefficient ds).toList [c] fs [] := by
  obtain ⟨d, r, rfl, hd⟩ := hlead
  have hd10 := h d List.mem_cons_self
  have hdigit : ∀ c ∈ [digit d], c.isDigit = true := by
    intro c hc
    rw [List.mem_singleton.mp hc]
    exact (isDigit_digit d hd10).1
  have hr := isDigit_map_digit fun x hx => h x (List.mem_cons_of_mem d hx)
  refine ⟨digit d, r.map digit, (digit_facts d hd10).2 hd, ?_, hdigit, hr, by simp, by simp, ?_⟩
  · cases r with
    | nil => simp [coefficient, digitText, pointText, exponentText]
    | cons x r => simp [coefficient, digitText, pointText, exponentText]
  · rw [List.length_map]
    simp only [List.length_cons] at hlength
    omega

/-- A positive number below one has only digits behind its point. -/
theorem lt_pow_of_lt_one (hm : m ≠ 0) (hbelow : (m * 2 ^ e : ℚ) < 1) :
    e < 0 ∧ m < 2 ^ (-e).toNat := by
  have htwo : (0 : ℚ) < 2 ^ e := by positivity
  have hm1 : (1 : ℚ) ≤ m := by exact_mod_cast Nat.one_le_iff_ne_zero.mpr hm
  have hneg : ¬ 0 ≤ e := by
    intro hnonneg
    have : (1 : ℚ) ≤ 2 ^ e := one_le_zpow₀ (by norm_num) hnonneg
    nlinarith
  refine ⟨by omega, ?_⟩
  have : (m : ℚ) < 2 ^ (-e).toNat := by
    rwa [toNat_of_neg hneg, ← one_div, lt_div_iff₀ htwo]
  exact_mod_cast this

/-- The decimal of a number below one has its point in front. -/
theorem point_sheetDecimal_le (hm : m ≠ 0) (hlt : m < 2 ^ 24) (he : -149 ≤ e)
    (hbelow : (m * 2 ^ e : ℚ) < 1) : (sheetDecimal m e).point ≤ 0 := by
  obtain ⟨-, habove⟩ := value_sheetDecimal hm hlt he
  obtain ⟨hneg, hless⟩ := lt_pow_of_lt_one hm hbelow
  have htwo : (0 : ℚ) < 2 ^ e := by positivity
  have hfull : ((m : ℚ) + 1) * 2 ^ e ≤ 1 := by
    have : ((m + 1 : Nat) : ℚ) ≤ ((2 ^ (-e).toNat : Nat) : ℚ) := by exact_mod_cast hless
    push_cast at this
    rwa [toNat_of_neg (by omega), ← one_div, le_div_iff₀ htwo] at this
  by_contra hpoint
  have hpow := pow_le_value (leading_sheetDecimal hm hlt he)
  have : (1 : ℚ) ≤ 10 ^ ((sheetDecimal m e).point - 1) := one_le_zpow₀ (by norm_num) (by omega)
  linarith

theorem digits_of_carry {places : Nat} {ds : List Nat} (h : (restrict places ds).2 = true) :
    (restrict places ds).1 = [1] := by
  unfold restrict at h ⊢
  cases hcut : ds.drop places with
  | nil =>
    rw [hcut] at h
    cases h
  | cons next rest =>
    simp only [hcut] at h ⊢
    by_cases hnext : 5 ≤ next
    · simp only [if_pos hnext] at h ⊢
      rcases hincrement : increment (ds.take places) with ⟨kept, carry⟩
      rw [hincrement] at h
      cases carry with
      | false => cases h
      | true => rfl
    · simp only [if_neg hnext] at h
      cases h

theorem parts_one : Parts "1".toList ['1'] [] [] :=
  ⟨rfl, by simp, by simp, by simp, by simp, by simp⟩

theorem parts_ten : Parts "10".toList ['1', '0'] [] [] :=
  ⟨rfl, by simp, by simp, by simp, by simp, by simp⟩

/-- The text of a decimal with its point in front has a zero and a fraction, or begins with another
digit. -/
theorem parts_sheetMagnitude {d : Decimal} (hlead : Leading d.digits) (hlt : ∀ x ∈ d.digits, x < 10)
    (hpoint : d.point ≤ 0) :
    (∃ fs, fs ≠ [] ∧ Parts (sheetMagnitude d).toList ['0'] fs []) ∨
      ∃ c r fs es, c ≠ '0' ∧ Parts (sheetMagnitude d).toList (c :: r) fs es := by
  have hlead := leading_restrict (show 6 ≠ 0 by decide) hlead
  have hdigits : ∀ x ∈ (restrict 6 d.digits).1, x < 10 := restrict_digits hlt
  have hlength := length_restrict_le (show 0 < 6 by decide) d.digits
  have hne : (restrict 6 d.digits).1 ≠ [] := by
    obtain ⟨x, r, hxr, -⟩ := hlead
    simp [hxr]
  have hcarry : (restrict 6 d.digits).2 = true → (restrict 6 d.digits).1 = [1] := digits_of_carry
  have hshape : sheetMagnitude d =
      if sheetLayout.isPositional d.point then
        positional (restrict 6 d.digits).1
          (if (restrict 6 d.digits).2 then d.point + 1 else d.point) false
      else
        scientific (if (restrict 6 d.digits).2 then "10" else coefficient (restrict 6 d.digits).1)
          (d.point - 1) := rfl
  rw [hshape]
  generalize restrict 6 d.digits = x at *
  obtain ⟨ds, carry⟩ := x
  by_cases hpositional : sheetLayout.isPositional d.point = true
  · have hleast : -5 ≤ d.point := of_decide_eq_true (Bool.and_eq_true_iff.mp hpositional).1
    rw [if_pos hpositional]
    cases carry with
    | false => exact .inl (parts_positional hdigits hne hpoint hleast hlength)
    | true =>
      obtain rfl : ds = [1] := hcarry rfl
      by_cases hlast : d.point + 1 ≤ 0
      · exact .inl (parts_positional hdigits hne hlast (by omega) hlength)
      · have hpoint : d.point = 0 := by omega
        refine .inr ⟨'1', [], [], [], by decide, ?_⟩
        simp only [hpoint]
        exact parts_one
  · have hneg : d.point - 1 < 0 := by omega
    rw [if_neg hpositional]
    cases carry with
    | false =>
      obtain ⟨c, fs, hc, hparts⟩ := parts_coefficient hdigits hlead hlength
      obtain ⟨es, -, hparts⟩ := parts_scientific hneg hparts
      exact .inr ⟨c, [], fs, es, hc, hparts⟩
    | true =>
      obtain ⟨es, -, hparts⟩ := parts_scientific hneg parts_ten
      exact .inr ⟨'1', ['0'], [], es, by decide, hparts⟩

end Written

namespace Output

theorem stripped_of_not_prefix {strip s : List Char} (h : ¬ strip <+: s) (fuel : Nat) :
    stripped strip fuel s = s := by
  have hno : strip.isPrefixOf s = false := by
    rw [← Bool.not_eq_true, List.isPrefixOf_iff_prefix]
    exact h
  cases fuel with
  | zero => rfl
  | succ n =>
    rw [stripped, hno, Bool.and_false]
    rfl

theorem stripped_append {strip r : List Char} (hne : strip ≠ []) (h : ¬ strip <+: r) (fuel : Nat) :
    stripped strip (fuel + 1) (strip ++ r) = r := by
  have hyes : strip.isPrefixOf (strip ++ r) = true :=
    List.isPrefixOf_iff_prefix.mpr (List.prefix_append strip r)
  rw [stripped, hyes, List.drop_left, stripped_of_not_prefix h]
  simp [hne]

theorem toList_fraction (negative : Bool) (s : String) :
    chars (fraction negative s) =
      if negative then '-' :: stripped ['-', '0'] s.toList.length s.toList
      else stripped ['0'] s.toList.length s.toList := by
  cases negative <;> simp [fraction, String.length_toList]

/-- A zero in front of the point is dropped, once. -/
theorem chars_fraction_zero (negative : Bool) {s : String} {r : List Char}
    (hs : s.toList = signText negative ++ '0' :: '.' :: r) :
    chars (fraction negative s) = signText negative ++ '.' :: r := by
  rw [toList_fraction, hs]
  cases negative with
  | true =>
    have := @stripped_append ['-', '0'] ('.' :: r) (by simp) (by simp) (r.length + 2)
    simpa [signText] using this
  | false =>
    have := @stripped_append ['0'] ('.' :: r) (by simp) (by simp) (r.length + 1)
    simpa [signText] using this

/-- Without such a zero a negative number gets a second minus sign. -/
theorem chars_fraction_other (negative : Bool) {s : String} {c : Char} {r : List Char}
    (hc : c ≠ '0')
    (hs : s.toList = signText negative ++ c :: r) :
    chars (fraction negative s) = signText negative ++ s.toList := by
  rw [toList_fraction, hs]
  cases negative with
  | true =>
    rw [if_pos rfl, stripped_of_not_prefix (by simp [signText, hc.symm])]
    rfl
  | false =>
    rw [if_neg (by simp), stripped_of_not_prefix (by simp [signText, hc.symm])]
    rfl

end Output

namespace Scan

theorem within_numeralValue (negative : Bool) {s whole fs es : List Char}
    (h : Parts s whole fs es) :
    Within negative 26 (numeralValue negative whole fs (exponent? es)) := by
  have hwhole := h.length_whole
  have hfraction := h.length_fraction
  have hintegral := within_integral h.digits_whole (by omega)
  have hfractional := within_fractional h.digits_fraction (by omega)
  have hsum := (hintegral.mono (j := 24) (by omega)).add (reaches_double (by decide) (by decide))
    (hfractional.mono (by omega))
  have hsigned : Within negative 25
      (if negative then ((integral whole).add .double (fractional fs)).neg
      else (integral whole).add .double (fractional fs)) := by
    cases negative with
    | true => exact within_neg hsum
    | false => exact hsum
  unfold numeralValue
  cases hes : exponent? es with
  | none => exact hsigned.mono (by decide)
  | some n =>
    have hn : n ≤ 0 := by
      unfold exponent? at hes
      split at hes
      · cases hes
      · cases hes
        omega
    exact hsigned.mul (reaches_double (by decide) (by decide)) (within_powerOfTen hn)

theorem hundred_eq : Format.double.ofNat 100 = .finite false 7036874417766400 (-46) := by decide

/-- What was written with a sign is finite, and has the sign. -/
theorem exists_value (negative : Bool) {s whole fs es : List Char} (h : Parts s whole fs es)
    (suffix : Suffix) :
    ∃ m e, suffix.value (numeralValue negative whole fs (exponent? es)) = .finite negative m e := by
  have hvalue := within_numeralValue negative h
  have hsingle {v : Binary} (hv : Within negative 26 v) :
      ∃ m e, v.toFormat .single = .finite negative m e := by
    obtain ⟨m, e, heq, -⟩ := hv.toFormat (reaches_single (by decide) (by decide))
    exact ⟨m, e, heq⟩
  cases suffix with
  | empty => exact hsingle hvalue
  | unit => exact hsingle hvalue
  | percent =>
    refine hsingle ?_
    rw [hundred_eq]
    exact hvalue.div (reaches_double (by decide) (by decide)) (by norm_num)

end Scan

/-- A value of single precision. -/
def Binary.IsSingle (v : Binary) : Prop := ∀ s m e, v = .finite s m e → Format.single.Holds m e

namespace Output

/-- The text of a number without the single zero before its point. -/
def withoutZero : List Char → List Char
  | '-' :: '0' :: '.' :: r => '-' :: '.' :: r
  | '0' :: '.' :: r => '.' :: r
  | s => s

/-- What is written is the text of the token but for the zero before its point, with one sign, and
is read as one numeric token of that sign. -/
structure KeepsNumber (negative : Bool) (suffix : Suffix) (token out : List Char) : Prop where
  text : out = withoutZero token
  sign : ∃ r, out = signText negative ++ r ∧ r.head? ≠ some '-'
  reads : ∃ m e int?, bareAll (ofText out) =
    [.token (suffix.token negative (.finite negative m e) int?) .start]

/-- What is written is the text of the token behind a second minus sign, and begins with a name. -/
structure BecomesName (token out : List Char) : Prop where
  text : out = '-' :: token
  reads : ∃ name ks, bareAll (ofText out) = .token (.ident name) .start :: ks

/-- A negative number in whose text no zero stands behind the sign. -/
def lacksZero (v : Single) : Bool := v.isNegative && !(['-', '0'].isPrefixOf (sheet v).toList)

/-- How a number below one is written, by the text of its token. -/
def Shortened (v : Single) (suffix : Suffix) (token : String) (out : Output) : Prop :=
  if lacksZero v then BecomesName token.toList (chars out)
  else KeepsNumber v.isNegative suffix token.toList (chars out)

/-- A text behind two minus signs begins with a name. -/
theorem becomesName_of_word {r : List Char} {c : Char} (hword : Word (c :: r))
    (hc : c.isDigit = true) :
    ∃ name ks, bareAll (ofText ('-' :: '-' :: c :: r)) = .token (.ident name) .start :: ks := by
  have hword : Word ('-' :: '-' :: c :: r) := .char (by decide) (.char (by decide) hword)
  obtain ⟨ks, hks, -⟩ := Makes.first hword
  obtain ⟨-, hident, -⟩ := identLike_append hword (apart_nil wordStops)
  have hangle : c ≠ '>' := by
    rintro rfl
    cases hc
  have htoken : Scan.token '-' ('-' :: c :: r) = identLike ('-' :: '-' :: c :: r) := by
    simp [Scan.token, single?, Scan.pair?, startsDigits, startsDigit, startsName, hangle]
  rw [htoken, hident] at hks
  exact ⟨_, ks, hks.bareAll_ofText⟩

/-- The text of a number below one is its sign and the text of its magnitude. -/
theorem toList_numeric {negative : Bool} {m : Nat} {e : Int} (hm : m ≠ 0)
    (hbelow : (m * 2 ^ e : ℚ) < 1) (integral : Bool) :
    (numeric (.finite negative m e) integral).toList =
      signText negative ++ (sheetMagnitude (sheetDecimal m e)).toList := by
  obtain ⟨hneg, hlt⟩ := lt_pow_of_lt_one hm hbelow
  have hwhole : Binary.isWhole (.finite negative m e) = false := by
    simp only [Binary.isWhole, Nat.shiftLeft_eq, Nat.one_mul, Nat.mod_eq_of_lt hlt,
      not_le.mpr hneg, hm,
      decide_false, Bool.or_false]
  have hsheet := chars_signed negative (sheetMagnitude (sheetDecimal m e))
  rw [← sheet_of_ne_zero negative hm, chars_text] at hsheet
  unfold Written.numeric keepsFraction
  simp only [hwhole, Bool.and_false, Bool.false_and, Bool.false_eq_true, if_false]
  exact hsheet

theorem toList_sheet (negative : Bool) {m : Nat} {e : Int} (hm : m ≠ 0) :
    (sheet (.finite negative m e)).toList =
      signText negative ++ (sheetMagnitude (sheetDecimal m e)).toList := by
  have h := chars_signed negative (sheetMagnitude (sheetDecimal m e))
  rwa [← sheet_of_ne_zero negative hm, chars_text] at h

/-- A fraction is a finite value that is not zero, of a magnitude below one. -/
theorem eq_finite_of_isFraction {v : Single} (h : isFraction v Single.one = true) :
    ∃ m e, v = .finite v.isNegative m e ∧ m ≠ 0 ∧ (m * 2 ^ e : ℚ) < 1 := by
  rw [isFraction, Bool.and_eq_true, Bool.not_eq_true'] at h
  obtain ⟨hzero, hbelow⟩ := h
  cases v with
  | finite s m e =>
    have hm : m ≠ 0 := by simpa [Binary.isZero] using hzero
    refine ⟨m, e, by simp [Binary.isNegative, hm], hm, ?_⟩
    change below (.finite false m e) Single.one = true at hbelow
    rw [one_eq, below_iff] at hbelow
    norm_num at hbelow
    exact hbelow
  | infinite s => cases hbelow
  | nan => cases hbelow

section Parts

variable (negative : Bool) {suffix : Suffix} {s : String} {t fs : List Char}

/-- With a zero before its point the number is kept. -/
theorem shortened_of_zero (hsuffix : suffix.Lettered) (hne : fs ≠ []) (h : Parts t ['0'] fs [])
    (hs : s.toList = signText negative ++ (t ++ suffix.chars)) :
    if negative && !(['-', '0'].isPrefixOf (signText negative ++ t)) then
      BecomesName s.toList (chars (fraction negative s))
    else KeepsNumber negative suffix s.toList (chars (fraction negative s)) := by
  obtain ⟨c, r, rfl⟩ := List.exists_cons_of_ne_nil hne
  have htext : t = '0' :: '.' :: c :: r := by rw [h.text]; simp [pointText, exponentText]
  rw [htext] at hs ⊢
  have hlacks : (negative && !(['-', '0'].isPrefixOf (signText negative ++ '0' :: '.' :: c :: r))) =
      false := by
    cases negative <;> simp [signText, List.isPrefixOf]
  have hout : chars (fraction negative s) = signText negative ++ '.' :: c :: r ++ suffix.chars := by
    rw [chars_fraction_zero negative (by rw [hs]; rfl)]
    simp
  have hpoint : Parts ('.' :: c :: r) [] (c :: r) [] :=
    ⟨by simp [pointText, exponentText], by simp, h.digits_fraction, by simp, by simp,
      h.length_fraction⟩
  rw [hlacks, if_neg (by simp), hout]
  refine ⟨?_, ⟨'.' :: (c :: r ++ suffix.chars), by simp, by simp⟩, ?_⟩
  · rw [hs]
    cases negative <;> simp [signText, withoutZero]
  · obtain ⟨m, e, hvalue⟩ := exists_value negative hpoint suffix
    have hmakes := @makes_numeral negative [] (c :: r) [] (by simp) h.digits_fraction (by simp)
      (.inr hne) suffix hsuffix
    rw [hvalue] at hmakes
    have hshape : signText negative ++ '.' :: c :: r ++ suffix.chars =
        signText negative ++ ([] ++ (pointText (c :: r) ++ (exponentText [] ++ suffix.chars))) := by
      simp [pointText, exponentText]
    exact ⟨m, e, _, hshape ▸ hmakes.bareAll_ofText⟩

/-- Without one a positive number is kept, and a negative one becomes a name. -/
theorem shortened_of_other (hsuffix : suffix.Lettered) {c : Char} {r es : List Char} (hc : c ≠ '0')
    (h : Parts t (c :: r) fs es) (hs : s.toList = signText negative ++ (t ++ suffix.chars)) :
    if negative && !(['-', '0'].isPrefixOf (signText negative ++ t)) then
      BecomesName s.toList (chars (fraction negative s))
    else KeepsNumber negative suffix s.toList (chars (fraction negative s)) := by
  have hdigit := h.digits_whole c List.mem_cons_self
  have hminus : c ≠ '-' := by
    rintro rfl
    cases hdigit
  have hshape : t ++ suffix.chars =
      c :: r ++ (pointText fs ++ (exponentText es ++ suffix.chars)) := by
    rw [h.text]
    simp
  have htext : s.toList = signText negative ++ c ::
      (r ++ (pointText fs ++ (exponentText es ++ suffix.chars))) := by
    rw [hs, hshape]
    rfl
  have hout := chars_fraction_other negative hc htext
  cases negative with
  | true =>
    have hlacks : (true && !(['-', '0'].isPrefixOf (signText true ++ t))) = true := by
      rw [h.text]
      simp [signText, List.isPrefixOf, hc.symm]
    rw [hlacks, if_pos rfl, hout]
    have hword := word_numeral false h.digits_whole h.digits_fraction h.digits_exponent hsuffix
    refine ⟨rfl, ?_⟩
    rw [htext]
    exact becomesName_of_word hword hdigit
  | false =>
    rw [Bool.false_and, if_neg (by simp), hout]
    refine ⟨?_, ⟨s.toList, rfl, ?_⟩, ?_⟩
    · rw [htext]
      simp only [signText, Bool.false_eq_true, if_false, List.nil_append]
      unfold withoutZero
      split
      · next heq => exact absurd (List.cons.inj heq).1 hminus
      · next heq => exact absurd (List.cons.inj heq).1 hc
      · rfl
    · rw [htext]
      simpa [signText] using hminus
    · obtain ⟨m, e, hvalue⟩ := exists_value false h suffix
      have hmakes := makes_numeral false h.digits_whole h.digits_fraction h.digits_exponent
        (.inl (by simp)) hsuffix
      rw [hvalue, ← hshape, ← hs] at hmakes
      exact ⟨m, e, _, hmakes.bareAll_ofText⟩

end Parts

/-- How a number below one is written with a suffix. -/
theorem shortened_fraction {v : Single} (hsingle : v.IsSingle) (h : isFraction v Single.one = true)
    {suffix : Suffix} (hsuffix : suffix.Lettered) {integral : Bool} {s : String}
    (hs : s.toList = (numeric v integral).toList ++ suffix.chars) :
    Shortened v suffix s (fraction v.isNegative s) := by
  obtain ⟨m, e, hv, hm, hbelow⟩ := eq_finite_of_isFraction h
  obtain ⟨hlt, hleast, -, -⟩ := hsingle _ _ _ hv
  have hsheet : (sheet v).toList = signText v.isNegative ++
      (sheetMagnitude (sheetDecimal m e)).toList := by
    conv_lhs => rw [hv]
    exact toList_sheet v.isNegative hm
  have htext : s.toList = signText v.isNegative ++
      ((sheetMagnitude (sheetDecimal m e)).toList ++ suffix.chars) := by
    rw [hs, ← List.append_assoc]
    congr 1
    conv_lhs => rw [hv]
    exact toList_numeric hm hbelow integral
  have hparts := parts_sheetMagnitude (leading_sheetDecimal hm hlt hleast)
    (fun d => lt_ten_of_mem_sheetDecimal) (point_sheetDecimal_le hm hlt hleast hbelow)
  generalize (sheetMagnitude (sheetDecimal m e)).toList = t at hsheet htext hparts
  unfold Shortened lacksZero
  rw [hsheet]
  generalize v.isNegative = negative at htext ⊢
  rcases hparts with ⟨fs, hne, hparts⟩ | ⟨c, r, fs, es, hc, hparts⟩
  · exact shortened_of_zero negative hsuffix hne hparts htext
  · exact shortened_of_other negative hsuffix hc hparts htext

/-! Percentages. -/

theorem hundred_single : Percentage.hundred = .finite false 13107200 (-17) := by decide

theorem onePercent_eq : Percentage.onePercent = .finite false 10737418 (-30) := by decide

/-- Below one in a hundred there is room up to the next number. -/
theorem le_of_lt_onePercent {m : Nat} {e : Int} (hlt : m < 2 ^ 24)
    (h : (m * 2 ^ e : ℚ) < 10737418 * 2 ^ (-30 : Int)) :
    (m * 2 ^ e : ℚ) ≤ 10737417 * 2 ^ (-30 : Int) := by
  have hunit : (0 : ℚ) < 2 ^ (-30 : Int) := by positivity
  by_cases he : -30 ≤ e
  · have hsplit : (m * 2 ^ e : ℚ) = ((m * 2 ^ (e + 30).toNat : Nat) : ℚ) * 2 ^ (-30 : Int) := by
      push_cast
      rw [mul_assoc, ← zpow_natCast, ← zpow_add₀ (by norm_num)]
      congr 2
      omega
    rw [hsplit] at h ⊢
    have hless : ((m * 2 ^ (e + 30).toNat : Nat) : ℚ) < 10737418 :=
      lt_of_mul_lt_mul_right h hunit.le
    have : m * 2 ^ (e + 30).toNat ≤ 10737417 := by
      have : m * 2 ^ (e + 30).toNat < 10737418 := by exact_mod_cast hless
      omega
    have : ((m * 2 ^ (e + 30).toNat : Nat) : ℚ) ≤ 10737417 := by exact_mod_cast this
    exact mul_le_mul_of_nonneg_right this hunit.le
  · have hm : (m : ℚ) ≤ 2 ^ 24 := by exact_mod_cast hlt.le
    calc (m * 2 ^ e : ℚ) ≤ 2 ^ 24 * 2 ^ (-31 : Int) := by
          have : (2 : ℚ) ^ e ≤ 2 ^ (-31 : Int) := zpow_le_zpow_right₀ (by norm_num) (by omega)
          gcongr
      _ ≤ 10737417 * 2 ^ (-30 : Int) := by norm_num

/-- What is rounded from close below one stays below one. -/
theorem rounded_lt_one {m : Nat} {e : Int} (hholds : Format.single.Holds m e) {x : ℚ}
    (hlow : x - 2 ^ e / 2 ≤ m * 2 ^ e) (hhigh : m * 2 ^ e ≤ x + 2 ^ e / 2)
    (hx : x ≤ 1 - 124 / 2 ^ 30) : (m * 2 ^ e : ℚ) < 1 := by
  have htwo : (0 : ℚ) < 2 ^ e := by positivity
  have hm : (m : ℚ) < 2 ^ 24 := by exact_mod_cast hholds.lt_precision
  by_cases he : e ≤ -24
  · have : (2 : ℚ) ^ e ≤ 2 ^ (-24 : Int) := zpow_le_zpow_right₀ (by norm_num) he
    calc (m * 2 ^ e : ℚ) < 2 ^ 24 * 2 ^ e := by gcongr
      _ ≤ 2 ^ 24 * 2 ^ (-24 : Int) := by gcongr
      _ = 1 := by norm_num
  · have hfull : (2 ^ 23 : ℚ) ≤ m := by
      have : 2 ^ 23 ≤ m := hholds.full.resolve_right (by simp only [Format.single]; omega)
      exact_mod_cast this
    have : (2 : ℚ) ^ (-23 : Int) ≤ 2 ^ e := zpow_le_zpow_right₀ (by norm_num) (by omega)
    norm_num at this hx
    nlinarith

/-- A hundred times a fraction below one in a hundred is a fraction of the same sign. -/
theorem mul_hundred {v : Single} (hsingle : v.IsSingle)
    (h : isFraction v Percentage.onePercent = true) :
    (v.mul Percentage.hundred).IsSingle ∧ isFraction (v.mul Percentage.hundred) Single.one = true ∧
      (v.mul Percentage.hundred).isNegative = v.isNegative := by
  rw [isFraction, Bool.and_eq_true, Bool.not_eq_true'] at h
  obtain ⟨hzero, hbelow⟩ := h
  cases v with
  | infinite s => cases hbelow
  | nan => cases hbelow
  | finite s m e =>
  obtain ⟨hlt, hleast, -, -⟩ := hsingle _ _ _ rfl
  have hm : m ≠ 0 := by simpa [Binary.isZero] using hzero
  change below (.finite false m e) Percentage.onePercent = true at hbelow
  rw [onePercent_eq, below_iff] at hbelow
  have hsmall := le_of_lt_onePercent hlt (by exact_mod_cast hbelow)
  have hm1 : (1 : ℚ) ≤ m := by exact_mod_cast Nat.one_le_iff_ne_zero.mpr hm
  have htwo : (0 : ℚ) < 2 ^ e := by positivity
  set num := (quotient (m * 13107200) (e + -17)).1 with hnum
  set den := (quotient (m * 13107200) (e + -17)).2 with hden
  have hden0 : 0 < den := quotient_snd_pos _ _
  have hratio : (num / den : ℚ) = m * 2 ^ e * 100 := by
    rw [hnum, hden, quotient_div, zpow_add₀ (by norm_num)]
    push_cast
    norm_num
    ring
  have hnum0 : 0 < num := by
    have : (0 : ℚ) < num / den := by
      rw [hratio]
      positivity
    have := (div_pos_iff_of_pos_right (show (0 : ℚ) < den by exact_mod_cast hden0)).mp this
    exact_mod_cast this
  have hmul : Single.mul (.finite s m e) Percentage.hundred =
      Format.single.roundBy .even s num den := by
    rw [hundred_single]
    cases s <;> rfl
  have hless : (num / den : ℚ) ≤ 1 - 124 / 2 ^ 30 := by
    rw [hratio]
    norm_num at hsmall ⊢
    linarith
  have hleading : leadingExponent num den ≤ 0 := by
    obtain ⟨hpow, -⟩ := leadingExponent_bounds hnum0 hden0
    by_contra hpos
    have : (2 : ℚ) ^ (1 : Int) ≤ 2 ^ leadingExponent num den :=
      zpow_le_zpow_right₀ (by norm_num) (by omega)
    norm_num at this hless
    linarith
  rcases roundBy_cases (f := .single) (by decide) .even s hnum0 hden0 with
    ⟨-, hover⟩ | ⟨M, E, hround, hholds, hlow, hhigh⟩
  · simp only [Format.single] at hover
    omega
  have hM : M ≠ 0 := by
    rintro rfl
    have hE : E = Format.single.leastExponent := hholds.full.resolve_left (by decide)
    have hpow : (2 : ℚ) ^ E ≤ 2 ^ e := zpow_le_zpow_right₀ (by norm_num) (by omega)
    rw [hratio, Nat.cast_zero, zero_mul] at hlow
    nlinarith
  rw [hmul, hround]
  refine ⟨?_, ?_, ?_⟩
  · rintro s' m' e' heq
    cases heq
    exact hholds
  · have hone := rounded_lt_one hholds hlow hhigh hless
    have : below (.finite false M E) Single.one = true := by
      rw [one_eq, below_iff]
      norm_num
      exact hone
    simp only [isFraction, Binary.isZero, decide_eq_false hM, Binary.abs, this, Bool.not_false,
      Bool.and_self]
  · rw [Binary.isNegative, Binary.isNegative, bne_iff_ne.mpr hm, bne_iff_ne.mpr hM]

theorem number_of_isFraction {v : Single} {integral : Bool} (h : isFraction v Single.one = true) :
    number v integral = fraction v.isNegative (numeric v integral) := by
  obtain ⟨m, e, hv, -⟩ := eq_finite_of_isFraction h
  rw [hv] at h ⊢
  unfold number
  simp only [h, if_true]

/-- Numbers, dimensions and percentages below one lose the zero before their point and nothing else,
except for the negative ones in whose text no such zero stands behind the sign: those become
names. -/
theorem shortened_below_one (v : Single) (hsingle : v.IsSingle) :
    (isFraction v Single.one = true →
      (∀ integral, Shortened v .empty (numeric v integral) (number v integral)) ∧
      ∀ unit, isLettered unit = true →
        Shortened v (.unit unit) (numeric v v.isWhole ++ identifierText unit) (dimension v unit)) ∧
    (isFraction v Percentage.onePercent = true →
      (v.mul Percentage.hundred).isNegative = v.isNegative ∧
      ∀ compact, Shortened (v.mul Percentage.hundred) .percent
        (numeric (v.mul Percentage.hundred) (v.mul Percentage.hundred).isWhole ++ "%")
        (Printable.print compact (⟨v⟩ : Percentage))) := by
  refine ⟨fun h => ⟨fun integral => ?_, fun unit hunit => ?_⟩, fun h => ?_⟩
  · rw [number_of_isFraction h]
    exact shortened_fraction hsingle h (show Suffix.Lettered .empty from trivial)
      (List.append_nil _).symm
  · have htext : identifierText unit = unit := (IsWord.of_isLettered hunit).written
    have hdimension : dimension v unit =
        fraction v.isNegative (numeric v v.isWhole ++ identifierText unit) := by
      unfold dimension
      simp only [h, if_true]
    rw [isLettered, Bool.and_eq_true, List.all_eq_true] at hunit
    rw [hdimension, htext]
    have hlettered : Suffix.Lettered (.unit unit) := ⟨by simpa using hunit.1, hunit.2⟩
    exact shortened_fraction hsingle h hlettered (by rw [String.toList_append]; rfl)
  · obtain ⟨hsingle', h', hsign⟩ := mul_hundred hsingle h
    have hprint (compact : Bool) :
        Printable.print compact (⟨v⟩ : Percentage) = fraction v.isNegative
        (numeric (v.mul Percentage.hundred) (v.mul Percentage.hundred).isWhole ++ "%") := by
      change (if isFraction v Percentage.onePercent = true then _ else _) = _
      rw [if_pos h]
    refine ⟨hsign, fun compact => ?_⟩
    rw [hprint, ← hsign]
    exact shortened_fraction hsingle' h' (show Suffix.Lettered .percent from trivial)
      (by rw [String.toList_append]; rfl)

/-- Half of one, below zero. -/
def minusHalf : Single := .finite true 8388608 (-24)

/-- Half of a percent. -/
def halfPercent : Percentage := ⟨.finite false 10737418 (-31)⟩

theorem isSingle_of_holds {s : Bool} {m : Nat} {e : Int} (h : Binary.Format.single.Holds m e) :
    Binary.IsSingle (.finite s m e) := by
  rintro s' m' e' heq
  cases heq
  exact h

theorem shortened_halves :
    Shortened minusHalf .empty (numeric minusHalf false) (number minusHalf false) ∧
      Shortened minusHalf (.unit "px") (numeric minusHalf minusHalf.isWhole ++ identifierText "px")
        (dimension minusHalf "px") ∧
      (halfPercent.fraction.mul Percentage.hundred).isNegative = halfPercent.fraction.isNegative ∧
      (number minusHalf false).render = "-.5" ∧ (dimension minusHalf "px").render = "-.5px" ∧
      textOf false halfPercent = ".5%" :=
  have hhalf : minusHalf.IsSingle :=
    isSingle_of_holds ⟨by decide, by decide, by decide, .inl (by decide)⟩
  have hpercent : halfPercent.fraction.IsSingle :=
    isSingle_of_holds ⟨by decide, by decide, by decide, .inl (by decide)⟩
  have hbelow := (shortened_below_one minusHalf hhalf).1 (by decide)
  ⟨hbelow.1 false, hbelow.2 "px" (by decide),
    ((shortened_below_one halfPercent.fraction hpercent).2 (by decide)).1,
    by decide +kernel, by decide +kernel, by decide +kernel⟩

/-- A negative number in scientific notation gets a second minus sign, and is read as a name. -/
theorem not_number_tenMillionth :
    ((readText Single "-0.0000001").toOption.map (textOf false)) = some "--1e-7" ∧
      (readText Single "--1e-7").toOption = none ∧
      (readText DashedIdent "--1e-7").toOption = some ⟨"--1e-7"⟩ := by
  decide +kernel

end Output

end StyleGrammar
