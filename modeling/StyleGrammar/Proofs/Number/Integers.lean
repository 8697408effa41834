import StyleGrammar.Proofs.Number.Restrict
import StyleGrammar.Proofs.Reparse.Values
import StyleGrammar.Proofs.Token.Numerals

/-!
# Which integers are read back

An integer is written by way of its single-precision value, and of that six
digits.  So exactly the integers of at most six significant digits are read back.
-/

namespace StyleGrammar

open Output

namespace Decimal

variable {d : Decimal}

theorem pow_le_value (h : Leading d.digits) : (10 : ℚ) ^ (d.point - 1) ≤ d.value := by
  have hpow := pow_le_natOf h
  have hlength : 0 < d.digits.length := by
    obtain ⟨_, _, hd, -⟩ := h
    simp [hd]
  calc (10 : ℚ) ^ (d.point - 1)
      = ((10 ^ (d.digits.length - 1) : Nat) : ℚ) * 10 ^ (d.point - d.digits.length) := by
        push_cast
        rw [← zpow_natCast, ← zpow_add₀ (by norm_num)]
        congr 1
        omega
    _ ≤ d.value := by
        rw [value]
        gcongr

theorem value_lt_pow (h : ∀ n ∈ d.digits, n < 10) : d.value < 10 ^ d.point := by
  have hlt := natOf_lt h
  calc d.value < ((10 ^ d.digits.length : Nat) : ℚ) * 10 ^ (d.point - d.digits.length) := by
        rw [value]
        gcongr
    _ = 10 ^ d.point := by
        push_cast
        rw [← zpow_natCast, ← zpow_add₀ (by norm_num)]
        congr 1
        omega

/-- Restricted digits stand for a point of the grid of the last place kept. -/
theorem exists_value_restricted (h : ∀ n ∈ d.digits, n < 10) (places : Nat) :
    ∃ r : Nat, (d.restricted places).value = r * 10 ^ (d.point - places : Int) := by
  cases hcut : d.digits.drop places with
  | nil =>
    have hsame : d.restricted places = d := by
      unfold restricted restrict
      simp [hcut]
    have hlength : d.digits.length ≤ places := List.drop_eq_nil_iff.mp hcut
    refine ⟨natOf d.digits * 10 ^ (places - d.digits.length), ?_⟩
    rw [hsame, value]
    push_cast
    rw [mul_assoc, ← zpow_natCast, ← zpow_add₀ (by norm_num)]
    congr 2
    omega
  | cons next rest => exact ⟨_, value_restricted_of_cut h hcut⟩

/-- Digits that end in no zero and stand for a natural do not reach behind the point. -/
theorem length_le_of_value_eq {n : Nat} (htrimmed : Trimmed d.digits) (hlt : ∀ n ∈ d.digits, n < 10)
    (hvalue : d.value = n) : (d.digits.length : Int) ≤ max d.point 0 := by
  by_contra hlong
  obtain ⟨k, hk⟩ : ∃ k : Nat, (d.digits.length : Int) = d.point + (k + 1 : Nat) :=
    ⟨(d.digits.length - d.point - 1).toNat, by omega⟩
  have hnat : natOf d.digits = n * 10 ^ (k + 1) := by
    have hexponent : d.point - d.digits.length = -((k + 1 : Nat) : Int) := by omega
    rw [value, hexponent, zpow_neg, zpow_natCast, ← div_eq_mul_inv,
      div_eq_iff (by positivity)] at hvalue
    exact_mod_cast hvalue
  obtain ⟨es, x, hx⟩ : ∃ es x, d.digits = es ++ [x] := by
    rcases List.eq_nil_or_concat d.digits with hnil | ⟨es, x, hx⟩
    · rw [hnil] at hlong
      simp at hlong
    · exact ⟨es, x, by simpa using hx⟩
  have hx10 : x < 10 := hlt x (by simp [hx])
  rw [hx, natOf_append, Nat.pow_succ, ← Nat.mul_assoc] at hnat
  have hx0 : x = 0 := by
    simp only [natOf, List.foldl_cons, List.foldl_nil, List.length_singleton] at hnat
    omega
  exact htrimmed es (by rw [hx, hx0])

theorem trimmed_restrict {places : Nat} {ds : List Nat} (h : Trimmed ds) :
    Trimmed (restrict places ds).1 := by
  have hone : Trimmed [1] := by
    intro es h
    have := congrArg List.getLast? h
    simp at this
  unfold restrict
  split
  · exact h
  split
  · split
    · exact trimmed_dropTrailingZeros _
    · exact hone
  · exact trimmed_dropTrailingZeros _

theorem length_dropTrailingZeros_le (ds : List Nat) :
    (dropTrailingZeros ds).length ≤ ds.length := by
  rw [dropTrailingZeros, List.length_reverse, ← ds.length_reverse]
  exact (List.dropWhile_sublist _).length_le

theorem length_restrict_le {places : Nat} (hplaces : 0 < places) (ds : List Nat) :
    (restrict places ds).1.length ≤ places := by
  have htake : (ds.take places).length ≤ places := List.length_take_le places ds
  unfold restrict
  split
  · next h => exact List.drop_eq_nil_iff.mp h
  split
  · split
    · next kept heq =>
      have := (increment_spec (ds.take places)).1
      rw [heq] at this
      exact (length_dropTrailingZeros_le kept).trans (this.trans_le htake)
    · exact hplaces
  · exact (length_dropTrailingZeros_le _).trans htake

/-- A number of at most six digits is on the grid of six places of a decimal close to it. -/
theorem exists_multiple {n a k : Nat} {u : ℚ} (hlead : Leading d.digits)
    (hnear : |d.value - n| ≤ u) (hfine : u * (2 ^ 23 - 1 / 2) ≤ n) (hn : n = a * 10 ^ k)
    (ha : a < 10 ^ 6) : ∃ s : Nat, (n : ℚ) = s * 10 ^ (d.point - 6) := by
  by_cases hk : d.point - 6 ≤ k
  · refine ⟨a * 10 ^ (k - (d.point - 6)).toNat, ?_⟩
    rw [hn]
    push_cast
    rw [mul_assoc, ← zpow_natCast, ← zpow_natCast, ← zpow_add₀ (by norm_num)]
    congr 2
    omega
  · exfalso
    have hlow := pow_le_value hlead
    obtain ⟨-, hnear⟩ := abs_le.mp hnear
    have hstep : (10 : ℚ) ^ 6 * 10 ^ k ≤ 10 ^ (d.point - 1) := by
      rw [← pow_add, ← zpow_natCast]
      exact zpow_le_zpow_right₀ (by norm_num) (by push_cast; omega)
    have hless : (n : ℚ) + 10 ^ k ≤ 10 ^ 6 * 10 ^ k := by
      have : n + 10 ^ k ≤ 10 ^ 6 * 10 ^ k := by
        rw [hn, ← Nat.succ_mul]
        exact Nat.mul_le_mul_right _ ha
      exact_mod_cast this
    have hten : (0 : ℚ) < 10 ^ k := by positivity
    linarith

theorem value_restricted_eq {n a k : Nat} {u : ℚ} (hlead : Leading d.digits)
    (hlt : ∀ n ∈ d.digits, n < 10) (hnear : |d.value - n| ≤ u) (hfine : u * (2 ^ 23 - 1 / 2) ≤ n)
    (hn : n = a * 10 ^ k) (ha : a < 10 ^ 6) : (d.restricted 6).value = n := by
  obtain ⟨r, hr⟩ := exists_value_restricted hlt 6
  obtain ⟨s, hs⟩ := exists_multiple hlead hnear hfine hn ha
  have hcut := value_restricted hlt 6
  have hhigh := value_lt_pow hlt
  have hpow : (10 : ℚ) ^ d.point = 10 ^ 6 * 10 ^ (d.point - 6) := by
    rw [← zpow_natCast, ← zpow_add₀ (by norm_num)]
    congr 1
    push_cast
    ring
  push_cast at hr hcut
  set g : ℚ := 10 ^ (d.point - 6) with hg
  have hg0 : 0 < g := by positivity
  have hclose : |(r : ℚ) * g - s * g| < g := by
    rw [← hr, ← hs]
    obtain ⟨hcut1, hcut2⟩ := abs_le.mp hcut
    obtain ⟨hnear1, hnear2⟩ := abs_le.mp hnear
    rw [abs_lt]
    constructor <;> linarith
  have heq : (r : ℤ) = s := by
    rw [← sub_mul, abs_mul, abs_of_pos hg0] at hclose
    have : |(r : ℚ) - s| < 1 := by
      by_contra h
      have := mul_le_mul_of_nonneg_right (not_lt.mp h) hg0.le
      linarith
    rw [← Int.sub_eq_zero, ← Int.abs_lt_one_iff]
    exact_mod_cast this
  rw [hr, hs, Int.ofNat_inj.mp heq]

end Decimal

namespace Binary

/-- An integer of 32 bits in single precision: with all 24 digits, and within half a unit. -/
theorem exists_ofInt {n : Int} (hn : n ≠ 0) (h : n.natAbs ≤ 2 ^ 31) :
    ∃ m e, Single.ofInt n = .finite (n < 0) m e ∧ Format.single.Holds m e ∧ 2 ^ 23 ≤ m ∧ -23 ≤ e ∧
      (n.natAbs - 2 ^ e / 2 : ℚ) ≤ m * 2 ^ e ∧ (m * 2 ^ e : ℚ) ≤ n.natAbs + 2 ^ e / 2 := by
  have hpos : 0 < n.natAbs := Int.natAbs_pos.mpr hn
  have hone : (1 : ℚ) ≤ n.natAbs := by exact_mod_cast hpos
  obtain ⟨hlead, -⟩ := leadingExponent_bounds hpos Nat.one_pos
  have hfew : leadingExponent n.natAbs 1 ≤ 31 := by
    have hle : (2 : ℚ) ^ leadingExponent n.natAbs 1 ≤ 2 ^ (31 : Int) := by
      refine hlead.trans ?_
      rw [Nat.cast_one, div_one]
      exact_mod_cast h
    exact (zpow_le_zpow_iff_right₀ (by norm_num)).mp hle
  rcases roundBy_cases (f := .single) (by decide) .even (decide (n < 0)) hpos Nat.one_pos with
    ⟨-, hover⟩ | ⟨m, e, hround, hholds, hlow, hhigh⟩
  · simp only [Format.single] at hover
    omega
  · rw [Nat.cast_one, div_one] at hlow hhigh
    have hlt : (m : ℚ) + 1 ≤ 2 ^ 24 := by exact_mod_cast hholds.lt_precision
    have htwo : (0 : ℚ) < 2 ^ e := by positivity
    have he : -23 ≤ e := by
      by_contra he
      have hsmall : (2 : ℚ) ^ 24 * 2 ^ e ≤ 1 := by
        rw [← zpow_natCast, ← zpow_add₀ (by norm_num)]
        exact zpow_le_one_of_nonpos₀ (by norm_num) (by omega)
      have : (m + 1) * (2 : ℚ) ^ e ≤ 2 ^ 24 * 2 ^ e := by gcongr
      linarith
    refine ⟨m, e, hround, hholds, ?_, he, hlow, hhigh⟩
    rcases hholds.full with hfull | hleast
    · exact hfull
    · simp only [Format.single] at hleast
      omega

/-- Magnitudes compare as the rationals they are. -/
theorem below_iff (m : Nat) (e : Int) (m' : Nat) (e' : Int) :
    below (.finite false m e) (.finite false m' e') = true ↔ (m * 2 ^ e : ℚ) < m' * 2 ^ e' := by
  have hd : (0 : ℚ) < (quotient m e).2 := by exact_mod_cast quotient_snd_pos m e
  have hd' : (0 : ℚ) < (quotient m' e').2 := by exact_mod_cast quotient_snd_pos m' e'
  rw [← quotient_div, ← quotient_div, div_lt_div_iff₀ hd hd']
  simp only [below, signedQuotient, Bool.false_eq_true, if_false, decide_eq_true_eq]
  exact_mod_cast Iff.rfl

theorem one_eq : Single.one = .finite false 8388608 (-23) := by decide

end Binary

/-! Digits in a text. -/

namespace Written

open Scan Decimal

theorem isDigit_digit : ∀ d < 10, (digit d).isDigit = true ∧ digitValue (digit d) = d := by decide

theorem all_isDigit_digits {ds : List Nat} (h : ∀ d ∈ ds, d < 10) (k : Nat) :
    ∀ c ∈ ds.map digit ++ List.replicate k '0', c.isDigit = true := by
  intro c hc
  rcases List.mem_append.mp hc with hc | hc
  · obtain ⟨d, hd, rfl⟩ := List.mem_map.mp hc
    exact (isDigit_digit d (h d hd)).1
  · rw [List.eq_of_mem_replicate hc]
    rfl

theorem natural_digits {ds : List Nat} (h : ∀ d ∈ ds, d < 10) (k : Nat) :
    natural (ds.map digit ++ List.replicate k '0') = natOf ds * 10 ^ k := by
  have hdigits (n : Nat) : (ds.map digit).foldl (fun n d => 10 * n + digitValue d) n =
      ds.foldl (fun n d => 10 * n + d) n := by
    induction ds generalizing n with
    | nil => rfl
    | cons d ds ih =>
      rw [List.map_cons, List.foldl_cons, List.foldl_cons,
        (isDigit_digit d (h d List.mem_cons_self)).2]
      exact ih (fun e he => h e (List.mem_cons_of_mem d he)) _
  have hzeros (n : Nat) : (List.replicate k '0').foldl (fun n d => 10 * n + digitValue d) n =
      n * 10 ^ k := by
    induction k generalizing n with
    | zero => simp
    | succ k ih =>
      rw [List.replicate_succ, List.foldl_cons, ih, Nat.pow_succ]
      simp only [digitValue]
      change (10 * n + 0) * 10 ^ k = _
      ring
  rw [natural, List.foldl_append, hdigits, hzeros, natOf]

/-- A decimal whose digits do not reach behind the point is written without one. -/
theorem positional_whole {d : Decimal} (hpoint : 0 < d.point)
    (hlength : (d.digits.length : Int) ≤ d.point) :
    (positional d.digits d.point false).toList =
      d.digits.map digit ++ List.replicate (d.point.toNat - d.digits.length) '0' := by
  have hle : d.digits.length ≤ d.point.toNat := by omega
  unfold positional
  rw [if_neg (by omega)]
  simp [List.drop_eq_nil_iff.mpr hle, List.take_of_length_le hle, digitText, zeros]

theorem sheetMagnitude_positional {d : Decimal} (h : sheetLayout.isPositional d.point = true) :
    sheetMagnitude d = positional (d.restricted 6).digits (d.restricted 6).point false := by
  unfold sheetMagnitude restricted
  simp only [h, if_true]
  rfl

end Written

open Reader Scan Written in
/-- Digits behind a sign are read as the integer they stand for, within 32 bits. -/
theorem readText_digits (negative : Bool) {ds : List Char} (hne : ds ≠ [])
    (h : ∀ c ∈ ds, c.isDigit = true) {s : String} (hs : s.toList = signText negative ++ ds) :
    readText Int s = .ok (clamp (if negative then -(natural ds : Int) else natural ds)) := by
  have hmakes := @makes_numeral negative ds [] [] h (by simp) (by simp) (.inl hne) .empty
    trivial
  have hshape : signText negative ++
      (ds ++ (pointText [] ++ (exponentText [] ++ Suffix.empty.chars))) =
      s.toList := by
    simp [pointText, exponentText, Suffix.chars, hs]
  rw [hshape] at hmakes
  have hread {v : Single} {i : Int} :
      Takes (Ahead 0 [.token (.number negative v (some i)) .start]) (Stand 0 []) i Reader.integer :=
    takes_token rfl
  exact run_of_takes hmakes.bareAll_ofText
    ((hread.before fun _ hc => hc.ahead).after fun _ hc => hc.ahead)

/-- An integer of at most six significant digits. -/
def SixDigits (n : Int) : Prop := ∃ a k : Nat, n.natAbs = a * 10 ^ k ∧ a < 10 ^ 6

section Texts

open Binary Decimal Written

variable {n : Int} {m : Nat} {e : Int}

/-- The point of the decimal that stands for an integer. -/
theorem point_bounds {d : Decimal} (hlead : Leading d.digits) (hlt : ∀ n ∈ d.digits, n < 10)
    {x : ℚ} (hnear : |d.value - x| ≤ x / 2) (hx : 1 ≤ x) (hx' : x ≤ 10 ^ 10) :
    0 ≤ d.point ∧ d.point ≤ 11 := by
  obtain ⟨hlow, hhigh⟩ := abs_le.mp hnear
  have hpow := pow_le_value hlead
  have hpow' := value_lt_pow hlt
  constructor
  · by_contra hneg
    have hsmall : (10 : ℚ) ^ d.point ≤ 1 / 10 := by
      calc (10 : ℚ) ^ d.point ≤ 10 ^ (-1 : Int) := zpow_le_zpow_right₀ (by norm_num) (by omega)
        _ = 1 / 10 := by norm_num
    linarith
  · by_contra hbig
    have hlarge : (10 ^ 11 : ℚ) ≤ 10 ^ (d.point - 1) := by
      calc (10 ^ 11 : ℚ) = 10 ^ (11 : Int) := by norm_num
        _ ≤ 10 ^ (d.point - 1) := zpow_le_zpow_right₀ (by norm_num) (by omega)
    linarith

theorem isPositional_of_bounds {point : Int} (hleast : 0 ≤ point) (hmost : point ≤ 11) :
    sheetLayout.isPositional point = true := by
  have hleast : (-5 : Int) ≤ point := by omega
  have hmost : point ≤ (21 : Int) := by omega
  exact Bool.and_eq_true_iff.mpr ⟨decide_eq_true hleast, decide_eq_true hmost⟩

/-- Six digits of a decimal close to a natural do not reach behind the point, and are those of the
natural if it has no more. -/
theorem restricted_whole {d : Decimal} (hlead : Leading d.digits) (hlt : ∀ x ∈ d.digits, x < 10)
    (htrimmed : Trimmed d.digits) {n : Nat} {u : ℚ} (hnear : |d.value - n| ≤ u)
    (hfine : u * (2 ^ 23 - 1 / 2) ≤ n) :
    (d.restricted 6).digits ≠ [] ∧ (d.restricted 6).digits.length ≤ 6 ∧
      (∀ x ∈ (d.restricted 6).digits, x < 10) ∧ 0 < (d.restricted 6).point ∧
      ((d.restricted 6).digits.length : Int) ≤ (d.restricted 6).point ∧
      ((∃ a k, n = a * 10 ^ k ∧ a < 10 ^ 6) → natOf (d.restricted 6).digits *
        10 ^ ((d.restricted 6).point.toNat - (d.restricted 6).digits.length) = n) := by
  have hdigits : ∀ x ∈ (d.restricted 6).digits, x < 10 := restrict_digits hlt
  have hlength : (d.restricted 6).digits.length ≤ 6 := length_restrict_le (by decide) _
  have hlead' : Leading (d.restricted 6).digits := leading_restrict (by decide) hlead
  have hpos : 0 < (d.restricted 6).digits.length := by
    obtain ⟨x, r, hxr, -⟩ := hlead'
    simp [hxr]
  have hrise : d.point ≤ (d.restricted 6).point := by
    unfold restricted
    dsimp only
    split <;> omega
  have hvalue (hshort : ∃ a k, n = a * 10 ^ k ∧ a < 10 ^ 6) : (d.restricted 6).value = n := by
    obtain ⟨a, k, hak, ha⟩ := hshort
    exact value_restricted_eq hlead hlt hnear hfine hak ha
  have hfits : ((d.restricted 6).digits.length : Int) ≤ (d.restricted 6).point := by
    by_cases hshort : ∃ a k, n = a * 10 ^ k ∧ a < 10 ^ 6
    · have := length_le_of_value_eq (trimmed_restrict htrimmed) hdigits (hvalue hshort)
      omega
    · have hlarge : (10 ^ 6 : ℚ) ≤ n := by
        have : 10 ^ 6 ≤ n := by
          by_contra hsmall
          exact hshort ⟨n, 0, by simp, by omega⟩
        exact_mod_cast this
      have hsix : 6 ≤ d.point := by
        by_contra hfew
        have hpow := value_lt_pow hlt
        obtain ⟨hnear', -⟩ := abs_le.mp hnear
        have : (10 : ℚ) ^ d.point ≤ 10 ^ 5 := by
          calc (10 : ℚ) ^ d.point ≤ 10 ^ (5 : Int) := zpow_le_zpow_right₀ (by norm_num) (by omega)
            _ = 10 ^ 5 := by norm_num
        linarith
      omega
  refine ⟨List.length_pos_iff.mp hpos, hlength, hdigits, by omega, hfits, fun hshort => ?_⟩
  have heq := hvalue hshort
  have hexponent : (d.restricted 6).point - ((d.restricted 6).digits.length : Int) =
      (((d.restricted 6).point.toNat - (d.restricted 6).digits.length : Nat) : Int) := by
    omega
  rw [value, hexponent, zpow_natCast] at heq
  exact_mod_cast heq

theorem chars_signed (negative : Bool) (s : String) :
    chars (text (if negative then "-" ++ s else s)) = Scan.signText negative ++ s.toList := by
  cases negative <;> simp [Scan.signText]

theorem isFraction_eq_false {negative : Bool} (hone : (1 : ℚ) ≤ m * 2 ^ e) :
    isFraction (.finite negative m e) Single.one = false := by
  have hbelow : below (.finite false m e) Single.one = false := by
    rw [← Bool.not_eq_true, one_eq, below_iff]
    intro hlt
    norm_num at hlt
    linarith
  simp only [isFraction, Binary.abs, hbelow, Bool.and_false]

theorem number_of_isFraction_eq_false {negative : Bool}
    (h : isFraction (.finite negative m e) Single.one = false) :
    number (.finite negative m e) true = text (sheet (.finite negative m e)) := by
  unfold number
  simp only [h, Bool.false_eq_true, if_false, numericToken, keepsFraction, Bool.not_true,
    Bool.false_and, List.append_nil]

theorem sheet_of_ne_zero (negative : Bool) (hm : m ≠ 0) : sheet (.finite negative m e) =
    if negative then "-" ++ sheetMagnitude (sheetDecimal m e)
    else sheetMagnitude (sheetDecimal m e) := by
  simp only [sheet, if_neg hm]

/-- A whole part in single precision is written with its sign and six digits. -/
theorem chars_number (negative : Bool) (hm : m ≠ 0) (hone : (1 : ℚ) ≤ m * 2 ^ e)
    (hpoint : sheetLayout.isPositional (sheetDecimal m e).point = true) :
    chars (number (.finite negative m e) true) = Scan.signText negative ++
      (positional ((sheetDecimal m e).restricted 6).digits
        ((sheetDecimal m e).restricted 6).point false).toList := by
  rw [number_of_isFraction_eq_false (isFraction_eq_false hone), sheet_of_ne_zero negative hm,
    chars_signed, sheetMagnitude_positional hpoint]

/-- The text of an integer is its sign and digits, of which only the first six may differ from zero:
the digits of the integer itself if it has no more than six. -/
theorem exists_text (hn : n ≠ 0) (h : n.natAbs ≤ 2 ^ 31) (compact : Bool) :
    ∃ ds : List Nat, ∃ k : Nat, ds ≠ [] ∧ ds.length ≤ 6 ∧ (∀ d ∈ ds, d < 10) ∧
      (textOf compact n).toList =
        Scan.signText (n < 0) ++ (ds.map digit ++ List.replicate k '0') ∧
      (SixDigits n → natOf ds * 10 ^ k = n.natAbs) := by
  obtain ⟨m, e, hvalue, hholds, hfull, he, hlow, hhigh⟩ := exists_ofInt hn h
  have hm : m ≠ 0 := by
    rintro rfl
    omega
  have hleast : -149 ≤ e := by omega
  have hlead := leading_sheetDecimal hm hholds.lt_precision hleast
  have hlt : ∀ d ∈ (sheetDecimal m e).digits, d < 10 := fun d => lt_ten_of_mem_sheetDecimal
  have htrimmed := trimmed_sheetDecimal hm hholds.lt_precision hleast
  obtain ⟨hbelow, habove⟩ := value_sheetDecimal hm hholds.lt_precision hleast
  have htext : (textOf compact n).toList = chars (number (.finite (n < 0) m e) true) := by
    rw [textOf, toList_render, ← hvalue]
    rfl
  have hone : (1 : ℚ) ≤ n.natAbs := by exact_mod_cast Int.natAbs_pos.mpr hn
  have hmost : (n.natAbs : ℚ) ≤ 10 ^ 10 := by
    calc (n.natAbs : ℚ) ≤ ((2 ^ 31 : Nat) : ℚ) := by exact_mod_cast h
      _ ≤ 10 ^ 10 := by norm_num
  have hunit : (0 : ℚ) < 2 ^ e := by positivity
  have hfull : (2 ^ 23 : ℚ) * 2 ^ e ≤ m * 2 ^ e := by
    have : (2 ^ 23 : ℚ) ≤ m := by exact_mod_cast hfull
    gcongr
  have hwhole : (1 : ℚ) ≤ m * 2 ^ e := by
    calc (1 : ℚ) = 2 ^ 23 * 2 ^ (-23 : Int) := by norm_num
      _ ≤ 2 ^ 23 * 2 ^ e := by
        gcongr
        norm_num
      _ ≤ m * 2 ^ e := hfull
  have hfine : (2 : ℚ) ^ e * (2 ^ 23 - 1 / 2) ≤ n.natAbs := by linarith
  have hnear : |(sheetDecimal m e).value - n.natAbs| ≤ 2 ^ e :=
    abs_le.mpr ⟨by linarith, by linarith⟩
  obtain ⟨hpoint, hpoint'⟩ := point_bounds hlead hlt (hnear.trans (by linarith)) hone hmost
  rw [chars_number _ hm hwhole (isPositional_of_bounds hpoint hpoint')] at htext
  obtain ⟨hnonempty, hlength, hdigits, hpos, hfits, hshort⟩ :=
    restricted_whole hlead hlt htrimmed hnear hfine
  rw [positional_whole hpos hfits] at htext
  exact ⟨_, _, hnonempty, hlength, hdigits, htext, hshort⟩

end Texts

open Scan Written Decimal

theorem natOf_lt_million {ds : List Nat} (h : ∀ d ∈ ds, d < 10) (hlength : ds.length ≤ 6) :
    natOf ds < 10 ^ 6 :=
  (natOf_lt h).trans_le (Nat.pow_le_pow_right (by decide) hlength)

/-- The bounds of 32 bits are cut to six digits, which the reader does not take for the bounds. -/
theorem readText_bounds :
    (readText Int (textOf false (2147483647 : Int))).toOption = some 2147480000 ∧
      (readText Int (textOf false (-2147483648 : Int))).toOption = some (-2147480000) := by
  decide +kernel

/-- An integer of 32 bits is read back if and only if it has at most six significant digits. -/
theorem readText_integer_iff {n : Int} (hleast : -2147483648 ≤ n) (hmost : n ≤ 2147483647)
    (compact : Bool) : readText Int (textOf compact n) = .ok n ↔ SixDigits n := by
  by_cases hn : n = 0
  · subst hn
    have hread : readText Int (textOf compact (0 : Int)) = .ok 0 := by
      cases compact <;> decide +kernel
    exact ⟨fun _ => ⟨0, 0, by decide, by decide⟩, fun _ => hread⟩
  obtain ⟨ds, k, hne, hlength, hdigits, htext, hshort⟩ := exists_text hn (by omega) compact
  have hnonempty : ds.map digit ++ List.replicate k '0' ≠ [] := by simp [hne]
  have hread := readText_digits _ hnonempty (all_isDigit_digits hdigits k) htext
  rw [natural_digits hdigits] at hread
  have hclamp (x : Int) : clamp x = max (-2147483648) (min 2147483647 x) := rfl
  constructor
  · intro h
    have hinside : n ≠ 2147483647 ∧ n ≠ -2147483648 := by
      obtain ⟨hupper, hlower⟩ := readText_bounds
      constructor <;> rintro rfl
      · change (readText Int (textOf compact (2147483647 : Int))).toOption = _ at hupper
        rw [h] at hupper
        exact absurd hupper (by decide)
      · change (readText Int (textOf compact (-2147483648 : Int))).toOption = _ at hlower
        rw [h] at hlower
        exact absurd hlower (by decide)
    refine ⟨natOf ds, k, ?_, natOf_lt_million hdigits hlength⟩
    rw [hread, Except.ok.injEq, hclamp] at h
    generalize natOf ds * 10 ^ k = x at h
    by_cases hneg : n < 0
    · simp only [hneg, decide_true, if_true] at h
      omega
    · simp only [hneg, decide_false, Bool.false_eq_true, if_false] at h
      omega
  · intro h
    rw [hread, hshort h, hclamp]
    by_cases hneg : n < 0
    · simp only [hneg, decide_true, if_true, Except.ok.injEq]
      omega
    · simp only [hneg, decide_false, Bool.false_eq_true, if_false, Except.ok.injEq]
      omega

theorem readText_integer_large :
    (-2147483648 : Int) ≤ -1234560000 ∧ (-1234560000 : Int) ≤ 2147483647 ∧ SixDigits (-1234560000) ∧
      readText Int (textOf false (-1234560000 : Int)) = .ok (-1234560000) :=
  have hsix : SixDigits (-1234560000) := ⟨123456, 4, by decide, by decide⟩
  ⟨by decide, by decide, hsix, (readText_integer_iff (by decide) (by decide) false).mpr hsix⟩

/-- An integer of seven digits loses the last one. -/
theorem not_readText_integer_seven :
    textOf false (1234567 : Int) = "1234570" ∧
      (readText Int (textOf false (1234567 : Int))).toOption = some 1234570 := by
  decide +kernel

end StyleGrammar
