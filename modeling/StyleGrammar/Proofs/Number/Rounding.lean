import Mathlib.Algebra.Order.Field.Power
import Mathlib.Algebra.Order.Field.Rat
import Mathlib.Data.Nat.Log
import Mathlib.Tactic.FieldSimp
import Mathlib.Tactic.Linarith
import Mathlib.Tactic.Positivity
import Mathlib.Tactic.Ring
import StyleGrammar.Number.Interval

/-!
# Rounding to binary digits

What the rounding of a quotient to a mantissa and an exponent loses: at most half
a unit of the exponent.  Quotients of naturals are compared as rationals here.
-/

namespace StyleGrammar

namespace Binary

theorem tens_snd_pos (e : Int) : 0 < (tens e).2 := by
  unfold tens
  split
  · exact Nat.one_pos
  · exact Nat.pow_pos (by decide)

theorem tens_fst_pos (e : Int) : 0 < (tens e).1 := by
  unfold tens
  split
  · exact Nat.pow_pos (by decide)
  · exact Nat.one_pos

theorem toNat_of_nonneg {e : Int} (h : 0 ≤ e) (b : ℚ) : b ^ e.toNat = b ^ e := by
  rw [← zpow_natCast, Int.toNat_of_nonneg h]

theorem toNat_of_neg {e : Int} (h : ¬ 0 ≤ e) (b : ℚ) : b ^ (-e).toNat = (b ^ e)⁻¹ := by
  rw [← zpow_natCast, Int.toNat_of_nonneg (by omega), zpow_neg]

theorem tens_div (e : Int) : ((tens e).1 : ℚ) / (tens e).2 = 10 ^ e := by
  unfold tens
  split
  · next h => simp [toNat_of_nonneg h]
  · next h => simp [toNat_of_neg h]

theorem quotient_snd_pos (m : Nat) (e : Int) : 0 < (quotient m e).2 := by
  unfold quotient
  split
  · exact Nat.one_pos
  · simp [Nat.shiftLeft_eq]

theorem quotient_div (m : Nat) (e : Int) :
    ((quotient m e).1 : ℚ) / (quotient m e).2 = m * 2 ^ e := by
  unfold quotient
  split
  · next h => simp [Nat.shiftLeft_eq, toNat_of_nonneg h]
  · next h => simp [Nat.shiftLeft_eq, toNat_of_neg h]

theorem scaleDown_snd_pos (num : Nat) {den : Nat} (e : Int) (h : 0 < den) :
    0 < (scaleDown num den e).2 := by
  unfold scaleDown
  split
  · rw [Nat.shiftLeft_eq]
    positivity
  · exact h

theorem scaleDown_div (num den : Nat) (e : Int) :
    ((scaleDown num den e).1 : ℚ) / (scaleDown num den e).2 = num / den / 2 ^ e := by
  unfold scaleDown
  split
  · next h =>
    simp only [Nat.shiftLeft_eq, Nat.cast_mul, Nat.cast_pow, Nat.cast_ofNat, toNat_of_nonneg h]
    rw [div_mul_eq_div_div]
  · next h =>
    simp only [Nat.shiftLeft_eq, Nat.cast_mul, Nat.cast_pow, Nat.cast_ofNat, toNat_of_neg h]
    ring

/-- A positive natural between powers of two. -/
theorem log2_bounds {n : Nat} (h : 0 < n) :
    (2 : ℚ) ^ (Nat.log2 n : Int) ≤ n ∧ (n : ℚ) < 2 ^ ((Nat.log2 n : Int) + 1) := by
  constructor
  · rw [zpow_natCast]
    exact_mod_cast Nat.log2_self_le (by omega)
  · have : n < 2 ^ (n.log2 + 1) := Nat.lt_log2_self
    rw [← Nat.cast_succ, zpow_natCast]
    exact_mod_cast this

theorem leadingExponent_bounds {num den : Nat} (hnum : 0 < num) (hden : 0 < den) :
    (2 : ℚ) ^ leadingExponent num den ≤ num / den ∧
      (num / den : ℚ) < 2 ^ (leadingExponent num den + 1) := by
  obtain ⟨hnum1, hnum2⟩ := log2_bounds hnum
  obtain ⟨hden1, hden2⟩ := log2_bounds hden
  have hden0 : (0 : ℚ) < den := by exact_mod_cast hden
  set guess : Int := (Nat.log2 num : Int) - (Nat.log2 den : Int) with hguess
  have hupper : (num / den : ℚ) < 2 ^ (guess + 1) := by
    rw [div_lt_iff₀ hden0]
    calc (num : ℚ) < 2 ^ ((Nat.log2 num : Int) + 1) := hnum2
      _ = 2 ^ (guess + 1) * 2 ^ (Nat.log2 den : Int) := by
        rw [← zpow_add₀ (by norm_num), hguess]
        congr 1
        ring
      _ ≤ 2 ^ (guess + 1) * den := by gcongr
  have hlower : (2 : ℚ) ^ (guess - 1) ≤ num / den := by
    rw [le_div_iff₀ hden0]
    calc (2 : ℚ) ^ (guess - 1) * den ≤ 2 ^ (guess - 1) * 2 ^ ((Nat.log2 den : Int) + 1) := by gcongr
      _ = 2 ^ (Nat.log2 num : Int) := by
        rw [← zpow_add₀ (by norm_num), hguess]
        congr 1
        ring
      _ ≤ num := hnum1
  have hscaled := scaleDown_div num den guess
  have hpos : (0 : ℚ) < (scaleDown num den guess).2 := by
    exact_mod_cast scaleDown_snd_pos num guess hden
  have htwo : (0 : ℚ) < 2 ^ guess := by positivity
  have hcompare : (scaleDown num den guess).1 < (scaleDown num den guess).2 ↔
      (num / den : ℚ) < 2 ^ guess := by
    rw [← Nat.cast_lt (α := ℚ), ← div_lt_one hpos, hscaled, div_lt_one htwo]
  have hshape : leadingExponent num den =
      if (scaleDown num den guess).1 < (scaleDown num den guess).2 then guess - 1 else guess := rfl
  rw [hshape]
  split
  · next h => exact ⟨hlower, by simpa using hcompare.mp h⟩
  · next h => exact ⟨not_lt.mp (mt hcompare.mpr h), hupper⟩

theorem nearest_bounds (tie : Tie) (num : Nat) {den : Nat} (hden : 0 < den) :
    (num / den : ℚ) - 1 / 2 ≤ nearest tie num den ∧
      (nearest tie num den : ℚ) ≤ num / den + 1 / 2 := by
  have hden0 : (0 : ℚ) < den := by exact_mod_cast hden
  have hsplit : (num : ℚ) = den * (num / den : Nat) + (num % den : Nat) := by
    exact_mod_cast (Nat.div_add_mod num den).symm
  have hnonneg : (0 : ℚ) ≤ (num % den : Nat) := by positivity
  have hmod : (num / den : ℚ) = (num / den : Nat) + (num % den : Nat) / den := by
    rw [hsplit]
    field_simp
  have hlow : (0 : ℚ) ≤ (num % den : Nat) / den := by positivity
  have hbelow (h : 2 * (num % den) ≤ den) : ((num % den : Nat) / den : ℚ) ≤ 1 / 2 := by
    rw [div_le_iff₀ hden0]
    have : ((2 * (num % den) : Nat) : ℚ) ≤ den := by exact_mod_cast h
    push_cast at this ⊢
    linarith
  have habove (h : den ≤ 2 * (num % den)) : (1 / 2 : ℚ) ≤ (num % den : Nat) / den := by
    rw [le_div_iff₀ hden0]
    have : (den : ℚ) ≤ ((2 * (num % den) : Nat) : ℚ) := by exact_mod_cast h
    push_cast at this ⊢
    linarith
  have hlast : ((num % den : Nat) / den : ℚ) ≤ 1 := by
    rw [div_le_one hden0]
    exact_mod_cast (Nat.mod_lt _ hden).le
  have hdown : 2 * (num % den) ≤ den → (num / den : ℚ) - 1 / 2 ≤ (num / den : Nat) ∧
      ((num / den : Nat) : ℚ) ≤ num / den + 1 / 2 := fun h => by
    have := hbelow h
    rw [hmod]
    constructor <;> linarith
  have hup : den ≤ 2 * (num % den) → (num / den : ℚ) - 1 / 2 ≤ ((num / den + 1 : Nat) : ℚ) ∧
      ((num / den + 1 : Nat) : ℚ) ≤ num / den + 1 / 2 := fun h => by
    have := habove h
    rw [hmod]
    push_cast
    constructor <;> linarith
  unfold nearest
  dsimp only
  split
  · next h => exact hdown h.le
  split
  · next h => exact hup h.le
  · split
    · exact hdown (by omega)
    · exact hup (by omega)

theorem mantissaAt_bounds (precision : Nat) (tie : Tie) (num : Nat) {den : Nat} (hden : 0 < den)
    (hprecision : 0 < precision) (e : Int) :
    (num / den : ℚ) - 2 ^ e / 2 ≤
        (mantissaAt precision tie num den e).1 * 2 ^ (mantissaAt precision tie num den e).2 ∧
      (mantissaAt precision tie num den e).1 * 2 ^ (mantissaAt precision tie num den e).2 ≤
        (num / den : ℚ) + 2 ^ e / 2 := by
  have htwo : (0 : ℚ) < 2 ^ e := by positivity
  obtain ⟨hlow, hhigh⟩ := nearest_bounds tie (scaleDown num den e).1
    (scaleDown_snd_pos num e hden)
  rw [scaleDown_div] at hlow hhigh
  have hvalue : ((mantissaAt precision tie num den e).1 : ℚ) *
      2 ^ (mantissaAt precision tie num den e).2 =
        nearest tie (scaleDown num den e).1 (scaleDown num den e).2 * 2 ^ e := by
    unfold mantissaAt
    dsimp only
    split
    · next hcarry =>
      obtain ⟨p, rfl⟩ := Nat.exists_eq_succ_of_ne_zero hprecision.ne'
      rw [hcarry, zpow_add_one₀ (by norm_num), Nat.shiftLeft_eq, one_mul, Nat.pow_succ,
        Nat.mul_div_cancel _ (by decide)]
      push_cast
      ring
    · rfl
  rw [hvalue]
  constructor
  · calc (num / den : ℚ) - 2 ^ e / 2 = ((num / den : ℚ) / 2 ^ e - 1 / 2) * 2 ^ e := by field_simp
      _ ≤ _ := by gcongr
  · calc _ ≤ ((num / den : ℚ) / 2 ^ e + 1 / 2) * 2 ^ e := by gcongr
      _ = (num / den : ℚ) + 2 ^ e / 2 := by field_simp

/-- A quotient whose leading digit is in place fills the mantissa. -/
theorem mantissaAt_fills {precision : Nat} (tie : Tie) {num den : Nat} (hden : 0 < den)
    (hprecision : 0 < precision) {e : Int} (hlow : (2 : ℚ) ^ (precision - 1) ≤ num / den / 2 ^ e)
    (hhigh : (num / den / 2 ^ e : ℚ) < 2 ^ precision) :
    2 ^ (precision - 1) ≤ (mantissaAt precision tie num den e).1 ∧
      (mantissaAt precision tie num den e).1 < 2 ^ precision ∧
      e ≤ (mantissaAt precision tie num den e).2 := by
  obtain ⟨hbelow, habove⟩ := nearest_bounds tie (scaleDown num den e).1
    (scaleDown_snd_pos num e hden)
  rw [scaleDown_div] at hbelow habove
  set m := nearest tie (scaleDown num den e).1 (scaleDown num den e).2 with hm
  have hleast : 2 ^ (precision - 1) ≤ m := by
    have : ((2 ^ (precision - 1) : Nat) : ℚ) < ((m + 1 : Nat) : ℚ) := by push_cast; linarith
    have := Nat.cast_lt.mp this
    omega
  have hmost : m ≤ 2 ^ precision := by
    have : (m : ℚ) < ((2 ^ precision + 1 : Nat) : ℚ) := by push_cast; linarith
    have := Nat.cast_lt.mp this
    omega
  obtain ⟨p, rfl⟩ := Nat.exists_eq_succ_of_ne_zero hprecision.ne'
  rw [Nat.succ_sub_one] at hleast ⊢
  have hpow : 2 ^ (p + 1) = 2 * 2 ^ p := by ring
  unfold mantissaAt
  simp only [Nat.shiftLeft_eq, Nat.one_mul, ← hm]
  split
  · have := Nat.two_pow_pos p
    simp only [Nat.succ_eq_add_one] at *
    omega
  · simp only [Nat.succ_eq_add_one] at *
    omega

theorem significant_bounds {precision num den : Nat} (hprecision : 0 < precision) (hnum : 0 < num)
    (hden : 0 < den) :
    2 ^ (precision - 1) ≤ (significant precision num den).1 ∧
      (significant precision num den).1 < 2 ^ precision ∧
      (num / den : ℚ) - 2 ^ (significant precision num den).2 / 2 ≤
        (significant precision num den).1 * 2 ^ (significant precision num den).2 ∧
      (significant precision num den).1 * 2 ^ (significant precision num den).2 ≤
        (num / den : ℚ) + 2 ^ (significant precision num den).2 / 2 := by
  obtain ⟨hlow, hhigh⟩ := leadingExponent_bounds hnum hden
  set e : Int := leadingExponent num den - (precision - 1 : Nat) with he
  have htwo : (0 : ℚ) < 2 ^ e := by positivity
  have hfirst : ((precision - 1 : Nat) : Int) + e = leadingExponent num den := by omega
  have hlast : (precision : Int) + e = leadingExponent num den + 1 := by omega
  obtain ⟨hleast, hmost, hle⟩ := mantissaAt_fills .even (e := e) hden hprecision
    (by rw [le_div_iff₀ htwo, ← zpow_natCast, ← zpow_add₀ (by norm_num), hfirst]; exact hlow)
    (by rw [div_lt_iff₀ htwo, ← zpow_natCast, ← zpow_add₀ (by norm_num), hlast]; exact hhigh)
  obtain ⟨hbelow, habove⟩ := mantissaAt_bounds precision .even num hden hprecision e
  have hunit : (2 : ℚ) ^ e ≤ 2 ^ (significant precision num den).2 :=
    zpow_le_zpow_right₀ (by norm_num) hle
  refine ⟨hleast, hmost, ?_, ?_⟩
  · calc (num / den : ℚ) - 2 ^ (significant precision num den).2 / 2
        ≤ num / den - 2 ^ e / 2 := by linarith
      _ ≤ _ := hbelow
  · calc _ ≤ (num / den : ℚ) + 2 ^ e / 2 := habove
      _ ≤ (num / den : ℚ) + 2 ^ (significant precision num den).2 / 2 := by linarith

/-- A finite value as a format holds it: with all the digits of the format, unless its exponent is
the least one. -/
structure Format.Holds (f : Format) (m : Nat) (e : Int) : Prop where
  lt_precision : m < 2 ^ f.precision
  least_le : f.leastExponent ≤ e
  le_greatest : e ≤ f.greatestExponent
  full : 2 ^ (f.precision - 1) ≤ m ∨ e = f.leastExponent

/-- A quotient whose leading digit is out of place leaves the exponent. -/
theorem mantissaAt_small {precision : Nat} (tie : Tie) {num den : Nat} (hden : 0 < den)
    (hprecision : 0 < precision) {e : Int}
    (hsmall : (num / den / 2 ^ e : ℚ) < 2 ^ (precision - 1)) :
    (mantissaAt precision tie num den e).1 < 2 ^ precision ∧
      (mantissaAt precision tie num den e).2 = e := by
  obtain ⟨-, habove⟩ := nearest_bounds tie (scaleDown num den e).1
    (scaleDown_snd_pos num e hden)
  rw [scaleDown_div] at habove
  set m := nearest tie (scaleDown num den e).1 (scaleDown num den e).2 with hm
  obtain ⟨p, rfl⟩ := Nat.exists_eq_succ_of_ne_zero hprecision.ne'
  rw [Nat.succ_sub_one] at hsmall
  have hmost : m ≤ 2 ^ p := by
    have : (m : ℚ) < ((2 ^ p + 1 : Nat) : ℚ) := by push_cast; linarith
    have := Nat.cast_lt.mp this
    omega
  have hpow : 2 ^ (p + 1) = 2 * 2 ^ p := by ring
  have hpos := Nat.two_pow_pos p
  have hne : m ≠ 2 ^ (p + 1) := by omega
  unfold mantissaAt
  simp only [Nat.shiftLeft_eq, Nat.one_mul, ← hm, Nat.succ_eq_add_one, if_neg hne, and_true]
  omega

theorem mantissaAt_exponent (precision : Nat) (tie : Tie) (num den : Nat) (e : Int) :
    e ≤ (mantissaAt precision tie num den e).2 ∧
    (mantissaAt precision tie num den e).2 ≤ e + 1 := by
  unfold mantissaAt
  dsimp only
  split <;> constructor <;> omega

/-- Rounding gives a value of the format within half a unit, unless it overflows. -/
theorem roundBy_cases {f : Format} (hprecision : 0 < f.precision) (tie : Tie) (negative : Bool)
    {num den : Nat} (hnum : 0 < num) (hden : 0 < den) :
    (f.roundBy tie negative num den = .infinite negative ∧ f.greatestExponent ≤
        max f.leastExponent (leadingExponent num den - (f.precision - 1 : Nat))) ∨
      ∃ m e, f.roundBy tie negative num den = .finite negative m e ∧ f.Holds m e ∧
        (num / den : ℚ) - 2 ^ e / 2 ≤ m * 2 ^ e ∧ m * 2 ^ e ≤ (num / den : ℚ) + 2 ^ e / 2 := by
  obtain ⟨hlow, hhigh⟩ := leadingExponent_bounds hnum hden
  set least : Int := leadingExponent num den - (f.precision - 1 : Nat) with hleast
  set start := max f.leastExponent least with hstart
  have htwo : (0 : ℚ) < 2 ^ start := by positivity
  obtain ⟨hbelow, habove⟩ := mantissaAt_bounds f.precision tie num hden hprecision start
  obtain ⟨hle, hle'⟩ := mantissaAt_exponent f.precision tie num den start
  have hround : f.roundBy tie negative num den =
      if f.greatestExponent < (mantissaAt f.precision tie num den start).2 then .infinite negative
      else .finite negative (mantissaAt f.precision tie num den start).1
        (mantissaAt f.precision tie num den start).2 := by
    rw [Format.roundBy, if_neg hnum.ne']
  have hholds : (mantissaAt f.precision tie num den start).1 < 2 ^ f.precision ∧
      (2 ^ (f.precision - 1) ≤ (mantissaAt f.precision tie num den start).1 ∨
        (mantissaAt f.precision tie num den start).2 = f.leastExponent) := by
    by_cases hsmall : least < start
    · have hbound : (num / den / 2 ^ start : ℚ) < 2 ^ (f.precision - 1) := by
        rw [div_lt_iff₀ htwo, ← zpow_natCast, ← zpow_add₀ (by norm_num)]
        exact hhigh.trans_le (zpow_le_zpow_right₀ (by norm_num) (by omega))
      obtain ⟨hlt, heq⟩ := mantissaAt_small tie hden hprecision hbound
      exact ⟨hlt, .inr (heq.trans (by omega))⟩
    · have hstart : start = least := by omega
      have hfirst : ((f.precision - 1 : Nat) : Int) + start = leadingExponent num den := by omega
      have hlast : (f.precision : Int) + start = leadingExponent num den + 1 := by omega
      obtain ⟨hfull, hlt, -⟩ := mantissaAt_fills tie (e := start) hden hprecision
        (by rw [le_div_iff₀ htwo, ← zpow_natCast, ← zpow_add₀ (by norm_num), hfirst]; exact hlow)
        (by rw [div_lt_iff₀ htwo, ← zpow_natCast, ← zpow_add₀ (by norm_num), hlast]; exact hhigh)
      exact ⟨hlt, .inl hfull⟩
  have hunit : (2 : ℚ) ^ start ≤ 2 ^ (mantissaAt f.precision tie num den start).2 :=
    zpow_le_zpow_right₀ (by norm_num) hle
  by_cases hover : f.greatestExponent < (mantissaAt f.precision tie num den start).2
  · exact .inl ⟨by rw [hround, if_pos hover], by omega⟩
  · refine .inr ⟨_, _, by rw [hround, if_neg hover],
      ⟨hholds.1, by omega, by omega, hholds.2⟩, ?_, ?_⟩ <;> linarith

end Binary

end StyleGrammar
