import StyleGrammar.Proofs.Number.Rounding
import StyleGrammar.Token.Scan

/-!
# The values of written numbers are finite

Reading a number adds up its digits in double precision.  Each step keeps the
value finite and without a sign, below a power of two that the number of digits
bounds, so the number that was written with a sign has that sign.
-/

namespace StyleGrammar

namespace Binary

/-- A finite value with the sign, of a magnitude of at most a power of two. -/
def Within (negative : Bool) (k : Int) (v : Binary) : Prop :=
  ∃ m e, v = .finite negative m e ∧ (m * 2 ^ e : ℚ) ≤ 2 ^ k

/-- A format of more than one digit, in which a power of two is far from the bounds. -/
structure Format.Reaches (f : Format) (k : Int) : Prop where
  precision : 1 < f.precision
  least_le : f.leastExponent ≤ k
  least_lt : f.leastExponent < f.greatestExponent
  lt_greatest : k < f.greatestExponent + (f.precision - 1 : Nat)

variable {f : Format} {s : Bool} {k j : Int} {v w : Binary}

theorem Within.mono (h : Within s k v) (hle : k ≤ j) : Within s j v := by
  obtain ⟨m, e, rfl, hk⟩ := h
  exact ⟨m, e, rfl, hk.trans (zpow_le_zpow_right₀ (by norm_num) hle)⟩

theorem within_zero (f : Format) (s : Bool) (k : Int) : Within s k (f.zero s) := by
  refine ⟨0, f.leastExponent, rfl, ?_⟩
  rw [Nat.cast_zero, zero_mul]
  positivity

/-- Rounding does not pass a power of two of the format. -/
theorem within_roundBy (hf : f.Reaches k) (tie : Tie) (s : Bool) {num den : Nat} (hden : 0 < den)
    (hk : (num / den : ℚ) ≤ 2 ^ k) : Within s k (f.roundBy tie s num den) := by
  obtain ⟨hprecision, hleast, hlt, hmost⟩ := hf
  rcases Nat.eq_zero_or_pos num with rfl | hnum
  · rw [Format.roundBy, if_pos rfl]
    exact within_zero f s k
  rcases roundBy_cases (Nat.lt_of_succ_lt hprecision) tie s hnum hden with
    ⟨-, hover⟩ | ⟨m, e, hround, hholds, -, hhigh⟩
  · obtain ⟨hlow, -⟩ := leadingExponent_bounds hnum hden
    have : leadingExponent num den ≤ k :=
      (zpow_le_zpow_iff_right₀ (show (1 : ℚ) < 2 by norm_num)).mp (hlow.trans hk)
    omega
  · refine ⟨m, e, hround, ?_⟩
    have htwo : (0 : ℚ) < 2 ^ e := by positivity
    have hbound : (m * 2 ^ e : ℚ) ≤ 2 ^ k + 2 ^ e / 2 := by linarith
    by_cases hke : e ≤ k
    · have hsplit : (2 : ℚ) ^ k = 2 ^ (k - e).toNat * 2 ^ e := by
        rw [← zpow_natCast, ← zpow_add₀ (by norm_num)]
        congr 1
        omega
      have hm : m ≤ 2 ^ (k - e).toNat := by
        by_contra hlarge
        have : ((2 ^ (k - e).toNat + 1 : Nat) : ℚ) ≤ m := by exact_mod_cast not_le.mp hlarge
        push_cast at this
        have := mul_le_mul_of_nonneg_right this htwo.le
        linarith
      rw [hsplit]
      have : (m : ℚ) ≤ 2 ^ (k - e).toNat := by exact_mod_cast hm
      gcongr
    · exfalso
      have hfull : 2 ^ (f.precision - 1) ≤ m := hholds.full.resolve_right (by omega)
      have htwo' : (2 : ℚ) ≤ m := by
        have : 2 ^ 1 ≤ 2 ^ (f.precision - 1) := Nat.pow_le_pow_right (by decide) (by omega)
        have : 2 ≤ m := by omega
        exact_mod_cast this
      have hstep : (2 : ℚ) ^ k * 2 ≤ 2 ^ e := by
        rw [← zpow_add_one₀ (by norm_num)]
        exact zpow_le_zpow_right₀ (by norm_num) (by omega)
      have := mul_le_mul_of_nonneg_right htwo' htwo.le
      linarith

/-- The quotient of a finite value. -/
theorem quotient_le {m : Nat} {e k : Int} (h : (m * 2 ^ e : ℚ) ≤ 2 ^ k) :
    ((quotient m e).1 / (quotient m e).2 : ℚ) ≤ 2 ^ k := by
  rwa [quotient_div]

theorem Within.toFormat (hf : f.Reaches k) (h : Within s k v) : Within s k (v.toFormat f) := by
  obtain ⟨m, e, rfl, hk⟩ := h
  exact within_roundBy hf .even s (quotient_snd_pos m e) (quotient_le hk)

theorem Within.mul (hf : f.Reaches (k + j)) (hv : Within s k v) (hw : Within false j w) :
    Within s (k + j) (v.mul f w) := by
  obtain ⟨m, e, rfl, hk⟩ := hv
  obtain ⟨m', e', rfl, hj⟩ := hw
  have hproduct : ((m * m' : Nat) * 2 ^ (e + e') : ℚ) ≤ 2 ^ (k + j) := by
    rw [zpow_add₀ (by norm_num), zpow_add₀ (by norm_num)]
    calc ((m * m' : Nat) * (2 ^ e * 2 ^ e') : ℚ) = m * 2 ^ e * (m' * 2 ^ e') := by push_cast; ring
      _ ≤ 2 ^ k * 2 ^ j := by gcongr
  have hround := within_roundBy hf .even s (quotient_snd_pos (m * m') (e + e'))
    (quotient_le hproduct)
  cases s <;> exact hround

theorem Within.add (hf : f.Reaches (k + 1)) (hv : Within false k v) (hw : Within false k w) :
    Within false (k + 1) (v.add f w) := by
  obtain ⟨m, e, rfl, hk⟩ := hv
  obtain ⟨m', e', rfl, hj⟩ := hw
  have hd : (0 : ℚ) < (quotient m e).2 := by exact_mod_cast quotient_snd_pos m e
  have hd' : (0 : ℚ) < (quotient m' e').2 := by exact_mod_cast quotient_snd_pos m' e'
  set n := (quotient m e).1
  set d := (quotient m e).2
  set n' := (quotient m' e').1
  set d' := (quotient m' e').2
  have hadd : Binary.add f (.finite false m e) (.finite false m' e') =
      if (n * d' + n' * d : Int) = 0 then f.zero false
      else f.round ((n * d' + n' * d : Int) < 0) (n * d' + n' * d : Int).natAbs (d * d') := rfl
  have hnonneg : ¬ (n * d' + n' * d : Int) < 0 := not_lt.mpr (by positivity)
  have habs : (n * d' + n' * d : Int).natAbs = n * d' + n' * d := by
    rw [← Int.natAbs_natCast (n * d' + n' * d)]
    push_cast
    rfl
  rw [hadd]
  split
  · exact within_zero f false _
  · rw [decide_eq_false hnonneg, habs]
    refine within_roundBy hf .even false
      (Nat.mul_pos (quotient_snd_pos m e) (quotient_snd_pos m' e')) ?_
    have hsum : (((n * d' + n' * d : Nat) : ℚ) / ((d * d' : Nat) : ℚ)) = n / d + n' / d' := by
      push_cast
      field_simp
    rw [hsum, zpow_add_one₀ (by norm_num)]
    have := quotient_le hk
    have := quotient_le hj
    linarith

/-- A quotient by a number of at least one. -/
theorem Within.div (hf : f.Reaches k) (hv : Within s k v) {m : Nat} {e : Int}
    (hone : (1 : ℚ) ≤ m * 2 ^ e) : Within s k (v.div f (.finite false m e)) := by
  obtain ⟨m', e', rfl, hk⟩ := hv
  have hm : m ≠ 0 := by
    rintro rfl
    norm_num at hone
  have hs : (s != false) = s := by cases s <;> rfl
  have hd : (0 : ℚ) < (quotient m e).2 := by exact_mod_cast quotient_snd_pos m e
  have hd' : (0 : ℚ) < (quotient m' e').2 := by exact_mod_cast quotient_snd_pos m' e'
  have hn : 0 < (quotient m e).1 := by
    have : (0 : ℚ) < (quotient m e).1 / (quotient m e).2 := by
      rw [quotient_div]
      linarith
    have := (div_pos_iff_of_pos_right hd).mp this
    exact_mod_cast this
  have hdiv : Binary.div f (.finite s m' e') (.finite false m e) =
      f.round (s != false) ((quotient m' e').1 * (quotient m e).2)
        ((quotient m' e').2 * (quotient m e).1) := by
    simp only [Binary.div, if_neg hm]
  rw [hdiv, hs]
  refine within_roundBy hf .even s (Nat.mul_pos (quotient_snd_pos m' e') hn) ?_
  have hn' : (0 : ℚ) < (quotient m e).1 := by exact_mod_cast hn
  have hratio : ((((quotient m' e').1 * (quotient m e).2 : Nat) : ℚ) /
      (((quotient m' e').2 * (quotient m e).1 : Nat) : ℚ)) = m' * 2 ^ e' / (m * 2 ^ e) := by
    rw [← quotient_div, ← quotient_div]
    push_cast
    field_simp
  rw [hratio]
  exact (div_le_self (by positivity) hone).trans hk

theorem within_neg (h : Within s k v) : Within (!s) k v.neg := by
  obtain ⟨m, e, rfl, hk⟩ := h
  exact ⟨m, e, rfl, hk⟩

theorem reaches_double (hleast : -1074 ≤ k) (hmost : k < 1023) : Format.double.Reaches k :=
  ⟨by decide, hleast, by decide, hmost⟩

theorem reaches_single (hleast : -149 ≤ k) (hmost : k < 127) : Format.single.Reaches k :=
  ⟨by decide, hleast, by decide, hmost⟩

theorem within_ofNat {n : Nat} {k : Int} (hf : f.Reaches k) (h : (n : ℚ) ≤ 2 ^ k) :
    Within false k (f.ofNat n) :=
  within_roundBy hf .even false Nat.one_pos (by rwa [Nat.cast_one, div_one])

/-- A power of ten below one, and what rounding its leading digits adds. -/
theorem within_powerOfTen {n : Int} (hn : n ≤ 0) : Within false 1 (Format.double.powerOfTen n) := by
  unfold Format.powerOfTen
  rw [if_neg (by omega)]
  split
  · exact within_zero _ _ _
  dsimp only
  refine within_roundBy (reaches_double (by decide) (by decide)) .up false (quotient_snd_pos _ _) ?_
  rw [quotient_div]
  obtain ⟨hleast, -, -, hhigh⟩ :=
    @significant_bounds 62 (tens (10 * (n / 10))).1 (tens (10 * (n / 10))).2
    (by decide) (tens_fst_pos _) (tens_snd_pos _)
  rw [tens_div] at hhigh
  generalize significant 62 (tens (10 * (n / 10))).1 (tens (10 * (n / 10))).2 = x at hleast hhigh
  have htwo : (0 : ℚ) < 2 ^ x.2 := by positivity
  have hm : (1 : ℚ) ≤ x.1 := by
    have : 1 ≤ x.1 := le_trans (by decide) hleast
    exact_mod_cast this
  have hdouble : (x.1 * 2 ^ x.2 : ℚ) ≤ 2 * 10 ^ (10 * (n / 10)) := by
    have := mul_le_mul_of_nonneg_right hm htwo.le
    linarith
  have hsplit : (10 : ℚ) ^ (10 * (n / 10)) * 10 ^ (n % 10).toNat = 10 ^ n := by
    rw [← zpow_natCast, ← zpow_add₀ (by norm_num)]
    congr 1
    omega
  have hone : (10 : ℚ) ^ n ≤ 1 := zpow_le_one_of_nonpos₀ (by norm_num) hn
  have hpow : Nat.pow 10 (n % 10).toNat = 10 ^ (n % 10).toNat := rfl
  rw [hpow]
  push_cast
  calc (x.1 * 10 ^ (n % 10).toNat * 2 ^ x.2 : ℚ) = x.1 * 2 ^ x.2 * 10 ^ (n % 10).toNat := by ring
    _ ≤ 2 * 10 ^ (10 * (n / 10)) * 10 ^ (n % 10).toNat := by gcongr
    _ = 2 * 10 ^ n := by rw [mul_assoc, hsplit]
    _ ≤ 2 ^ (1 : Int) := by
      rw [zpow_one]
      linarith

end Binary

namespace Scan

open Binary

variable {ds : List Char}

theorem digitValue_le {c : Char} (h : c.isDigit = true) : digitValue c ≤ 9 := by
  have hlt : c.toNat ≤ 57 := by
    have : c.val ≤ '9'.val := by
      have := h
      grind [Char.isDigit]
    exact this
  unfold digitValue
  omega

theorem within_digit {c : Char} (h : c.isDigit = true) :
    Within false 4 (Format.double.ofNat (digitValue c)) := by
  refine within_ofNat (reaches_double (by decide) (by decide)) ?_
  have : ((digitValue c : Nat) : ℚ) ≤ 9 := by exact_mod_cast digitValue_le h
  calc ((digitValue c : Nat) : ℚ) ≤ 9 := this
    _ ≤ 2 ^ (4 : Int) := by norm_num

theorem within_integral (h : ∀ c ∈ ds, c.isDigit = true) (hlength : ds.length ≤ 100) :
    Within false (5 * ds.length : Nat) (integral ds) := by
  have hten : Within false 4 (Format.double.ofNat 10) :=
    within_ofNat (reaches_double (by decide) (by decide)) (by norm_num)
  have hstep (v : Binary) (k : Nat) (hk : k + 5 * ds.length ≤ 600) (hv : Within false k v) :
      Within false (k + 5 * ds.length : Nat)
        (ds.foldl (fun v d => (v.mul .double (Format.double.ofNat 10)).add .double
          (Format.double.ofNat (digitValue d))) v) := by
    clear hlength
    induction ds generalizing v k with
    | nil => simpa using hv
    | cons c ds ih =>
      rw [List.length_cons] at hk ⊢
      have hc := within_digit (h c List.mem_cons_self)
      have hproduct := hv.mul (reaches_double (by omega) (by omega)) hten
      have hsum := hproduct.add (reaches_double (by omega) (by omega)) (hc.mono (by omega))
      have := ih (fun d hd => h d (List.mem_cons_of_mem c hd)) _ (k + 5) (by omega)
        (hsum.mono (by push_cast; omega))
      rw [show k + 5 * (ds.length + 1) = k + 5 + 5 * ds.length by ring]
      exact this
  have := hstep (Format.double.zero false) 0 (by omega) (within_zero _ _ _)
  rwa [Nat.zero_add] at this

theorem within_fractional (h : ∀ c ∈ ds, c.isDigit = true) (hlength : ds.length ≤ 100) :
    Within false (4 + ds.length : Nat) (fractional ds) := by
  have htenth : Within false 0 (Format.double.round false 1 10) :=
    within_roundBy (reaches_double (by decide) (by decide)) .even false (by decide) (by norm_num)
  have hstep (v w : Binary) (k : Nat) (hk : k + ds.length ≤ 600) (hfour : 4 ≤ k)
      (hv : Within false k v) (hw : Within false 0 w) :
      Within false (k + ds.length : Nat)
        (ds.foldl (fun x d =>
          (x.1.add .double ((Format.double.ofNat (digitValue d)).mul .double x.2),
          x.2.mul .double (Format.double.round false 1 10))) (v, w)).1 := by
    clear hlength
    induction ds generalizing v w k with
    | nil => simpa using hv
    | cons c ds ih =>
      rw [List.length_cons] at hk ⊢
      have hc := within_digit (h c List.mem_cons_self)
      have hproduct := hc.mul (reaches_double (by omega) (by omega)) hw
      have hsum := hv.add (reaches_double (by omega) (by omega)) (hproduct.mono (by omega))
      have hweight := hw.mul (reaches_double (by decide) (by decide)) htenth
      have := ih (fun d hd => h d (List.mem_cons_of_mem c hd)) _ _ (k + 1) (by omega) (by omega)
        (hsum.mono (by push_cast; omega)) hweight
      rw [show k + (ds.length + 1) = k + 1 + ds.length by ring]
      exact this
  exact hstep (Format.double.zero false) _ 4 (by omega) (le_refl 4) (within_zero _ _ _) htenth

end Scan

end StyleGrammar
