import Mathlib.Data.List.TakeWhile
import Mathlib.Data.Nat.Cast.Order.Field
import StyleGrammar.Proofs.Number.Digits
import StyleGrammar.Proofs.Number.Rounding

/-!
# The digits of a number stand for it

The digits found for a single-precision value lie in the interval of reals that
round to it, and there are such digits: the scaled interval stays within the
interval it comes from, and is still wide enough for a grid of nine digits.
-/

namespace StyleGrammar

namespace Decimal

/-- Digits as a natural. -/
def natOf (ds : List Nat) : Nat := ds.foldl (fun n d => 10 * n + d) 0

/-- The number that a decimal stands for. -/
def value (d : Decimal) : ℚ := natOf d.digits * 10 ^ (d.point - d.digits.length)

theorem foldl_natOf (n : Nat) (ds : List Nat) :
    ds.foldl (fun n d => 10 * n + d) n = n * 10 ^ ds.length + natOf ds := by
  induction ds generalizing n with
  | nil => simp [natOf]
  | cons d ds ih =>
    have hcons : natOf (d :: ds) = ds.foldl (fun n d => 10 * n + d) (10 * 0 + d) := rfl
    rw [List.foldl_cons, ih, hcons, ih, List.length_cons, Nat.pow_succ]
    ring

theorem natOf_cons (d : Nat) (ds : List Nat) : natOf (d :: ds) = d * 10 ^ ds.length + natOf ds := by
  rw [natOf, List.foldl_cons, foldl_natOf]
  simp

theorem natOf_append (ds es : List Nat) :
    natOf (ds ++ es) = natOf ds * 10 ^ es.length + natOf es := by
  rw [natOf, List.foldl_append, foldl_natOf, ← natOf]

theorem natOf_zeros (k : Nat) : natOf (List.replicate k 0) = 0 := by
  induction k with
  | zero => rfl
  | succ k ih => simp [List.replicate_succ, natOf_cons, ih]

theorem natOf_lt {ds : List Nat} (h : ∀ d ∈ ds, d < 10) : natOf ds < 10 ^ ds.length := by
  induction ds with
  | nil => decide
  | cons d ds ih =>
    have hd := h d List.mem_cons_self
    have hds := ih fun e he => h e (List.mem_cons_of_mem d he)
    rw [natOf_cons, List.length_cons, Nat.pow_succ]
    nlinarith

theorem natOf_digitsOf (n : Nat) : natOf (digitsOf n) = n := by
  fun_induction digitsOf n with
  | case1 => rfl
  | case2 n hn ih =>
    rw [natOf_append, ih, natOf_cons]
    simp [natOf]
    omega

theorem pow_le_natOf {ds : List Nat} (h : Leading ds) : 10 ^ (ds.length - 1) ≤ natOf ds := by
  obtain ⟨d, r, rfl, hd⟩ := h
  rw [natOf_cons, List.length_cons, Nat.add_sub_cancel]
  have : 1 ≤ d := by omega
  nlinarith [Nat.pow_pos (n := r.length) (show 0 < 10 by decide)]

theorem dropTrailingZeros_append (ds : List Nat) :
    ∃ k, ds = dropTrailingZeros ds ++ List.replicate k 0 := by
  obtain ⟨k, hk⟩ : ∃ k, ds.reverse.takeWhile (· = 0) = List.replicate k 0 := by
    refine ⟨_, List.eq_replicate_of_mem fun d hd => ?_⟩
    simpa using List.mem_takeWhile_imp hd
  refine ⟨k, ?_⟩
  have := congrArg List.reverse (List.takeWhile_append_dropWhile (p := (· = 0)) (l := ds.reverse))
  rw [List.reverse_append, List.reverse_reverse, hk, List.reverse_replicate] at this
  exact this.symm

theorem value_ofGrid (c : Nat) (grid : Int) : (ofGrid c grid).value = c * 10 ^ grid := by
  obtain ⟨k, hk⟩ := dropTrailingZeros_append (digitsOf c)
  have hlength := congrArg List.length hk
  have hnat := congrArg natOf hk
  rw [List.length_append, List.length_replicate] at hlength
  rw [natOf_append, natOf_zeros, natOf_digitsOf, List.length_replicate, Nat.add_zero] at hnat
  rw [value, ofGrid, hlength]
  conv_rhs => rw [hnat]
  push_cast
  rw [mul_assoc, ← zpow_natCast, ← zpow_add₀ (by norm_num)]
  congr 2
  ring

theorem value_shift (d : Decimal) (k : Int) : (d.shift k).value = d.value * 10 ^ k := by
  rw [value, value, shift, mul_assoc, ← zpow_add₀ (by norm_num)]
  congr 2
  ring

end Decimal

namespace Interval

open Binary

theorem cross_le {a b t t' u u' : Nat} (ht : 0 < t') (hu : 0 < u') :
    a * u * t' ≤ b * t * u' ↔ (a * ((u : ℚ) / u') ≤ b * ((t : ℚ) / t')) := by
  have ht : (0 : ℚ) < t' := by exact_mod_cast ht
  have hu : (0 : ℚ) < u' := by exact_mod_cast hu
  rw [mul_div_assoc', mul_div_assoc', div_le_div_iff₀ hu ht]
  exact_mod_cast Iff.rfl

/-- Whether a point of a grid lies in a closed interval. -/
theorem contains_iff {i : Interval} (hclosed : i.closed = true) (grid : Int) (c : Nat) :
    i.contains grid c = true ↔
      (i.low * 2 ^ i.exponent : ℚ) ≤ c * 10 ^ grid ∧
      (c * 10 ^ grid : ℚ) ≤ i.high * 2 ^ i.exponent := by
  have hquotient := quotient_div 1 i.exponent
  rw [Nat.cast_one, one_mul] at hquotient
  have ht := tens_snd_pos grid
  have hu := quotient_snd_pos 1 i.exponent
  have hlow := cross_le (a := i.low) (b := c) (t := (tens grid).1)
    (u := (quotient 1 i.exponent).1) ht hu
  have hhigh := cross_le (a := c) (b := i.high) (t := (quotient 1 i.exponent).1)
    (u := (tens grid).1) hu ht
  rw [tens_div, hquotient] at hlow hhigh
  unfold contains
  simp only [hclosed, if_true, Bool.and_eq_true, decide_eq_true_eq, hlow, hhigh]

/-! Scaling. -/

/-- The shift by which the upper bound fills 32 binary digits. -/
def shift (i : Interval) : Nat := 31 - i.high.log2

def scale (i : Interval) : Int := scaleOf (i.exponent - i.shift)

/-- The power of ten of a scale, to 32 binary digits. -/
def power (scale : Int) : Nat × Int := significant 32 (tens scale).1 (tens scale).2

/-- A bound times a power of ten, rounded to its upper 32 digits. -/
def times (i : Interval) (n : Nat) : Nat := ((n <<< i.shift) * (power i.scale).1 + 1 <<< 31) >>> 32

/-- The unit of the scaled interval. -/
def unit (i : Interval) : ℚ := 2 ^ (i.exponent - i.shift + (power i.scale).2 + 32)

theorem scaled_eq (i : Interval) :
    i.scaled = (⟨i.times i.low + 1, i.times i.value, i.times i.high - 1,
    i.exponent - i.shift + (power i.scale).2 + 32, true⟩, i.scale) := by
  simp only [scaled, times, power, scale, shift]

theorem unit_pos (i : Interval) : 0 < i.unit := by
  unfold unit
  positivity

theorem power_bounds (scale : Int) :
    2 ^ 31 ≤ (power scale).1 ∧ (power scale).1 < 2 ^ 32 ∧
      (10 : ℚ) ^ scale - 2 ^ (power scale).2 / 2 ≤ (power scale).1 * 2 ^ (power scale).2 ∧
      (power scale).1 * 2 ^ (power scale).2 ≤ (10 : ℚ) ^ scale + 2 ^ (power scale).2 / 2 := by
  obtain ⟨hleast, hmost, hlow, hhigh⟩ :=
    @significant_bounds 32 _ _ (Nat.succ_pos 31) (tens_fst_pos scale) (tens_snd_pos scale)
  rw [tens_div] at hlow hhigh
  exact ⟨hleast, hmost, hlow, hhigh⟩

theorem unit_eq (i : Interval) :
    i.unit = 2 ^ i.exponent / 2 ^ i.shift * 2 ^ (power i.scale).2 * 2 ^ 32 := by
  unfold unit
  rw [zpow_add₀ (by norm_num), zpow_add₀ (by norm_num), zpow_sub₀ (by norm_num), zpow_natCast]
  norm_num

theorem times_bounds (i : Interval) (n : Nat) :
    ((n * 2 ^ i.shift : Nat) * (power i.scale).1 / 2 ^ 32 - 1 / 2 : ℚ) ≤ i.times n ∧
      (i.times n : ℚ) ≤ (n * 2 ^ i.shift : Nat) * (power i.scale).1 / 2 ^ 32 + 1 / 2 := by
  have hshape : i.times n = (n * 2 ^ i.shift * (power i.scale).1 + 2 ^ 31) / 2 ^ 32 := by
    simp only [times, Nat.shiftLeft_eq, Nat.shiftRight_eq_div_pow, Nat.one_mul]
  have hdiv := Nat.div_add_mod (n * 2 ^ i.shift * (power i.scale).1 + 2 ^ 31) (2 ^ 32)
  rw [← hshape] at hdiv
  have hmod := Nat.mod_lt (n * 2 ^ i.shift * (power i.scale).1 + 2 ^ 31) (show 0 < 2 ^ 32 by decide)
  generalize (n * 2 ^ i.shift * (power i.scale).1 + 2 ^ 31) % 2 ^ 32 = r at hdiv hmod
  have hdiv : (2 ^ 32 : ℚ) * i.times n + r = (n * 2 ^ i.shift : Nat) *
      (power i.scale).1 + 2 ^ 31 := by
    exact_mod_cast hdiv
  have hr : (r : ℚ) < 2 ^ 32 := by exact_mod_cast hmod
  have hr0 : (0 : ℚ) ≤ r := by positivity
  constructor
  · rw [div_sub' (by norm_num), div_le_iff₀ (by norm_num)]
    linarith
  · rw [div_add' _ _ _ (by norm_num), le_div_iff₀ (by norm_num)]
    linarith

/-- A bound that is scaled moves by at most one unit. -/
theorem abs_times_sub_le (i : Interval) {n : Nat} (hn : n * 2 ^ i.shift < 2 ^ 32) :
    |i.times n * i.unit - n * 2 ^ i.exponent * 10 ^ i.scale| ≤ i.unit := by
  obtain ⟨-, -, hlow, hhigh⟩ := power_bounds i.scale
  obtain ⟨htimes, htimes'⟩ := times_bounds i n
  have hunit := i.unit_pos
  set x : ℚ := ((n * 2 ^ i.shift : Nat) : ℚ) with hx
  set c : ℚ := ((power i.scale).1 : ℚ)
  set w : ℚ := 2 ^ (power i.scale).2 with hw
  set v : ℚ := 2 ^ i.exponent / 2 ^ i.shift with hv
  have hv0 : 0 < v := by positivity
  have hx0 : 0 ≤ x := by positivity
  have hx32 : x ≤ 2 ^ 32 := by
    rw [hx]
    exact_mod_cast hn.le
  have hexact : (n * 2 ^ i.exponent * 10 ^ i.scale : ℚ) = x * v * 10 ^ i.scale := by
    rw [hx, hv]
    push_cast
    field_simp
  have hproduct : x * c / 2 ^ 32 * i.unit = x * v * (c * w) := by
    rw [unit_eq, ← hv, ← hw]
    ring
  have hpower : |x * v * (c * w) - x * v * 10 ^ i.scale| ≤ i.unit / 2 := by
    rw [← mul_sub, abs_mul, abs_of_nonneg (by positivity)]
    calc x * v * |c * w - 10 ^ i.scale| ≤ 2 ^ 32 * v * (w / 2) := by
          have : |c * w - 10 ^ i.scale| ≤ w / 2 := abs_le.mpr ⟨by linarith, by linarith⟩
          gcongr
      _ = i.unit / 2 := by
        rw [unit_eq]
        ring
  have hround : |i.times n * i.unit - x * v * (c * w)| ≤ i.unit / 2 := by
    rw [← hproduct, ← sub_mul, abs_mul, abs_of_pos hunit]
    calc |i.times n - x * c / 2 ^ 32| * i.unit ≤ 1 / 2 * i.unit := by
          have : |(i.times n : ℚ) - x * c / 2 ^ 32| ≤ 1 / 2 := abs_le.mpr ⟨by linarith, by linarith⟩
          gcongr
      _ = i.unit / 2 := by ring
  rw [hexact]
  calc _ ≤ |i.times n * i.unit - x * v * (c * w)| + |x * v * (c * w) - x * v * 10 ^ i.scale| :=
        abs_sub_le _ _ _
    _ ≤ i.unit := by linarith

/-- The scale brings the unit into place. -/
theorem one_le_scaleOf {e : Int} (h : -201 ≤ e) : (1 : ℚ) ≤ 10 ^ scaleOf e * 2 ^ (e + 29) := by
  have hcompare (k : Int) :
      (tens k).2 * (quotient 1 (e + 29)).2 ≤ (tens k).1 * (quotient 1 (e + 29)).1 ↔
      (1 : ℚ) ≤ 10 ^ k * 2 ^ (e + 29) := by
    have ht : (0 : ℚ) < (tens k).2 := by exact_mod_cast tens_snd_pos k
    have hu : (0 : ℚ) < (quotient 1 (e + 29)).2 := by exact_mod_cast quotient_snd_pos 1 (e + 29)
    have hquotient := quotient_div 1 (e + 29)
    rw [Nat.cast_one, one_mul] at hquotient
    rw [← tens_div, ← hquotient, div_mul_div_comm, one_le_div (by positivity)]
    exact_mod_cast Iff.rfl
  unfold scaleOf
  dsimp only
  cases hfind : scales.find? fun k => (tens k).2 * (quotient 1 (e + 29)).2 ≤
      (tens k).1 * (quotient 1 (e + 29)).1 with
  | some k =>
    have hk := List.find?_some hfind
    rw [decide_eq_true_eq, hcompare] at hk
    exact hk
  | none =>
    have hlast := List.find?_eq_none.mp hfind 52 (by decide)
    rw [decide_eq_true_eq, hcompare] at hlast
    refine absurd ?_ hlast
    calc (1 : ℚ) ≤ 10 ^ (52 : Int) * 2 ^ (-172 : Int) := by norm_num
      _ ≤ 10 ^ (52 : Int) * 2 ^ (e + 29) := by
        gcongr
        · norm_num
        · omega

end Interval

namespace Decimal

open Binary

theorem pow_le_pointOf {num den : Nat} (hden : 0 < den) (h : den ≤ num) :
    (10 : ℚ) ^ (pointOf num den - 1) ≤ num / den := by
  have hq : 0 < num / den := Nat.div_pos h hden
  have hleading := leading_digitsOf hq.ne'
  have hpow := pow_le_natOf hleading
  rw [natOf_digitsOf] at hpow
  have hlength : 0 < (digitsOf (num / den)).length := by
    obtain ⟨d, r, hd, -⟩ := hleading
    simp [hd]
  have hpoint : pointOf num den = (digitsOf (num / den)).length := by
    unfold pointOf
    exact if_pos hq
  have hexponent : pointOf num den - 1 =
      (((digitsOf (num / den)).length - 1 : Nat) : Int) := by omega
  calc (10 : ℚ) ^ (pointOf num den - 1) =
    ((10 ^ ((digitsOf (num / den)).length - 1) : Nat) : ℚ) := by
        rw [hexponent, zpow_natCast]
        push_cast
        rfl
    _ ≤ ((num / den : Nat) : ℚ) := by exact_mod_cast hpow
    _ ≤ num / den := Nat.cast_div_le

/-- The neighbour above the value on a grid of nine digits. -/
theorem contains_above {i : Interval} (hclosed : i.closed = true) (hlow : i.low ≤ i.value)
    (hwide : i.value + 10 ^ 8 * i.value ≤ 10 ^ 8 * i.high) {point : Int}
    (hpoint : (10 : ℚ) ^ (point - 1) ≤ i.value * 2 ^ i.exponent) :
    i.contains (point - 9) ((quotient i.value i.exponent).1 * (tens (point - 9)).2 /
      ((quotient i.value i.exponent).2 * (tens (point - 9)).1) + 1) = true := by
  set grid := point - 9 with hgrid
  set num := (quotient i.value i.exponent).1 * (tens grid).2 with hnum
  set den := (quotient i.value i.exponent).2 * (tens grid).1 with hden
  have hden0 : 0 < den := Nat.mul_pos (quotient_snd_pos _ _) (tens_fst_pos _)
  have hten : (0 : ℚ) < 10 ^ grid := by positivity
  have htwo : (0 : ℚ) < 2 ^ i.exponent := by positivity
  have hratio : (num / den : ℚ) * 10 ^ grid = i.value * 2 ^ i.exponent := by
    rw [← quotient_div, ← tens_div, hnum, hden]
    have ht : (0 : ℚ) < (tens grid).1 := by exact_mod_cast tens_fst_pos grid
    have ht' : (0 : ℚ) < (tens grid).2 := by exact_mod_cast tens_snd_pos grid
    push_cast
    field_simp
  have hbelow : ((num / den : Nat) : ℚ) ≤ num / den := Nat.cast_div_le
  have habove : (num / den : ℚ) ≤ ((num / den : Nat) : ℚ) + 1 := by
    rw [div_le_iff₀ (by exact_mod_cast hden0)]
    have : num ≤ (num / den + 1) * den := (Nat.lt_mul_of_div_lt (Nat.lt_succ_self _) hden0).le
    exact_mod_cast this
  have hstep : (10 : ℚ) ^ grid * 10 ^ 8 ≤ i.value * 2 ^ i.exponent := by
    refine le_trans (le_of_eq ?_) hpoint
    rw [← zpow_natCast, ← zpow_add₀ (by norm_num), hgrid]
    congr 1
    push_cast
    ring
  have hwide : (i.value + 10 ^ 8 * i.value : ℚ) * 2 ^ i.exponent ≤
      10 ^ 8 * i.high * 2 ^ i.exponent := by
    have : (i.value + 10 ^ 8 * i.value : ℚ) ≤ 10 ^ 8 * i.high := by exact_mod_cast hwide
    gcongr
  rw [Interval.contains_iff hclosed]
  push_cast
  constructor
  · calc (i.low * 2 ^ i.exponent : ℚ) ≤ i.value * 2 ^ i.exponent := by gcongr
      _ = (num / den : ℚ) * 10 ^ grid := hratio.symm
      _ ≤ _ := by gcongr
  · calc (((num / den : Nat) : ℚ) + 1) * 10 ^ grid ≤ (num / den + 1) * 10 ^ grid := by gcongr
      _ = i.value * 2 ^ i.exponent + 10 ^ grid := by rw [add_mul, hratio, one_mul]
      _ ≤ i.high * 2 ^ i.exponent := by linarith

/-- An interval that is wide enough for a grid of nine digits has digits. -/
theorem exists_shortest {i : Interval} (hclosed : i.closed = true) (hlow : i.low ≤ i.value)
    (hwide : i.value + 10 ^ 8 * i.value ≤ 10 ^ 8 * i.high)
    (hone : (1 : ℚ) ≤ i.value * 2 ^ i.exponent) :
    ∃ c grid, i.contains grid c = true ∧ shortest i = ofGrid c grid := by
  have hvalue : i.value ≠ 0 := by
    rintro h
    rw [h] at hone
    norm_num at hone
  have hd := quotient_snd_pos i.value i.exponent
  rw [← quotient_div] at hone
  have hle : (quotient i.value i.exponent).2 ≤ (quotient i.value i.exponent).1 := by
    rw [one_le_div (by exact_mod_cast hd)] at hone
    exact_mod_cast hone
  have hpoint := pow_le_pointOf hd hle
  rw [quotient_div] at hpoint
  have hnine := contains_above hclosed hlow hwide hpoint
  have hshape : shortest i = ([1, 2, 3, 4, 5, 6, 7, 8, 9].findSome? (onGrid? i (pointOf
      (quotient i.value i.exponent).1 (quotient i.value i.exponent).2) ·)).getD ⟨[], 0⟩ := by
    unfold shortest
    rw [if_neg hvalue]
  rw [hshape]
  cases hfind : [1, 2, 3, 4, 5, 6, 7, 8, 9].findSome? (onGrid? i (pointOf
      (quotient i.value i.exponent).1 (quotient i.value i.exponent).2) ·) with
  | some d =>
    obtain ⟨places, -, hgrid⟩ := List.exists_of_findSome?_eq_some hfind
    obtain ⟨c, hcontains, rfl⟩ := onGrid?_eq_some hgrid
    exact ⟨c, _, hcontains, rfl⟩
  | none =>
    have hnone := List.findSome?_eq_none_iff.mp hfind 9 (by decide)
    unfold onGrid? at hnone
    simp only [Nat.cast_ofNat, hnine, Bool.and_true, if_true] at hnone
    split at hnone <;> cases hnone

end Decimal

namespace Interval

open Binary

/-- A point of the scaled interval is a point of the interval times the power of ten. -/
theorem bounds_of_contains_scaled {i : Interval} (hle : i.low ≤ i.high)
    (hhigh : i.high * 2 ^ i.shift < 2 ^ 32) {grid : Int} {c : Nat}
    (h : i.scaled.1.contains grid c = true) :
    (i.low * 2 ^ i.exponent : ℚ) ≤ c * 10 ^ grid * 10 ^ (-i.scale) ∧
      (c * 10 ^ grid * 10 ^ (-i.scale) : ℚ) ≤ i.high * 2 ^ i.exponent := by
  rw [scaled_eq, contains_iff rfl] at h
  obtain ⟨hbelow, habove⟩ := h
  have hlow : i.low * 2 ^ i.shift < 2 ^ 32 := (Nat.mul_le_mul_right _ hle).trans_lt hhigh
  obtain ⟨hlow, -⟩ := abs_le.mp (i.abs_times_sub_le hlow)
  obtain ⟨-, hhigh⟩ := abs_le.mp (i.abs_times_sub_le hhigh)
  have hunit := i.unit_pos
  have hten : (0 : ℚ) < 10 ^ i.scale := by positivity
  change ((i.times i.low + 1 : Nat) : ℚ) * i.unit ≤ _ at hbelow
  change _ ≤ ((i.times i.high - 1 : Nat) : ℚ) * i.unit at habove
  rw [zpow_neg, ← div_eq_mul_inv, le_div_iff₀ hten, div_le_iff₀ hten]
  constructor
  · push_cast at hbelow
    linarith
  · have hpred : ((i.times i.high - 1 : Nat) : ℚ) * i.unit ≤
        i.high * 2 ^ i.exponent * 10 ^ i.scale := by
      cases hzero : i.times i.high with
      | zero =>
        rw [Nat.zero_sub, Nat.cast_zero, zero_mul]
        positivity
      | succ k =>
        rw [hzero] at hhigh
        push_cast at hhigh
        rw [Nat.add_sub_cancel]
        linarith
    exact habove.trans hpred

variable {m : Nat} {e : Int}

theorem shift_rounding (hm : m ≠ 0) (hlt : m < 2 ^ 24) :
    6 ≤ (rounding m e).shift ∧ (rounding m e).shift ≤ 29 ∧
      (4 * m + 2) * 2 ^ (rounding m e).shift < 2 ^ 32 ∧
      2 ^ 30 ≤ 4 * m * 2 ^ (rounding m e).shift := by
  have hshift : (rounding m e).shift = 31 - (4 * m + 2).log2 := rfl
  have hmost : (4 * m + 2).log2 < 26 := (Nat.log2_lt (by omega)).mpr (by omega)
  have hleast : 2 ≤ (4 * m + 2).log2 := (Nat.le_log2 (by omega)).mpr (by omega)
  have hself : 2 ^ (4 * m + 2).log2 ≤ 4 * m + 2 := Nat.log2_self_le (by omega)
  have hself' : 4 * m + 2 < 2 ^ ((4 * m + 2).log2 + 1) := Nat.lt_log2_self
  rw [hshift]
  generalize (4 * m + 2).log2 = k at *
  refine ⟨by omega, by omega, ?_, ?_⟩
  · calc (4 * m + 2) * 2 ^ (31 - k) < 2 ^ (k + 1) * 2 ^ (31 - k) := by gcongr
      _ = 2 ^ 32 := by rw [← Nat.pow_add]; congr 1; omega
  · have hhalf : 2 ^ (k - 1) ≤ 4 * m := by
      obtain ⟨j, rfl⟩ : ∃ j, k = j + 2 := ⟨k - 2, by omega⟩
      rw [show j + 2 - 1 = j + 1 by omega]
      have := Nat.one_le_two_pow (n := j)
      rw [Nat.pow_succ, Nat.pow_succ] at *
      omega
    calc 2 ^ 30 = 2 ^ (k - 1) * 2 ^ (31 - k) := by rw [← Nat.pow_add]; congr 1; omega
      _ ≤ 4 * m * 2 ^ (31 - k) := by gcongr

theorem low_rounding (m : Nat) (e : Int) :
    4 * m - 2 ≤ (rounding m e).low ∧ (rounding m e).low ≤ 4 * m - 1 := by
  unfold rounding
  dsimp only
  split <;> omega

/-- What the scaled interval has left of the interval around a number: digits of nine places, and a
whole part. -/
theorem scaled_rounding (hm : m ≠ 0) (hlt : m < 2 ^ 24) (he : -149 ≤ e) :
    (rounding m e).scaled.1.low ≤ (rounding m e).scaled.1.value ∧
      (rounding m e).scaled.1.value + 10 ^ 8 * (rounding m e).scaled.1.value ≤
        10 ^ 8 * (rounding m e).scaled.1.high ∧
      (1 : ℚ) ≤ (rounding m e).scaled.1.value * 2 ^ (rounding m e).scaled.1.exponent := by
  obtain ⟨hleast, hmost, -, hfull⟩ := shift_rounding (e := e) hm hlt
  obtain ⟨-, hlow⟩ := low_rounding m e
  have hscale : (1 : ℚ) ≤ 10 ^ (rounding m e).scale * 2 ^ (e - 2 - (rounding m e).shift + 29) :=
    @one_le_scaleOf (e - 2 - (rounding m e).shift) (by omega)
  have hvalue : (rounding m e).value = 4 * m := rfl
  have hhigh : (rounding m e).high = 4 * m + 2 := rfl
  have hexponent : (rounding m e).exponent = e - 2 := rfl
  have hunit := (rounding m e).unit_eq
  rw [hexponent] at hunit
  rw [scaled_eq]
  generalize rounding m e = i at *
  obtain ⟨hpower, -, hpower', -⟩ := power_bounds i.scale
  obtain ⟨-, htimesLow⟩ := i.times_bounds i.low
  obtain ⟨hbelow, habove⟩ := i.times_bounds i.value
  obtain ⟨htimesHigh, -⟩ := i.times_bounds i.high
  have hpos := i.unit_pos
  set c : ℚ := ((power i.scale).1 : ℚ) with hc
  set w : ℚ := 2 ^ (power i.scale).2 with hw
  set y : ℚ := 2 ^ i.shift * c / 2 ^ 32 with hy
  have hc31 : (2 ^ 31 : ℚ) ≤ c := by
    rw [hc]
    exact_mod_cast hpower
  have hw0 : 0 < w := by positivity
  have hshift : (64 : ℚ) ≤ 2 ^ i.shift := by
    calc (64 : ℚ) = 2 ^ 6 := by norm_num
      _ ≤ 2 ^ i.shift := pow_le_pow_right₀ (by norm_num) hleast
  have hy32 : 32 ≤ y := by
    rw [hy, le_div_iff₀ (by norm_num)]
    calc (32 * 2 ^ 32 : ℚ) = 64 * 2 ^ 31 := by norm_num
      _ ≤ 2 ^ i.shift * c := by gcongr
  have hscaled (n : Nat) : ((n * 2 ^ i.shift : Nat) * c / 2 ^ 32 : ℚ) = n * y := by
    rw [hy]
    push_cast
    ring
  rw [hscaled] at htimesLow hbelow habove htimesHigh
  have hm1 : (1 : ℚ) ≤ m := by exact_mod_cast Nat.one_le_iff_ne_zero.mpr hm
  have hm24 : (m : ℚ) ≤ 2 ^ 24 := by exact_mod_cast hlt.le
  have hlow : (i.low : ℚ) ≤ 4 * m - 1 := by
    have : i.low + 1 ≤ 4 * m := by omega
    have : ((i.low + 1 : Nat) : ℚ) ≤ ((4 * m : Nat) : ℚ) := by exact_mod_cast this
    push_cast at this
    linarith
  rw [hvalue] at hbelow habove
  rw [hhigh] at htimesHigh
  push_cast at hbelow habove htimesHigh
  have hy0 : 0 ≤ y := le_trans (by norm_num) hy32
  have hmy : (m : ℚ) * y ≤ 2 ^ 24 * y := mul_le_mul_of_nonneg_right hm24 hy0
  have hmy32 : (1 : ℚ) * 32 ≤ m * y := mul_le_mul hm1 hy32 (by norm_num) (by linarith)
  have hlowy : (i.low : ℚ) * y ≤ (4 * m - 1) * y := mul_le_mul_of_nonneg_right hlow hy0
  have hspread : (i.times i.value : ℚ) + 10 ^ 8 * i.times i.value + 10 ^ 8 ≤
      10 ^ 8 * i.times i.high := by
    rw [hvalue, hhigh]
    linarith
  refine ⟨?_, ?_, ?_⟩
  · have : ((i.times i.low + 1 : Nat) : ℚ) ≤ (i.times i.value : Nat) := by
      rw [hvalue]
      push_cast
      linarith
    exact_mod_cast this
  · have hnat : i.times i.value + 10 ^ 8 * i.times i.value + 10 ^ 8 ≤ 10 ^ 8 * i.times i.high := by
      exact_mod_cast hspread
    change i.times i.value + 10 ^ 8 * i.times i.value ≤ 10 ^ 8 * (i.times i.high - 1)
    omega
  · change (1 : ℚ) ≤ i.times i.value * i.unit
    set v : ℚ := 2 ^ (e - 2) / 2 ^ i.shift with hv
    have hv0 : 0 < v := by positivity
    have hplace : (1 : ℚ) ≤ 10 ^ i.scale * v * 2 ^ 29 := by
      refine hscale.trans_eq ?_
      rw [zpow_add₀ (by norm_num), zpow_sub₀ (by norm_num) (e - 2), hv, zpow_natCast]
      norm_num
      ring
    have hten : (0 : ℚ) < 10 ^ i.scale := by positivity
    have hcw : (2 ^ 31 : ℚ) * w ≤ c * w := mul_le_mul_of_nonneg_right hc31 hw0.le
    have hthree : (3 / 4 : ℚ) * 10 ^ i.scale ≤ c * w := by linarith
    have hx : (2 ^ 30 : ℚ) ≤ 4 * m * 2 ^ i.shift := by exact_mod_cast hfull
    have hthree' : (3 / 4 : ℚ) * (4 * m * y) ≤ i.times i.value := by
      rw [hvalue]
      linarith
    calc (1 : ℚ) ≤ 3 / 4 * (3 / 4) * 2 ^ 30 * (1 / 2 ^ 29) := by norm_num
      _ ≤ 3 / 4 * (3 / 4) * (4 * m * 2 ^ i.shift) * (10 ^ i.scale * v) := by
        have : (1 / 2 ^ 29 : ℚ) ≤ 10 ^ i.scale * v := by
          rw [div_le_iff₀ (by norm_num)]
          exact hplace
        gcongr
      _ = 3 / 4 * (4 * m * 2 ^ i.shift) * (3 / 4 * 10 ^ i.scale) * v := by ring
      _ ≤ 3 / 4 * (4 * m * 2 ^ i.shift) * (c * w) * v := by gcongr
      _ = 3 / 4 * (4 * m * y) * i.unit := by
        rw [hunit, hy]
        ring
      _ ≤ i.times i.value * i.unit := by gcongr

end Interval

namespace Written

open Binary

variable {m : Nat} {e : Int}

theorem exists_sheetDecimal_ofGrid (hm : m ≠ 0) (hlt : m < 2 ^ 24) (he : -149 ≤ e) :
    ∃ c grid, c ≠ 0 ∧ (Interval.rounding m e).scaled.1.contains grid c = true ∧
      sheetDecimal m e = (Decimal.ofGrid c grid).shift (-(Interval.rounding m e).scale) := by
  obtain ⟨hlow, hwide, hone⟩ := Interval.scaled_rounding hm hlt he
  obtain ⟨c, grid, hcontains, hshortest⟩ := Decimal.exists_shortest rfl hlow hwide hone
  refine ⟨c, grid, Interval.ne_zero_of_contains rfl hcontains, hcontains, ?_⟩
  change (Decimal.shortest (Interval.rounding m e).scaled.1).shift _ = _
  rw [hshortest]
  rfl

theorem leading_sheetDecimal (hm : m ≠ 0) (hlt : m < 2 ^ 24) (he : -149 ≤ e) :
    Decimal.Leading (sheetDecimal m e).digits := by
  obtain ⟨c, grid, hc, -, heq⟩ := exists_sheetDecimal_ofGrid hm hlt he
  rw [heq]
  exact Decimal.leading_dropTrailingZeros (Decimal.leading_digitsOf hc)

/-- The digits of a number stand for a real that rounds to it. -/
theorem value_sheetDecimal (hm : m ≠ 0) (hlt : m < 2 ^ 24) (he : -149 ≤ e) :
    (m * 2 ^ e - 2 ^ e / 2 : ℚ) ≤ (sheetDecimal m e).value ∧
      (sheetDecimal m e).value ≤ (m * 2 ^ e + 2 ^ e / 2 : ℚ) := by
  obtain ⟨c, grid, -, hcontains, heq⟩ := exists_sheetDecimal_ofGrid hm hlt he
  obtain ⟨-, -, hshift, -⟩ := Interval.shift_rounding (e := e) hm hlt
  obtain ⟨hlow, hlow'⟩ := Interval.low_rounding m e
  have hhigh : (Interval.rounding m e).high = 4 * m + 2 := rfl
  obtain ⟨hbelow, habove⟩ := Interval.bounds_of_contains_scaled (by omega) hshift hcontains
  have hexponent : (Interval.rounding m e).exponent = e - 2 := rfl
  have hquarter : (2 : ℚ) ^ (e - 2) = 2 ^ e / 4 := by
    rw [zpow_sub₀ (by norm_num)]
    norm_num
  have htwo : (0 : ℚ) < 2 ^ e := by positivity
  rw [heq, Decimal.value_shift, Decimal.value_ofGrid]
  rw [hexponent, hquarter] at hbelow habove
  rw [hhigh] at habove
  push_cast at habove
  have hlow : (4 * m - 2 : ℚ) ≤ (Interval.rounding m e).low := by
    have : 4 * m ≤ (Interval.rounding m e).low + 2 := by omega
    have : ((4 * m : Nat) : ℚ) ≤
        (((Interval.rounding m e).low + 2 : Nat) : ℚ) := by exact_mod_cast this
    push_cast at this
    linarith
  constructor
  · have := mul_le_mul_of_nonneg_right hlow htwo.le
    linarith
  · linarith

end Written

end StyleGrammar
