import StyleGrammar.Proofs.Number.Shortest

/-!
# Digits cut to six places

Cutting digits to a number of places rounds the number they stand for: what is
left stands for a number within half a unit of the last place that is kept.
-/

namespace StyleGrammar

namespace Decimal

/-- Digits that do not end in a zero. -/
def Trimmed (ds : List Nat) : Prop := ∀ es, ds ≠ es ++ [0]

theorem trimmed_dropTrailingZeros (ds : List Nat) : Trimmed (dropTrailingZeros ds) := by
  intro es h
  have hreverse : ds.reverse.dropWhile (· = 0) = 0 :: es.reverse := by
    rw [dropTrailingZeros] at h
    rw [← List.reverse_reverse (ds.reverse.dropWhile _), h]
    simp
  have hhead := List.head?_dropWhile_not (· = 0) ds.reverse
  rw [hreverse] at hhead
  simp at hhead

theorem natOf_dropTrailingZeros (ds : List Nat) :
    (natOf (dropTrailingZeros ds) * 10 ^ (-(dropTrailingZeros ds).length : Int) : ℚ) =
      natOf ds * 10 ^ (-ds.length : Int) := by
  obtain ⟨k, hk⟩ := dropTrailingZeros_append ds
  have hlength := congrArg List.length hk
  have hnat := congrArg natOf hk
  rw [List.length_append, List.length_replicate] at hlength
  rw [natOf_append, natOf_zeros, List.length_replicate, Nat.add_zero] at hnat
  rw [hnat, hlength]
  push_cast
  rw [mul_assoc, ← zpow_natCast, ← zpow_add₀ (by norm_num)]
  congr 2
  ring

/-- One more in the last place, or the carry that is left of nines. -/
theorem increment_spec (ds : List Nat) :
    (increment ds).1.length = ds.length ∧
      natOf (increment ds).1 + (if (increment ds).2 then 10 ^ ds.length else 0) = natOf ds + 1 := by
  fun_induction increment ds with
  | case1 => simp [natOf]
  | case2 d ds ds' heq ih =>
    rw [heq] at ih
    simp only [List.length_cons, natOf_cons, Bool.false_eq_true, if_false] at ih ⊢
    rw [ih.1]
    omega
  | case3 ds ds' heq ih =>
    rw [heq] at ih
    simp only [List.length_cons, natOf_cons, if_true] at ih ⊢
    rw [Nat.pow_succ]
    omega
  | case4 d ds ds' heq hd ih =>
    rw [heq] at ih
    simp only [List.length_cons, natOf_cons, if_true, Bool.false_eq_true, if_false] at ih ⊢
    rw [ih.1]
    constructor
    · rfl
    · rw [Nat.add_mul]
      omega

/-- The number that restricted digits stand for, with the point in front of the first digit. -/
def restricted (places : Nat) (d : Decimal) : Decimal :=
  ⟨(restrict places d.digits).1, if (restrict places d.digits).2 then d.point + 1 else d.point⟩

/-- The first digit that is cut says on which side of the half the rest lies. -/
theorem five_le_iff {next : Nat} {ds : List Nat} (h : ∀ d ∈ ds, d < 10) :
    5 ≤ next ↔ 10 ^ (ds.length + 1) ≤ 2 * natOf (next :: ds) := by
  have := natOf_lt h
  rw [natOf_cons, Nat.pow_succ]
  generalize 10 ^ ds.length = x at *
  constructor
  · intro h
    have : 5 * x ≤ next * x := Nat.mul_le_mul_right x h
    omega
  · intro hle
    by_contra hlt
    have : next * x ≤ 4 * x := Nat.mul_le_mul_right x (by omega)
    omega

/-- Digits without the zeros at their end stand for the same number behind the same point. -/
theorem value_dropTrailingZeros (ds : List Nat) (point : Int) :
    (⟨dropTrailingZeros ds, point⟩ : Decimal).value = natOf ds * 10 ^ (point - ds.length) := by
  rw [value, sub_eq_add_neg, sub_eq_add_neg, zpow_add₀ (by norm_num), zpow_add₀ (by norm_num),
    mul_left_comm, natOf_dropTrailingZeros]
  ring

/-- The digits that are kept, one more in their last place if the rest is at least a half. -/
theorem value_restricted_of_cut {places : Nat} {d : Decimal}
    (h : ∀ n ∈ d.digits, n < 10) {next : Nat}
    {rest : List Nat} (hcut : d.digits.drop places = next :: rest) :
    (d.restricted places).value =
      (natOf (d.digits.take places) + (if 5 ≤ next then 1 else 0) : Nat) *
        10 ^ (d.point - places : Int) := by
  have hlength : (d.digits.take places).length = places := by
    have := congrArg List.length hcut
    rw [List.length_drop, List.length_cons] at this
    rw [List.length_take]
    omega
  have hlt : natOf (d.digits.take places) < 10 ^ places := by
    have htake : ∀ n ∈ d.digits.take places, n < 10 := fun n hn => h n (List.mem_of_mem_take hn)
    have := natOf_lt htake
    rwa [hlength] at this
  obtain ⟨hkept, hsum⟩ := increment_spec (d.digits.take places)
  rw [hlength] at hkept hsum
  unfold restricted restrict
  simp only [hcut]
  by_cases hnext : 5 ≤ next
  · simp only [if_pos hnext]
    rcases hincrement : increment (d.digits.take places) with ⟨kept, carry⟩
    rw [hincrement] at hkept hsum
    cases carry with
    | false =>
      simp only [Bool.false_eq_true, if_false, Nat.add_zero] at hkept hsum ⊢
      rw [value_dropTrailingZeros, hkept, hsum]
    | true =>
      simp only [if_true] at hsum ⊢
      have hone : natOf (d.digits.take places) + 1 = 10 ^ places := by omega
      rw [hone, value]
      push_cast
      rw [← zpow_natCast, ← zpow_add₀ (by norm_num)]
      simp [natOf]
  · simp only [if_neg hnext, Bool.false_eq_true, if_false, Nat.add_zero]
    rw [value_dropTrailingZeros, hlength]

theorem value_restricted {d : Decimal} (h : ∀ n ∈ d.digits, n < 10) (places : Nat) :
    |(d.restricted places).value - d.value| ≤ 10 ^ (d.point - places : Int) / 2 := by
  cases hcut : d.digits.drop places with
  | nil =>
    have hsame : d.restricted places = d := by
      unfold restricted restrict
      simp [hcut]
    rw [hsame, sub_self, abs_zero]
    positivity
  | cons next rest =>
    have hrest : ∀ n ∈ rest, n < 10 := fun n hn =>
      h n (List.mem_of_mem_drop (hcut ▸ List.mem_cons_of_mem next hn))
    have hsplit : natOf d.digits =
        natOf (d.digits.take places) * 10 ^ (rest.length + 1) + natOf (next :: rest) := by
      conv_lhs => rw [← List.take_append_drop places d.digits, natOf_append, hcut]
      rfl
    have hlength : (d.digits.length : Int) = places + (rest.length + 1) := by
      have := congrArg List.length hcut
      rw [List.length_drop, List.length_cons] at this
      omega
    have hlt : natOf (next :: rest) < 10 ^ (rest.length + 1) :=
      natOf_lt fun n hn => h n (List.mem_of_mem_drop (hcut ▸ hn))
    set unit : ℚ := 10 ^ (d.point - places : Int) with hunit
    have hunit0 : 0 < unit := by positivity
    set x : ℚ := natOf (next :: rest) / 10 ^ (rest.length + 1) with hx
    have hvalue : d.value = (natOf (d.digits.take places) + x) * unit := by
      have hexponent : d.point - (d.digits.length : Int) =
          d.point - places - ((rest.length + 1 : Nat) : Int) := by
        push_cast
        omega
      rw [value, hexponent, zpow_sub₀ (by norm_num), zpow_natCast, hsplit, hx, hunit]
      push_cast
      field_simp
    have hfive : 5 ≤ next ↔ 10 ^ (rest.length + 1) ≤ 2 * natOf (next :: rest) := five_le_iff hrest
    rw [value_restricted_of_cut h hcut, hvalue, ← sub_mul, abs_mul, abs_of_pos hunit0]
    have hx0 : 0 ≤ x := by positivity
    have hhalf : |((natOf (d.digits.take places) + (if 5 ≤ next then 1 else 0) : Nat) : ℚ) -
        (natOf (d.digits.take places) + x)| ≤ 1 / 2 := by
      have hten : (0 : ℚ) < 10 ^ (rest.length + 1) := by positivity
      by_cases hnext : 5 ≤ next
      · have hle : (1 / 2 : ℚ) ≤ x := by
          have : ((10 ^ (rest.length + 1) : Nat) : ℚ) ≤ ((2 * natOf (next :: rest) : Nat) : ℚ) := by
            exact_mod_cast hfive.mp hnext
          push_cast at this
          rw [hx, le_div_iff₀ hten]
          linarith
        have hle' : x ≤ 1 := by
          rw [hx, div_le_one hten]
          exact_mod_cast hlt.le
        rw [if_pos hnext, abs_le]
        push_cast
        constructor <;> linarith
      · have hle : x ≤ 1 / 2 := by
          have : ((2 * natOf (next :: rest) : Nat) : ℚ) ≤ ((10 ^ (rest.length + 1) : Nat) : ℚ) := by
            exact_mod_cast (not_le.mp (mt hfive.mpr hnext)).le
          push_cast at this
          rw [hx, div_le_iff₀ hten]
          linarith
        rw [if_neg hnext, abs_le]
        push_cast
        constructor <;> linarith
    calc _ ≤ 1 / 2 * unit := by gcongr
      _ = unit / 2 := by ring

end Decimal

theorem Written.trimmed_sheetDecimal {m : Nat} {e : Int} (hm : m ≠ 0) (hlt : m < 2 ^ 24)
    (he : -149 ≤ e) : Decimal.Trimmed (sheetDecimal m e).digits := by
  obtain ⟨c, grid, -, -, heq⟩ := exists_sheetDecimal_ofGrid hm hlt he
  rw [heq]
  exact Decimal.trimmed_dropTrailingZeros _

end StyleGrammar
