import Mathlib.Tactic.Positivity
import Mathlib.Tactic.Ring
import StyleGrammar.Number.Written
import StyleGrammar.Proofs.Token.Words

/-!
# The texts of numbers

A number is written in digits, signs, points and the letter of an exponent, and
the text of a number below one holds more than the zeros that are stripped from
its front.  The second fact needs a look at how digits are found: those of a
grid's candidate begin with one that is not zero, and a value for which no grid
has a candidate would be written with its point in front.
-/

namespace StyleGrammar

namespace Decimal

/-- Digits of which the first is not zero. -/
def Leading (ds : List Nat) : Prop := ∃ d r, ds = d :: r ∧ d ≠ 0

theorem lt_ten_of_mem_digitsOf {n d : Nat} (h : d ∈ digitsOf n) : d < 10 := by
  fun_induction digitsOf n with
  | case1 => cases h
  | case2 n hn ih =>
    rcases List.mem_append.mp h with h | h
    · exact ih h
    · rw [List.mem_singleton.mp h]
      omega

theorem leading_digitsOf {n : Nat} (h : n ≠ 0) : Leading (digitsOf n) := by
  fun_induction digitsOf n with
  | case1 => exact absurd rfl h
  | case2 n hn ih =>
    by_cases hsmall : n / 10 = 0
    · rw [hsmall, digitsOf, dif_pos rfl]
      exact ⟨n % 10, [], rfl, by omega⟩
    · obtain ⟨d, r, hd, hne⟩ := ih hsmall
      exact ⟨d, r ++ [n % 10], by rw [hd]; rfl, hne⟩

theorem mem_of_mem_dropTrailingZeros {ds : List Nat} {d : Nat} (h : d ∈ dropTrailingZeros ds) :
    d ∈ ds := by
  rw [dropTrailingZeros, List.mem_reverse] at h
  exact List.mem_reverse.mp ((List.dropWhile_sublist _).mem h)

theorem leading_dropTrailingZeros {ds : List Nat} (h : Leading ds) :
    Leading (dropTrailingZeros ds) := by
  obtain ⟨d, r, rfl, hd⟩ := h
  have hshape : dropTrailingZeros (d :: r) = d :: dropTrailingZeros r := by
    simp only [dropTrailingZeros, List.reverse_cons]
    rw [List.dropWhile_append]
    split
    · next hempty =>
      rw [List.isEmpty_iff.mp hempty]
      simp [hd]
    · simp
  exact ⟨d, _, hshape, hd⟩

/-- A point of a grid, written without zeros at its end. -/
def ofGrid (c : Nat) (grid : Int) : Decimal :=
  ⟨dropTrailingZeros (digitsOf c), (digitsOf c).length + grid⟩

theorem onGrid?_eq_some {i : Interval} {point : Int} {places : Nat} {d : Decimal}
    (h : onGrid? i point places = some d) :
    ∃ c, i.contains (point - places) c = true ∧ d = ofGrid c (point - places) := by
  unfold onGrid? at h
  dsimp only at h
  split at h
  · next hboth =>
    rw [Bool.and_eq_true] at hboth
    obtain rfl := Option.some.inj h
    split
    · exact ⟨_, hboth.1, rfl⟩
    · exact ⟨_, hboth.2, rfl⟩
  split at h
  · next hbelow =>
    obtain rfl := Option.some.inj h
    exact ⟨_, hbelow, rfl⟩
  split at h
  · next habove =>
    obtain rfl := Option.some.inj h
    exact ⟨_, habove, rfl⟩
  · cases h

/-- Digits are found on a grid, or there are none and the point stands in front. -/
theorem shortest_cases (i : Interval) :
    shortest i = ⟨[], 0⟩ ∨ ∃ c grid, i.contains grid c = true ∧ shortest i = ofGrid c grid := by
  unfold shortest
  split
  · exact .inl rfl
  · dsimp only
    cases h : List.findSome? (onGrid? i (pointOf (Binary.quotient i.value i.exponent).1
        (Binary.quotient i.value i.exponent).2) ·) [1, 2, 3, 4, 5, 6, 7, 8, 9] with
    | none => exact .inl rfl
    | some d =>
      obtain ⟨places, -, hgrid⟩ := List.exists_of_findSome?_eq_some h
      obtain ⟨c, hcontains, rfl⟩ := onGrid?_eq_some hgrid
      exact .inr ⟨c, _, hcontains, rfl⟩

theorem lt_ten_of_mem_shortest {i : Interval} {d : Nat} (h : d ∈ (shortest i).digits) : d < 10 := by
  rcases shortest_cases i with hnone | ⟨c, grid, -, heq⟩
  · rw [hnone] at h
    cases h
  · rw [heq] at h
    exact lt_ten_of_mem_digitsOf (mem_of_mem_dropTrailingZeros h)

theorem increment_digits (ds : List Nat) (h : ∀ d ∈ ds, d < 10) :
    ∀ d ∈ (increment ds).1, d < 10 := by
  fun_induction increment ds with
  | case1 => simp
  | case2 d ds ds' heq ih =>
    rw [heq] at ih
    intro e he
    rcases List.mem_cons.mp he with rfl | he
    · exact h _ List.mem_cons_self
    · exact ih (fun x hx => h x (List.mem_cons_of_mem d hx)) e he
  | case3 ds ds' heq ih =>
    rw [heq] at ih
    intro e he
    rcases List.mem_cons.mp he with rfl | he
    · decide
    · exact ih (fun x hx => h x (List.mem_cons_of_mem _ hx)) e he
  | case4 d ds ds' heq hd ih =>
    have hlt := h d List.mem_cons_self
    rw [heq] at ih
    intro e he
    rcases List.mem_cons.mp he with rfl | he
    · omega
    · exact ih (fun x hx => h x (List.mem_cons_of_mem _ hx)) e he

theorem leading_increment {ds : List Nat} (h : Leading ds) (hcarry : (increment ds).2 = false) :
    Leading (increment ds).1 := by
  obtain ⟨d, r, rfl, hd⟩ := h
  rw [increment] at hcarry ⊢
  split at hcarry
  · next ds' heq => exact ⟨d, ds', rfl, hd⟩
  · next ds' heq =>
    split at hcarry
    · cases hcarry
    · next hne => exact ⟨d + 1, ds', by simp [hne], by omega⟩

theorem restrict_digits {places : Nat} {ds : List Nat} (h : ∀ d ∈ ds, d < 10) :
    ∀ d ∈ (restrict places ds).1, d < 10 := by
  have htake : ∀ d ∈ ds.take places, d < 10 := fun d hd => h d (List.mem_of_mem_take hd)
  unfold restrict
  split
  · exact h
  split
  · split
    · next kept heq =>
      have := increment_digits _ htake
      rw [heq] at this
      exact fun d hd => this d (mem_of_mem_dropTrailingZeros hd)
    · simp
  · exact fun d hd => htake d (mem_of_mem_dropTrailingZeros hd)

theorem leading_restrict {places : Nat} {ds : List Nat} (hplaces : places ≠ 0) (h : Leading ds) :
    Leading (restrict places ds).1 := by
  have htake : Leading (ds.take places) := by
    obtain ⟨d, r, rfl, hd⟩ := h
    obtain ⟨n, rfl⟩ := Nat.exists_eq_succ_of_ne_zero hplaces
    exact ⟨d, r.take n, rfl, hd⟩
  unfold restrict
  split
  · exact h
  split
  · split
    · next kept heq =>
      have := leading_increment htake (by rw [heq])
      rw [heq] at this
      exact leading_dropTrailingZeros this
    · exact ⟨1, [], rfl, by decide⟩
  · exact leading_dropTrailingZeros htake

end Decimal

namespace Interval

theorem tens_pos (e : Int) : 0 < (Binary.tens e).1 ∧ 0 < (Binary.tens e).2 := by
  unfold Binary.tens
  split
  · exact ⟨Nat.pow_pos (by decide), Nat.one_pos⟩
  · exact ⟨Nat.one_pos, Nat.pow_pos (by decide)⟩

theorem quotient_one_pos (e : Int) : 0 < (Binary.quotient 1 e).1 := by
  unfold Binary.quotient
  split
  · simp [Nat.shiftLeft_eq]
  · exact Nat.one_pos

/-- A scaled interval does not reach down to zero. -/
theorem ne_zero_of_contains {i j : Interval} {scale grid : Int} {c : Nat}
    (hscaled : i.scaled = (j, scale)) (h : j.contains grid c = true) : c ≠ 0 := by
  rintro rfl
  unfold scaled at hscaled
  dsimp only at hscaled
  obtain ⟨rfl, -⟩ := Prod.mk.inj hscaled
  have ht := (tens_pos grid).2
  have hu := quotient_one_pos (i.exponent - ↑(31 - i.high.log2) + (Binary.significant 32
    (Binary.tens (scaleOf (i.exponent - ↑(31 - i.high.log2)))).1
    (Binary.tens (scaleOf (i.exponent - ↑(31 - i.high.log2)))).2).2 + 32)
  simp only [contains, if_true, Nat.zero_mul, Bool.and_eq_true, decide_eq_true_eq,
    Nat.le_zero_eq, Nat.mul_eq_zero] at h
  rcases h.1 with (h | h) | h <;> omega

theorem scaleOf_nonneg {e : Int} (h : e + 29 < 0) : 0 ≤ scaleOf e := by
  unfold scaleOf
  dsimp only
  cases hfind : scales.find? fun k => (Binary.tens k).2 * (Binary.quotient 1 (e + 29)).2 ≤
      (Binary.tens k).1 * (Binary.quotient 1 (e + 29)).1 with
  | none => exact Int.le_refl 0
  | some k =>
    by_contra hk
    have hk : ¬ 0 ≤ k := hk
    have hle := List.find?_some hfind
    have htens : Binary.tens k = (1, Nat.pow 10 (-k).toNat) := if_neg hk
    have hquotient : Binary.quotient 1 (e + 29) = (1, 1 <<< (-(e + 29)).toNat) := if_neg (by omega)
    rw [htens, hquotient] at hle
    simp only [decide_eq_true_eq, Nat.shiftLeft_eq, Nat.one_mul] at hle
    have hten : 1 ≤ Nat.pow 10 (-k).toNat := Nat.pow_pos (by decide)
    have htwo : 2 ≤ 2 ^ (-(e + 29)).toNat := by
      calc 2 = 2 ^ 1 := rfl
        _ ≤ 2 ^ (-(e + 29)).toNat := Nat.pow_le_pow_right (by decide) (by omega)
    have := Nat.mul_le_mul hten htwo
    omega

end Interval

namespace Written

open Scan

/-- A text all of whose characters stand in words as they are. -/
def Numeral (s : String) : Prop := ∀ c ∈ s.toList, isWordChar c = true

/-- Something is left of the text when its leading zeros are stripped. -/
def Substantial (s : String) : Prop := ∃ c ∈ s.toList, c ≠ '0'

theorem Numeral.of_toList {s : String} (cs : List Char) (h : s.toList = cs)
    (hcs : cs.all isWordChar = true) : Numeral s := by
  rw [Numeral, h]
  exact List.all_eq_true.mp hcs

theorem Substantial.of_toList {s : String} (cs : List Char) (h : s.toList = cs)
    (hcs : cs.any (· ≠ '0') = true) : Substantial s := by
  rw [Substantial, h]
  simpa using hcs

theorem numeral_zero : Numeral "0" := .of_toList ['0'] (by simp) (by decide)

theorem numeral_point : Numeral "." := .of_toList ['.'] (by simp) (by decide)

theorem numeral_pointZero : Numeral ".0" := .of_toList ['.', '0'] (by simp) (by decide)

theorem numeral_minus : Numeral "-" := .of_toList ['-'] (by simp) (by decide)

theorem numeral_exponent : Numeral "e" := .of_toList ['e'] (by simp) (by decide)

theorem Numeral.append {s t : String} (hs : Numeral s) (ht : Numeral t) : Numeral (s ++ t) := by
  intro c hc
  rw [String.toList_append] at hc
  exact (List.mem_append.mp hc).elim (hs c) (ht c)

theorem Substantial.append_left {s : String} (h : Substantial s) (t : String) :
    Substantial (s ++ t) := by
  obtain ⟨c, hc, hne⟩ := h
  exact ⟨c, by simp [hc], hne⟩

theorem Substantial.append_right {t : String} (h : Substantial t) (s : String) :
    Substantial (s ++ t) := by
  obtain ⟨c, hc, hne⟩ := h
  exact ⟨c, by simp [hc], hne⟩

theorem digit_facts : ∀ d < 10, isWordChar (digit d) = true ∧ (d ≠ 0 → digit d ≠ '0') := by
  decide

theorem numeral_digitText {ds : List Nat} (h : ∀ d ∈ ds, d < 10) : Numeral (digitText ds) := by
  intro c hc
  rw [digitText, String.toList_ofList] at hc
  obtain ⟨d, hd, rfl⟩ := List.mem_map.mp hc
  exact (digit_facts d (h d hd)).1

theorem substantial_digitText {ds : List Nat} (h : ∀ d ∈ ds, d < 10) (hlead : Decimal.Leading ds) :
    Substantial (digitText ds) := by
  obtain ⟨d, r, rfl, hd⟩ := hlead
  exact ⟨digit d, by simp [digitText], (digit_facts d (h d List.mem_cons_self)).2 hd⟩

theorem numeral_zeros (n : Nat) : Numeral (zeros n) := by
  intro c hc
  rw [zeros, String.toList_ofList] at hc
  rw [List.eq_of_mem_replicate hc]
  decide

theorem numeral_positional {ds : List Nat} (h : ∀ d ∈ ds, d < 10) (point : Int) (fraction : Bool) :
    Numeral (positional ds point fraction) := by
  have htake : Numeral (digitText (ds.take point.toNat)) :=
    numeral_digitText fun d hd => h d (List.mem_of_mem_take hd)
  unfold positional
  split
  · exact (Numeral.append (.of_toList ['0', '.'] (by simp) (by decide)) (numeral_zeros _)).append
      (numeral_digitText h)
  · dsimp only
    have hleft := htake.append (numeral_zeros (point.toNat - ds.length))
    split
    · split
      · exact hleft.append numeral_pointZero
      · exact hleft
    · next right _ =>
      exact (hleft.append numeral_point).append
        (numeral_digitText fun d hd => h d (List.mem_of_mem_drop hd))

theorem substantial_positional {ds : List Nat} (h : ∀ d ∈ ds, d < 10) {point : Int}
    (hlead : 0 < point → Decimal.Leading ds) (fraction : Bool) :
    Substantial (positional ds point fraction) := by
  unfold positional
  split
  · exact (Substantial.append_left (.of_toList ['0', '.'] (by simp) (by decide)) _).append_left _
  · next hpoint =>
    obtain ⟨d, r, rfl, hd⟩ := hlead (by omega)
    obtain ⟨n, hn⟩ : ∃ n, point.toNat = n + 1 := ⟨point.toNat - 1, by omega⟩
    have hleft : Substantial (digitText ((d :: r).take point.toNat)) := by
      refine substantial_digitText (fun e he => h e (List.mem_of_mem_take he)) ?_
      exact ⟨d, r.take n, by rw [hn]; rfl, hd⟩
    dsimp only
    split
    · split
      · exact (hleft.append_left _).append_left _
      · exact hleft.append_left _
    · exact ((hleft.append_left _).append_left _).append_left _

theorem numeral_toString_int (n : Int) : Numeral (toString n) := by
  have hdigit (k : Nat) : ∀ c ∈ Nat.toDigits 10 k, isWordChar c = true := fun c hc => by
    have := Nat.isDigit_of_mem_toDigits (by decide) (by decide) hc
    simp [isWordChar, Escape.isPlain, Char.isAlphanum, this]
  intro c hc
  cases n with
  | ofNat k =>
    have hshape : (toString (Int.ofNat k)).toList =
        Nat.toDigits 10 k := by simp [toString, Int.repr]
    exact hdigit k c (hshape ▸ hc)
  | negSucc k =>
    have hshape : (toString (Int.negSucc k)).toList = '-' :: Nat.toDigits 10 (k + 1) := by
      simp [toString, Int.repr]
    rw [hshape] at hc
    rcases List.mem_cons.mp hc with rfl | hc
    · decide
    · exact hdigit _ c hc

theorem numeral_coefficient {ds : List Nat} (h : ∀ d ∈ ds, d < 10) : Numeral (coefficient ds) := by
  unfold coefficient
  split
  · exact numeral_zero
  · exact numeral_digitText h
  · next d ds _ =>
    have hd : Numeral (digitText [d]) :=
      numeral_digitText fun e he => h e (by simp at he; simp [he])
    have hds : Numeral (digitText ds) :=
      numeral_digitText fun e he => h e (List.mem_cons_of_mem d he)
    exact (hd.append numeral_point).append hds

theorem numeral_sheetMagnitude {d : Decimal} (h : ∀ n ∈ d.digits, n < 10) :
    Numeral (sheetMagnitude d) := by
  have hdigits : ∀ n ∈ (Decimal.restrict 6 d.digits).1, n < 10 := Decimal.restrict_digits h
  unfold sheetMagnitude
  dsimp only
  split
  · exact numeral_positional hdigits _ _
  · refine (Numeral.append ?_ numeral_exponent).append (numeral_toString_int _)
    split
    · exact .of_toList ['1', '0'] (by simp) (by decide)
    · exact numeral_coefficient hdigits

theorem substantial_sheetMagnitude {d : Decimal} (h : ∀ n ∈ d.digits, n < 10)
    (hlead : Decimal.Leading d.digits ∨ d.digits = [] ∧ d.point ≤ 0) :
    Substantial (sheetMagnitude d) := by
  have hdigits : ∀ n ∈ (Decimal.restrict 6 d.digits).1, n < 10 := Decimal.restrict_digits h
  unfold sheetMagnitude
  dsimp only
  split
  · refine substantial_positional hdigits (fun hpoint => ?_) _
    rcases hlead with hlead | ⟨hnone, hle⟩
    · exact Decimal.leading_restrict (by decide) hlead
    · rw [hnone] at hpoint
      simp [Decimal.restrict] at hpoint
      omega
  · exact (Substantial.append_right (.of_toList ['e'] (by simp) (by decide)) _).append_left _

theorem exists_sheetDecimal (m : Nat) (e : Int) :
    ∃ i scale, (Interval.rounding m e).scaled = (i, scale) ∧
      sheetDecimal m e = (Decimal.shortest i).shift (-scale) := by
  unfold sheetDecimal
  rcases (Interval.rounding m e).scaled with ⟨i, scale⟩
  exact ⟨i, scale, rfl, rfl⟩

theorem lt_ten_of_mem_sheetDecimal {m : Nat} {e : Int} {d : Nat}
    (h : d ∈ (sheetDecimal m e).digits) : d < 10 := by
  obtain ⟨i, scale, -, heq⟩ := exists_sheetDecimal m e
  rw [heq] at h
  exact Decimal.lt_ten_of_mem_shortest h

theorem numeral_sheet (v : Single) : Numeral (sheet v) := by
  cases v with
  | finite s m e =>
    have hmagnitude : Numeral (if m = 0 then "0" else sheetMagnitude (sheetDecimal m e)) := by
      split
      · exact numeral_zero
      · exact numeral_sheetMagnitude fun n => lt_ten_of_mem_sheetDecimal
    unfold sheet
    dsimp only
    split
    · exact numeral_minus.append hmagnitude
    · exact hmagnitude
  | infinite s =>
    unfold sheet
    dsimp only
    split
    · exact .of_toList _ rfl (by simp; decide)
    · exact .of_toList _ rfl (by simp; decide)
  | nan => exact .of_toList _ rfl (by simp [sheet]; decide)

theorem numeral_numeric (v : Single) (integral : Bool) : Numeral (numeric v integral) := by
  unfold numeric
  split
  · exact (numeral_sheet v).append numeral_pointZero
  · exact numeral_sheet v

theorem log2_lt_of_below {m : Nat} {e : Int} (hm : m ≠ 0)
    (h : Binary.below (.finite false m e) Single.one = true) : e + m.log2 < 0 := by
  have hone : Single.one = .finite false 8388608 (-23) := by decide
  rw [hone] at h
  simp only [Binary.below, Binary.signedQuotient, Binary.quotient] at h
  by_cases he : 0 ≤ e
  · simp [he, Nat.shiftLeft_eq] at h
    have hpos : (0 : Int) < m * 2 ^ e.toNat := by positivity
    omega
  · simp [he, Nat.shiftLeft_eq] at h
    have hlt : m < 2 ^ (-e).toNat := by
      have : (m : Int) < ((2 ^ (-e).toNat : Nat) : Int) := by
        push_cast
        omega
      exact_mod_cast this
    have := (Nat.log2_lt hm).mpr hlt
    omega

theorem log2_high_le (m : Nat) : (4 * m + 2).log2 ≤ m.log2 + 2 := by
  have hlt : m < 2 ^ (m.log2 + 1) := Nat.lt_log2_self
  have : (4 * m + 2).log2 < m.log2 + 3 := by
    rw [Nat.log2_lt (by omega)]
    calc 4 * m + 2 < 4 * 2 ^ (m.log2 + 1) := by omega
      _ = 2 ^ (m.log2 + 3) := by ring
  omega

/-- The text of a positive number below one is more than zeros. -/
theorem substantial_sheet {m : Nat} {e : Int} (hm : m ≠ 0)
    (h : Binary.below (.finite false m e) Single.one = true) :
    Substantial (sheetMagnitude (sheetDecimal m e)) := by
  refine substantial_sheetMagnitude (fun n => lt_ten_of_mem_sheetDecimal) ?_
  obtain ⟨i, scale, hscaled, hdecimal⟩ := exists_sheetDecimal m e
  rw [hdecimal]
  rcases Decimal.shortest_cases i with hnone | ⟨c, grid, hcontains, heq⟩
  · refine .inr ⟨by rw [hnone]; rfl, ?_⟩
    have hlog := log2_lt_of_below hm h
    have hhigh := log2_high_le m
    have hscale : scale = Interval.scaleOf ((Interval.rounding m e).exponent -
        ↑(31 - (Interval.rounding m e).high.log2)) := (congrArg Prod.snd hscaled).symm
    have hnonneg : 0 ≤ scale := by
      rw [hscale]
      refine Interval.scaleOf_nonneg ?_
      simp only [Interval.rounding]
      omega
    simp only [hnone, Decimal.shift]
    omega
  · have hc := Interval.ne_zero_of_contains hscaled hcontains
    refine .inl ?_
    simp only [Decimal.shift, heq, Decimal.ofGrid]
    exact Decimal.leading_dropTrailingZeros (Decimal.leading_digitsOf hc)

end Written

end StyleGrammar
