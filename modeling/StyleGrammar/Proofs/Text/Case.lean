import StyleGrammar.Proofs.Token.Sound
import StyleGrammar.Value.Color.Plain
import StyleGrammar.Value.Name

/-!
# Lower case

Names are compared without regard to the case of ASCII letters, so a name in
lower case is the same name: it is dashed or a color whenever the name is.
-/

namespace StyleGrammar

theorem toLower_of_not_upper {c : Char} (h : ¬ (c.val ≥ 'A'.val ∧ c.val ≤ 'Z'.val)) :
    c.toLower = c :=
  dif_neg h

theorem lower_of_upper {c : Char} (h : c.val ≥ 'A'.val ∧ c.val ≤ 'Z'.val) :
    'a'.val ≤ c.toLower.val ∧ c.toLower.val ≤ 'z'.val := by
  have hval : c.toLower.val = c.val + 32 := congrArg Char.val (dif_pos h)
  have hge : (65 : UInt32) ≤ c.val := h.1
  have hle : c.val ≤ (90 : UInt32) := h.2
  change (97 : UInt32) ≤ c.toLower.val ∧ c.toLower.val ≤ (122 : UInt32)
  rw [hval]
  generalize c.val = x at hge hle ⊢
  grind

theorem not_upper_of_lower {c : Char} (h : 'a'.val ≤ c.val) :
    ¬ (c.val ≥ 'A'.val ∧ c.val ≤ 'Z'.val) := by
  rintro ⟨-, hle⟩
  exact absurd (UInt32.le_trans h hle) (by decide)

theorem toLower_toLower_char (c : Char) : c.toLower.toLower = c.toLower := by
  by_cases h : c.val ≥ 'A'.val ∧ c.val ≤ 'Z'.val
  · exact toLower_of_not_upper (not_upper_of_lower (lower_of_upper h).1)
  · rw [toLower_of_not_upper h, toLower_of_not_upper h]

theorem isAlpha_toLower (c : Char) : c.toLower.isAlpha = c.isAlpha := by
  by_cases h : c.val ≥ 'A'.val ∧ c.val ≤ 'Z'.val
  · have hlower := lower_of_upper h
    have hc : c.isAlpha = true := Scan.isAlpha_iff.mpr (.inl (Scan.isUpper_iff.mpr h))
    rw [hc]
    exact Scan.isAlpha_iff.mpr (.inr (Scan.isLower_iff.mpr hlower))
  · rw [toLower_of_not_upper h]

theorem toList_toLower (s : String) : s.toLower.toList = s.toList.map Char.toLower :=
  String.toList_map

theorem toLower_toLower (s : String) : s.toLower.toLower = s.toLower := by
  rw [← String.toList_inj, toList_toLower, toList_toLower, List.map_map]
  exact List.map_congr_left fun c _ => toLower_toLower_char c

/-- A string in which no character is a capital letter is in lower case. -/
theorem toLower_eq_self {s : String} (h : s.toList.map Char.toLower = s.toList) :
    s.toLower = s := by
  rw [← String.toList_inj, toList_toLower, h]

/-- Names are compared by their characters, which can be evaluated. -/
theorem sameName_eq (s t : String) :
    Reader.sameName s t = (s.toList.map Char.toLower == t.toList.map Char.toLower) := by
  rw [Bool.eq_iff_iff]
  simp only [Reader.sameName, beq_iff_eq, ← String.toList_inj, toList_toLower]

/-! A string that is written out is made of its characters, and not decoded to get at them. -/

theorem toLower_ofList {k l : List Char} (h : k.map Char.toLower = l) :
    (String.ofList k).toLower = String.ofList l := by
  rw [← String.toList_inj, toList_toLower, String.toList_ofList, String.toList_ofList, h]

theorem keyword_ofName?_eq (α : Type) [Keyword α] (s : String) :
    Keyword.ofName? α s = (Keyword.all : List α).find? fun a =>
      (Keyword.name a).toList.map Char.toLower == s.toList.map Char.toLower := by
  simp only [Keyword.ofName?, sameName_eq]

/-- A keyword is found by its name, if no other one has it in another case. -/
theorem ofName?_name {α : Type} [Keyword α] {a : α} (ha : a ∈ (Keyword.all : List α))
    (hnames : ((Keyword.all : List α).map fun a =>
      (Keyword.name a).toList.map Char.toLower).Nodup) :
    Keyword.ofName? α (Keyword.name a) = some a := by
  obtain ⟨l, r, hall⟩ := List.append_of_mem ha
  rw [keyword_ofName?_eq, List.find?_eq_some_iff_append]
  refine ⟨beq_self_eq_true _, l, r, hall, fun b hb => ?_⟩
  rw [hall, List.map_append, List.nodup_append] at hnames
  simpa using hnames.2.2 _ (List.mem_map_of_mem hb) _ (List.mem_map_of_mem List.mem_cons_self)

theorem sameName_toLower (s : String) : Reader.sameName s.toLower = Reader.sameName s := by
  funext t
  rw [Reader.sameName, toLower_toLower, Reader.sameName]

theorem sameName_toLower_right (s t : String) :
    Reader.sameName t s.toLower = Reader.sameName t s := by
  rw [Reader.sameName, toLower_toLower, Reader.sameName]

/-- A character that is the hyphen in lower case is the hyphen. -/
theorem toLower_eq_hyphen {c : Char} : c.toLower = '-' ↔ c = '-' := by
  by_cases h : c.val ≥ 'A'.val ∧ c.val ≤ 'Z'.val
  · refine iff_of_false (fun heq => ?_) ?_
    · have := (lower_of_upper h).1
      rw [heq] at this
      exact absurd this (by decide)
    · rintro rfl
      exact absurd h (by decide)
  · rw [toLower_of_not_upper h]

theorem isDashed_toLower (s : String) : isDashed s.toLower = isDashed s := by
  unfold isDashed
  rw [toList_toLower]
  rw [Bool.eq_iff_iff]
  rcases s.toList with _ | ⟨c, _ | ⟨d, r⟩⟩ <;>
    simp [List.isPrefixOf, toLower_eq_hyphen, eq_comm (a := '-')]

theorem ofName?_toLower (s : String) : PlainColor.ofName? s.toLower = PlainColor.ofName? s := by
  unfold PlainColor.ofName? PlainColor.namedColor? PlainColor.systemColor?
  simp only [sameName_toLower, sameName_toLower_right]

theorem val_toLower_ne_zero {c : Char} (h : c.val ≠ 0) : c.toLower.val ≠ 0 := by
  by_cases hupper : c.val ≥ 'A'.val ∧ c.val ≤ 'Z'.val
  · intro heq
    have := (lower_of_upper hupper).1
    rw [heq] at this
    exact absurd this (by decide)
  · rwa [toLower_of_not_upper hupper]

theorem IsName.toLower {s : String} (h : IsName s) : IsName s.toLower := by
  have hne : s.toLower ≠ "" := by
    rw [← String.toList_inj.ne, toList_toLower]
    simpa using h.nonempty
  refine ⟨hne, ?_⟩
  rw [toList_toLower]
  intro c hc
  obtain ⟨c', hc', rfl⟩ := List.mem_map.mp hc
  exact val_toLower_ne_zero (h.sound c' hc')

end StyleGrammar
