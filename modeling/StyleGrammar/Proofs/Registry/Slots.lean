import StyleGrammar.Proofs.Registry.Build

/-!
# The slots of properties

The slot of a property is its name between apostrophes, from which the name is
found again.  A fault of a pending slot is filed under what is left without any
apostrophes at the ends.  That is the name of the property unless the name itself
begins or ends with one (`filedName_propertySlot_iff`).
-/

namespace StyleGrammar

open List

/-! ## Trimmed texts -/

section Trimmed

variable {p : Char → Bool} {s : List Char}

theorem eq_false_of_mem_head?_dropWhile {c : Char} (h : c ∈ (s.dropWhile p).head?) :
    p c = false := by
  have hnot := head?_dropWhile_not p s
  rw [Option.mem_def.mp h] at hnot
  exact hnot

theorem dropWhile_eq_self (h : ∀ c ∈ s.head?, p c = false) : s.dropWhile p = s := by
  cases s with
  | nil => rfl
  | cons c s => exact dropWhile_cons_of_neg (by simp [h c rfl])

theorem eq_false_of_mem_head?_trimmed {c : Char} (h : c ∈ (trimmed p s).head?) : p c = false := by
  apply eq_false_of_mem_head?_dropWhile (s := s)
  obtain ⟨behind, hbehind⟩ := dropWhile_suffix (l := (s.dropWhile p).reverse) p
  have hfront : s.dropWhile p = trimmed p s ++ behind.reverse := by
    rw [trimmed, ← reverse_append, hbehind, reverse_reverse]
  rw [hfront, head?_append, Option.mem_def.mp h]
  rfl

theorem eq_false_of_mem_getLast?_trimmed {c : Char} (h : c ∈ (trimmed p s).getLast?) :
    p c = false := by
  rw [trimmed, getLast?_reverse] at h
  exact eq_false_of_mem_head?_dropWhile h

/-- Trimming a text takes away what was put around it, if its own ends stay. -/
theorem trimmed_between (hhead : ∀ c ∈ s.head?, p c = false)
    (hlast : ∀ c ∈ s.getLast?, p c = false) {c d : Char} (hc : p c = true) (hd : p d = true) :
    trimmed p (c :: s ++ [d]) = s := by
  have hfront : (s ++ [d]).dropWhile p = if s = [] then [] else s ++ [d] := by
    split
    next hnil => simp [hnil, hd]
    next hne =>
      obtain ⟨x, s, rfl⟩ := exists_cons_of_ne_nil hne
      exact dropWhile_eq_self (by simpa using hhead)
  rw [trimmed, cons_append, dropWhile_cons_of_pos hc, hfront]
  split
  next hnil => rw [hnil]; rfl
  next =>
    rw [reverse_append, reverse_singleton, singleton_append, dropWhile_cons_of_pos hd,
      dropWhile_eq_self (by rwa [head?_reverse]), reverse_reverse]

end Trimmed

/-! ## Names in lists of pairs -/

section Lookup

variable {α β : Type} [DecidableEq α] {rows : List (α × β)} {a : α} {b : β}

theorem mem_of_lookup_eq_some (h : rows.lookup a = some b) : (a, b) ∈ rows := by
  obtain ⟨front, behind, hrows, -⟩ := lookup_eq_some_iff.mp h
  rw [hrows]
  exact mem_append_right _ mem_cons_self

theorem lookup_eq_some_of_mem (hnames : (rows.map Prod.fst).Nodup) (h : (a, b) ∈ rows) :
    rows.lookup a = some b := by
  induction rows with
  | nil => cases h
  | cons row rows ih =>
    obtain ⟨key, c⟩ := row
    obtain ⟨hnew, hnames⟩ := nodup_cons.mp hnames
    rcases mem_cons.mp h with heq | hmem
    · cases heq
      exact lookup_cons_self
    · have hne : a ≠ key := by
        rintro rfl
        exact hnew (mem_map.mpr ⟨_, hmem, rfl⟩)
      rw [lookup_cons, beq_false_of_ne hne]
      exact ih hnames hmem

end Lookup

namespace Registry

/-! ## Names and slots -/

theorem toList_propertySlot (name : String) :
    (propertySlot name).toList = '\'' :: name.toList ++ ['\''] := by
  simp [propertySlot]

theorem propertySlot_inj {name name' : String} :
    propertySlot name = propertySlot name' ↔ name = name' := by
  refine ⟨fun h => ?_, congrArg _⟩
  have hlist := congrArg String.toList h
  rw [toList_propertySlot, toList_propertySlot] at hlist
  exact String.toList_inj.mp (append_cancel_right (cons.inj hlist).2)

theorem unquoted?_eq_some_iff {slot name : String} :
    unquoted? slot = some name ↔ slot = propertySlot name := by
  rw [← String.toList_inj, toList_propertySlot, unquoted?]
  constructor
  · intro h
    split at h
    next rest hslot =>
      obtain ⟨hlast, hname⟩ := Option.ite_none_right_eq_some.mp h
      rw [hslot, ← Option.some.inj hname, String.toList_ofList, cons_append,
        dropLast_append_getLast? _ hlast]
    next => cases h
  · intro h
    rw [h]
    simp

/-- A name that neither begins nor ends with an apostrophe. -/
def Bare (name : String) : Prop :=
  name.toList.head? ≠ some '\'' ∧ name.toList.getLast? ≠ some '\''

instance (name : String) : Decidable (Bare name) := inferInstanceAs (Decidable (_ ∧ _))

theorem bare_of_not_mem {name : String} (h : '\'' ∉ name.toList) : Bare name :=
  ⟨fun hhead => h (mem_of_head? hhead), fun hlast => h (mem_of_getLast? hlast)⟩

theorem bare_filedName (slot : String) : Bare (filedName slot) := by
  unfold Bare filedName
  rw [String.toList_ofList]
  constructor
  · intro h
    exact absurd (eq_false_of_mem_head?_trimmed h) (by simp)
  · intro h
    exact absurd (eq_false_of_mem_getLast?_trimmed h) (by simp)

theorem filedName_propertySlot_iff {name : String} :
    filedName (propertySlot name) = name ↔ Bare name := by
  refine ⟨fun h => h ▸ bare_filedName _, fun ⟨hhead, hlast⟩ => ?_⟩
  unfold filedName
  have hother {c : Char} (hc : c ≠ '\'') : decide (c = '\'') = false := decide_eq_false hc
  rw [toList_propertySlot, trimmed_between (fun c hc => hother ?_) (fun c hc => hother ?_) rfl rfl]
  · exact String.ofList_toList
  · rintro rfl
    exact hhead hc
  · rintro rfl
    exact hlast hc

end Registry

end StyleGrammar
