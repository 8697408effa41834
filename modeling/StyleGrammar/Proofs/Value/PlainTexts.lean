import StyleGrammar.Proofs.Value.Lawful

/-!
# Texts of leaves

A text of tokens that are leaves is read as these leaves.  A word is a keyword
unless a color has its name, and the names of colors consist of letters.
-/

namespace StyleGrammar

open Reader Component Output

/-! ## Words that are not colors -/

theorem isLettered_toLower (s : String) : isLettered s.toLower = isLettered s := by
  have hall : Char.isAlpha ∘ Char.toLower = Char.isAlpha := funext isAlpha_toLower
  rw [isLettered, isLettered, toList_toLower, List.isEmpty_map, List.all_map, hall]

theorem isLettered_of_sameName {s n : String} (h : sameName n s = true) :
    isLettered s = isLettered n := by
  rw [← isLettered_toLower s, ← isLettered_toLower n, eq_of_beq h]

namespace PlainColor

variable {s : String}

theorem ofName?_eq_none (hcurrent : sameName s "currentcolor" = false)
    (h : ∀ n ∈ ("transparent" :: namedColors) ++ (systemColors ++ deprecatedSystemColors),
      sameName n s = false) : ofName? s = none := by
  have hnamed : namedColor? s = none :=
    List.find?_eq_none.mpr fun n hn => by simp [h n (List.mem_append_left _ hn)]
  have hsystem : systemColor? s = none :=
    List.find?_eq_none.mpr fun n hn => by simp [h n (List.mem_append_right _ hn)]
  simp [ofName?, hcurrent, hnamed, hsystem]

/-- All names of colors consist of letters. -/
theorem ofName?_of_not_lettered (h : isLettered s = false) : ofName? s = none := by
  have hother {n : String} (hn : isLettered n = true) : sameName n s = false := by
    cases hsame : sameName n s with
    | false => rfl
    | true => rw [isLettered_of_sameName hsame, hn] at h; cases h
  refine ofName?_eq_none ?_ fun n hn => hother (isLettered_of_mem_colors n hn)
  have hcurrent : sameName "currentcolor" s = false := hother (by decide)
  rwa [sameName, BEq.comm] at hcurrent

end PlainColor

theorem Leaf.ofToken_word {s : String} (hdashed : isDashed s = false)
    (h : PlainColor.ofName? s = none) : Leaf.ofToken (.ident s) = .ok (.keyword ⟨s⟩) := by
  simp [ofToken, hdashed, h]

theorem Leaf.ofToken_dimension {signed : Bool} {v : Single} {i : Option Int}
    {unit : String} {l : Leaf}
    (h : ofDimension? (.dimension signed v i unit) = some l) :
    ofToken (.dimension signed v i unit) = .ok l := by
  simp only [ofToken, h]

/-! ## Reading them -/

section Reading

variable {V : Type} [Term V] {inner : Reader (List (Form V))} {t : Token} {l : Leaf} {n : Nat}
  {ks : List Component}

theorem Form.takes_leaf (h : Leaf.ofToken t = .ok l) :
    Takes (Ahead n (.token t .start :: ks)) (Stand n ks) (.leaf l) (read : Reader (Form V)) := by
  intro c hc
  obtain ⟨c', hnext, hc', -⟩ := next_token hc
  refine ⟨c', ?_, hc'⟩
  change readForm c = _
  rw [readForm_token hnext (by rintro f rfl; cases h), h]

theorem Sequence.takes_leafItem (h : Leaf.ofToken t = .ok l) :
    Takes (Ahead n (.token t .start :: ks)) (Stand n ks) [Form.leaf l] (readItem inner) := by
  have hsquare : t ≠ .openSquare := by
    rintro rfl
    cases h
  exact (fails_token (if_neg hsquare)).succeeds.bind ((Form.takes_leaf h).bind (.pure _))

theorem Sequence.each_leaf {ts : List Token} {ls : List Leaf}
    (h : List.Forall₂ (fun t l => Leaf.ofToken t = .ok l) ts ls) :
    Each (readItem inner) n (ls.map fun l => [Form.leaf l]) (ts.map fun t => .token t .start) := by
  induction h with
  | nil => exact .nil rfl
  | @cons t _ ts _ h _ ih =>
    have hne : skip ((t :: ts).map fun t => .token t .start) ≠ [] := by
      simp [skip_cons (k := .token t .start) rfl]
    exact .cons hne (takes_leafItem h) (by simp) ih

end Reading

/-- The tokens of components that are tokens only. -/
def Component.tokens? : List Component → Option (List Token)
  | [] => some []
  | .token t _ :: ks => (t :: ·) <$> tokens? ks
  | _ => none

theorem Component.bareAll_of_tokens? {ks : List Component} {ts : List Token}
    (h : tokens? ks = some ts) : bareAll ks = ts.map fun t => .token t .start := by
  fun_induction tokens? ks generalizing ts with
  | case1 =>
    cases h
    rfl
  | case2 t _ ks ih =>
    obtain ⟨ts', hts, rfl⟩ := Option.map_eq_some_iff.mp h
    rw [List.map_cons, ← ih hts]
    rfl
  | case3 => cases h

/-- A text of tokens that are leaves is read as these leaves. -/
theorem Value.listOfText_leaves {s : String} {ts : List Token} {ls : List Leaf}
    (htext : tokens? (ofText s.toList) = some ts)
    (h : List.Forall₂ (fun t l => Leaf.ofToken t = .ok l) ts ls) :
    listOfText s = .ok (ls.map .leaf) := by
  have hread : Takes (Stand 0 (ts.map fun t => .token t .start)) (Ahead 0 [])
      (ls.map fun l => [Form.leaf l]).flatten (Sequence.read : Reader (List Value)) :=
    (Takes.untilEnd (Sequence.each_leaf h)).map List.flatten
  rw [← List.flatMap_def, ← List.map_eq_flatMap] at hread
  exact run_of_takes (bareAll_of_tokens? htext) hread

end StyleGrammar
