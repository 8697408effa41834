import StyleGrammar.Proofs.Reparse.Values
import StyleGrammar.Proofs.Value.Heads

/-!
# Keywords are read back from where they stand

A keyword is spelled by its own name, which is one identifier.  What stands next
to a keyword decides where a value ends, so it is said here which readers a
keyword stops.
-/

namespace StyleGrammar

open Reader Output Component Scan

/-- Names that are written as they are and are identifiers. -/
structure IsWord (s : String) : Prop where
  written : identifierText s = s
  name : IsName s

def isWord (s : String) : Bool :=
  decide (identifierText s = s) && decide (s ≠ "") && s.toList.all fun c => decide (c.val ≠ 0)

theorem isWord_iff (s : String) : isWord s = true ↔ IsWord s := by
  simp only [isWord, Bool.and_eq_true, decide_eq_true_eq, List.all_eq_true]
  constructor
  · rintro ⟨⟨hwritten, hne⟩, hsound⟩
    exact ⟨hwritten, hne, hsound⟩
  · rintro ⟨hwritten, hne, hsound⟩
    exact ⟨⟨hwritten, hne⟩, hsound⟩

theorem IsWord.neatAs {s : String} (h : IsWord s) : NeatAs (text s) [.token (.ident s) .start] := by
  have hidentifier : NeatAs (identifier s) [.token (.ident s) .start] :=
    ⟨makes_identifier h.name, (solid_identifier h.name.nonempty).2⟩
  exact hidentifier.of_chars (by rw [chars_text, chars_identifier, h.written])

/-- Keywords that are identifiers and stand for themselves. -/
class SpelledKeyword (α : Type) [Keyword α] : Prop where
  word : ∀ a : α, isWord (Keyword.name a) = true
  member : ∀ a : α, Keyword.ofName? α (Keyword.name a) = some a

section Keywords

variable {α : Type} [Keyword α] [SpelledKeyword α] {n : Nat} {ks ls : List Component}

/-- The component of a keyword. -/
def wordOf (a : α) : Component := .token (.ident (Keyword.name a)) .start

theorem neatAs_keyword (compact : Bool) (a : α) : NeatAs (print compact a) [wordOf a] :=
  ((isWord_iff _).mp (SpelledKeyword.word a)).neatAs

theorem takes_keyword (a : α) : Takes (Ahead n (wordOf a :: ls)) (Stand n ls) a read :=
  takes_token (SpelledKeyword.member a)

end Keywords

theorem takes_named {n : Nat} {ls : List Component} (name : String) :
    Takes (Ahead n (.token (.ident name) .start :: ls)) (Stand n ls) () (keyword name) :=
  takes_token (by simp [sameName])

/-! Keywords that are no names of colors. -/

namespace PlainColor

/-- The names of the system colors, in lower case. -/
def systemNames : List String := [
  "accentcolor", "accentcolortext", "activetext", "buttonborder", "buttonface", "buttontext",
  "canvas", "canvastext", "field", "fieldtext", "graytext", "highlight", "highlighttext",
  "linktext", "mark", "marktext", "selecteditem", "selecteditemtext", "visitedtext",
  "activeborder", "activecaption", "appworkspace", "background", "buttonhighlight",
  "buttonshadow", "captiontext", "inactiveborder", "inactivecaption", "inactivecaptiontext",
  "infobackground", "infotext", "menu", "menutext", "scrollbar", "threeddarkshadow",
  "threedface", "threedhighlight", "threedlightshadow", "threedshadow", "window", "windowframe",
  "windowtext"]

/-- The names of colors, in lower case. -/
def names : List String := "currentcolor" :: ("transparent" :: namedColors) ++ systemNames

theorem map_toLower_systemColors :
    (systemColors ++ deprecatedSystemColors).map String.toLower = systemNames := by
  simp only [systemColors, deprecatedSystemColors, systemNames, List.cons_append, List.nil_append,
    List.map_cons, List.map_nil]
  repeat' first
    | exact rfl
    | refine congrArg₂ List.cons (toLower_ofList ?_) ?_

theorem toLower_namedColors : ∀ n ∈ "transparent" :: namedColors, n.toLower = n := by
  simp only [namedColors]
  repeat' first
    | exact List.forall_mem_nil _
    | refine List.forall_mem_cons.mpr ⟨toLower_ofList ?_, ?_⟩
  all_goals rfl

theorem isKeyword_eq_false {s : String} (hs : s.toLower = s) (h : s ∉ names) :
    isKeyword s = false := by
  simp only [names, List.cons_append, List.mem_cons, List.mem_append, not_or] at h
  obtain ⟨hcurrent, htransparent, hnamed, hsystem⟩ := h
  have hnamed' : namedColor? s = none := by
    refine List.find?_eq_none.mpr fun n hn hsame => ?_
    have heq : n = s := by simpa [sameName, hs, toLower_namedColors n hn] using hsame
    subst heq
    simp [htransparent, hnamed] at hn
  have hsystem' : systemColor? s = none := by
    refine List.find?_eq_none.mpr fun n hn hsame => hsystem ?_
    have heq : n.toLower = s := by simpa [sameName, hs] using hsame
    rw [← map_toLower_systemColors, ← heq]
    exact List.mem_map_of_mem hn
  have hcurrent' : sameName s "currentcolor" = false := by
    have hlower : "currentcolor".toLower = "currentcolor" := toLower_eq_self (by decide)
    simpa [sameName, hs, hlower] using hcurrent
  simp [isKeyword, ofName?, hcurrent', hnamed', hsystem']

end PlainColor

/-- The identifiers that no color is read from. -/
def isColorless (t : Token) : Prop := ∃ n, t = .ident n ∧ PlainColor.isKeyword n = false

theorem isKeyword_of_sameName {m n : String} (h : sameName m n = true) :
    PlainColor.isKeyword m = PlainColor.isKeyword n := by
  have hlower : m.toLower = n.toLower := by simpa [sameName] using h
  rw [PlainColor.isKeyword, ← ofName?_toLower, hlower, ofName?_toLower]
  rfl

theorem wants_keyword {α : Type} [Keyword α]
    (hlower : ∀ a : α, (Keyword.name a).toLower = Keyword.name a)
    (hα : ∀ a : α, Keyword.name a ∉ PlainColor.names) : Wants isColorless (read : Reader α) := by
  refine Wants.expect fun t ht => ?_
  cases t with
  | ident n =>
    obtain ⟨a, ha⟩ := Option.ne_none_iff_exists'.mp ht
    have hname : sameName (Keyword.name a) n = true := by
      simpa using List.find?_some (show Keyword.all.find? _ = some a from ha)
    exact ⟨n, rfl, (isKeyword_of_sameName hname).symm.trans
      (PlainColor.isKeyword_eq_false (hlower a) (hα a))⟩
  | _ => exact absurd rfl ht

theorem wants_named {name : String} (hlower : name.toLower = name)
    (hname : name ∉ PlainColor.names) :
    Wants isColorless (keyword name) := by
  refine Wants.expect fun t ht => ?_
  cases t with
  | ident n =>
    refine ⟨n, rfl, ?_⟩
    by_cases hn : sameName n name = true
    · rw [isKeyword_of_sameName hn, PlainColor.isKeyword_eq_false hlower hname]
    · simp [hn] at ht
  | _ => simp at ht

theorem fails_of_color {V α : Type} [Term V] {P Q : Cursor → Prop} {c : Color V}
    (h : Takes P Q c read) {p : Reader α} (hp : Wants isColorless p) : Fails P p := by
  refine Color.wants_read.fails hp (fun t ht hcolorless => ?_) h
  obtain ⟨n, rfl, hn⟩ := hcolorless
  rw [beginsColor, hn] at ht
  cases ht

instance : SpelledKeyword HorizontalSide :=
  ⟨fun a => by cases a <;> decide,
    fun a => (keyword_ofName?_eq _ _).trans (by cases a <;> decide)⟩

instance : SpelledKeyword VerticalSide :=
  ⟨fun a => by cases a <;> decide,
    fun a => (keyword_ofName?_eq _ _).trans (by cases a <;> decide)⟩

instance : SpelledKeyword ShapeExtent :=
  ⟨fun a => by cases a <;> decide,
    fun a => (keyword_ofName?_eq _ _).trans (by cases a <;> decide)⟩

instance : SpelledKeyword ShapeKeyword :=
  ⟨fun a => by cases a <;> decide,
    fun a => (keyword_ofName?_eq _ _).trans (by cases a <;> decide)⟩

end StyleGrammar
