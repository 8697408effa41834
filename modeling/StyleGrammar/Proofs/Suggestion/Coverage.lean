import StyleGrammar.Grammar.Suggestion
import StyleGrammar.Proofs.Matching.Language
import StyleGrammar.Proofs.Text.Case
import StyleGrammar.Proofs.Value.Delimiters
import StyleGrammar.Proofs.Value.FunctionNames

/-!
# What suggestions stand for

A suggestion covers the values that it may be filled with.  Suggestions show names
in lower case, and literals of one sign as delimiters; neither changes what they
cover, as long as no delimiter is a letter.

The separator of a list is shown as a delimiter too, but only a delimiter takes
its place, while a literal is also matched by an identifier of the same text.  So
what happens to an identifier that is written as an escaped comma cannot be told
from the suggestion (`Suggestion.Fits`).
-/

namespace StyleGrammar

/-! ## Delimiters in lower case -/

theorem IsDelimiter.not_lower {c : Char} (hc : IsDelimiter c) :
    ¬ ('a'.val ≤ c.val ∧ c.val ≤ 'z'.val) := by
  rcases hc with rfl | rfl | rfl | rfl <;> decide

theorem IsDelimiter.toLower_char_eq_iff {c d : Char} (hc : IsDelimiter c) :
    d.toLower = c ↔ d = c := by
  by_cases hupper : d.val ≥ 'A'.val ∧ d.val ≤ 'Z'.val
  · have hlower := lower_of_upper hupper
    constructor
    · rintro rfl
      exact absurd hlower hc.not_lower
    · rintro rfl
      rcases hc with rfl | rfl | rfl | rfl <;> exact absurd hupper (by decide)
  · rw [toLower_of_not_upper hupper]

/-- Only the text of a delimiter has that text in lower case. -/
theorem IsDelimiter.toLower_eq_iff {c : Char} (hc : IsDelimiter c) {s : String} :
    s.toLower = String.singleton c ↔ s = String.singleton c := by
  rw [← String.toList_inj, ← String.toList_inj, toList_toLower]
  simp only [String.toList_singleton]
  rcases s.toList with _ | ⟨d, _ | ⟨e, l⟩⟩ <;> simp [hc.toLower_char_eq_iff]

/-! ## Coverage -/

/-- Whether a value is one that a suggestion stands for. -/
def Suggestion.covers {V : Type} (forbidden : List String) (v : Form V) : Suggestion → Bool
  | keyword text => Matcher.isLiteral v text
  | dataType name _ => DataType.accepts name forbidden v
  | function name _ => Matcher.isFunction v name
  | delimiter c => Matcher.isLiteral v (String.singleton c)

/-- Whether a suggestion stands for a value, and not only because the value is an identifier with
the text of the separator. -/
def Suggestion.Fits {V : Type} (forbidden : List String) (v : Form V) (s : Suggestion) : Prop :=
  s.covers forbidden v = true ∧ ¬ (s = .delimiter ',' ∧ v.ident? = some ",")

variable {V : Type} {forbidden : List String} {v : Form V}

/-- Literals cover the same values in lower case. -/
theorem isLiteral_toLower (hv : ∀ c, v = .leaf (.delimiter c) → IsDelimiter c) (text : String) :
    Matcher.isLiteral v text.toLower = Matcher.isLiteral v text := by
  unfold Matcher.isLiteral
  split
  next c => simp only [(hv c rfl).toLower_eq_iff]
  next => rw [sameName_toLower]

theorem covers_ofLiteral (hv : ∀ c, v = .leaf (.delimiter c) → IsDelimiter c) (text : String) :
    (Suggestion.ofLiteral text).covers forbidden v = Matcher.isLiteral v text := by
  unfold Suggestion.ofLiteral
  split
  next c hc =>
    have htext : text = String.singleton c := by
      rw [← String.toList_inj, hc, String.toList_singleton]
    split
    · exact isLiteral_toLower hv text
    · rw [htext]
      rfl
  next => exact isLiteral_toLower hv text

theorem eq_comma_of_isLiteral (hliteral : Matcher.isLiteral v "," = true)
    (hident : v.ident? ≠ some ",") : v = .leaf (.delimiter ',') := by
  have htext : "," = String.singleton ',' := rfl
  have hcomma : IsDelimiter ',' := .inl rfl
  by_cases hdelim : ∃ c, v = .leaf (.delimiter c)
  · obtain ⟨c, rfl⟩ := hdelim
    simp only [Matcher.isLiteral, decide_eq_true_eq, htext] at hliteral
    rw [String.singleton_inj.mp hliteral]
  · rw [not_exists] at hdelim
    rw [Matcher.isLiteral_of_ne_delimiter hdelim, Option.any_eq_true] at hliteral
    obtain ⟨i, hi, hname⟩ := hliteral
    simp only [Reader.sameName, beq_iff_eq] at hname
    have hlower := (hcomma.toLower_eq_iff.mpr htext).symm.trans hname
    rw [eq_comm, hcomma.toLower_eq_iff, ← htext] at hlower
    exact absurd (hlower ▸ hi) hident

theorem isFunction_toLower (name : String) :
    Matcher.isFunction v name.toLower = Matcher.isFunction v name := by
  unfold Matcher.isFunction
  congr 1
  unfold Form.matchesFunction
  split
  · rw [ofFunction?_toLower]
  · rw [sameName_toLower]

end StyleGrammar
