import StyleGrammar.Proofs.Reader.Success
import StyleGrammar.Value.Form

/-!
# The delimiters among values

Of all characters, only the comma, the slash and the square brackets are read as
values of their own.  The argument goes through the readers of values once, with
a property of what a reader yields (`Reader.Yields`).
-/

namespace StyleGrammar

/-- The characters that stand alone as values: those that separate values, and brackets. -/
def IsDelimiter (c : Char) : Prop := c = ',' ∨ c = '/' ∨ c = '[' ∨ c = ']'

open Reader

/-- A leaf that is not a delimiter, or one of the four. -/
def Leaf.Plain (l : Leaf) : Prop := ∀ c, l = .delimiter c → IsDelimiter c

theorem Leaf.ofDimension?_ne_delimiter (t : Token) (c : Char) :
    Leaf.ofDimension? t ≠ some (.delimiter c) := by
  simp [Leaf.ofDimension?, Option.map_eq_map]

theorem Leaf.plain_of_ofToken {t : Token} {l : Leaf} (h : Leaf.ofToken t = .ok l) : l.Plain := by
  rintro c rfl
  unfold Leaf.ofToken at h
  split at h
  case h_4 =>
    split at h
    next hdimension =>
      cases h
      exact absurd hdimension (ofDimension?_ne_delimiter _ c)
    next => cases h
  case h_7 | h_8 => split at h <;> cases h
  case h_9 =>
    split at h
    next => cases h
    next => split at h <;> cases h
  case h_10 =>
    cases h
    exact .inl rfl
  case h_11 =>
    cases h
    exact .inr (.inl rfl)
  all_goals cases h

namespace Form

variable {V : Type}

def Plain (v : Form V) : Prop := ∀ l, v = .leaf l → l.Plain

theorem eq_of_leaf?_eq_some {v : Form V} {l : Leaf} (h : v.leaf? = some l) : v = .leaf l := by
  cases v <;> cases h
  rfl

theorem plain_of_leaf?_eq_none {v : Form V} (h : v.leaf? = none) : v.Plain := by
  rintro l rfl
  cases h

theorem yields_readFunction [Term V] (k : Kind) : Yields (readFunction (V := V) k) Plain := by
  cases k
  case url => exact yields_map (yields_true _) fun u _ => by rintro _ ⟨⟩ c ⟨⟩
  case color =>
    refine yields_map (yields_true _) fun x _ => ?_
    cases x with
    | plain c => rintro _ ⟨⟩ c ⟨⟩
    | function f => exact plain_of_leaf?_eq_none rfl
  all_goals first
    | exact yields_fail _
    | exact yields_map (yields_true _) fun x _ => plain_of_leaf?_eq_none rfl

theorem yields_readForm [Term V] : Yields (readForm (V := V)) Plain := by
  intro c v c' h
  unfold readForm at h
  cases hnext : c.next with
  | error e => simp [hnext, bind, Except.bind] at h
  | ok result =>
    obtain ⟨t, c₁⟩ := result
    simp only [hnext, bind, Except.bind] at h
    split at h
    next n =>
      split at h
      next k hk => exact yields_nested (yields_readFunction k) _ _ _ h
      next => cases h
    next =>
      split at h
      next l hl =>
        cases h
        rintro _ ⟨⟩
        exact Leaf.plain_of_ofToken hl
      next => cases h

end Form

theorem Sequence.yields_readItem {V : Type} [Term V] {inner : Reader (List (Form V))}
    (hinner : Yields inner fun vs => ∀ v ∈ vs, v.Plain) :
    Yields (Sequence.readItem inner) fun vs => ∀ v ∈ vs, v.Plain := by
  have hdelimiter {c : Char} (hc : IsDelimiter c) :
      (Sequence.delimiter c : Form V).Plain := by
    rintro _ ⟨⟩ c' ⟨⟩
    exact hc
  rw [Sequence.readItem]
  refine yields_bind (yields_true _) fun bracket _ => ?_
  cases bracket with
  | true =>
    refine yields_bind (yields_nested (yields_block hinner)) fun vs hvs => yields_pure ?_
    intro v hv
    simp only [List.cons_append, List.mem_cons, List.mem_append, List.not_mem_nil, or_false] at hv
    rcases hv with rfl | hv | rfl
    · exact hdelimiter (.inr (.inr (.inl rfl)))
    · exact hvs v hv
    · exact hdelimiter (.inr (.inr (.inr rfl)))
  | false =>
    refine yields_bind Form.yields_readForm fun v hv => yields_pure ?_
    simpa using hv

theorem Sequence.yields_readWithin {V : Type} [Term V] (depth : Nat) :
    Yields (Sequence.readWithin (V := Form V) depth) fun vs => ∀ v ∈ vs, v.Plain := by
  induction depth with
  | zero => exact yields_fail _
  | succ n ih =>
    rw [Sequence.readWithin]
    refine yields_map (yields_untilEnd (yields_readItem ih)) fun items hitems v hv => ?_
    obtain ⟨vs, hvs, hv⟩ := List.mem_flatten.mp hv
    exact hitems vs hvs v hv

/-- The delimiters among the values of a text. -/
theorem Value.isDelimiter_of_listOfText {s : String} {vs : List Value}
    (h : Value.listOfText s = .ok vs) {v : Value} (hv : v ∈ vs) {c : Char}
    (hc : v = .leaf (.delimiter c)) : IsDelimiter c :=
  good_of_run (Sequence.yields_readWithin _) h v hv _ hc c rfl

end StyleGrammar
