import StyleGrammar.Proofs.Definition.Arena
import StyleGrammar.Proofs.Definition.Run

/-!
# The quantifiers of definitions

No text, read or not, puts a quantifier into an arena whose minimum is above
its maximum, or whose separator is anything but a comma.
-/

namespace StyleGrammar

/-- The quantifiers that multipliers can stand for. -/
structure Quantifier.Proper (q : Quantifier) : Prop where
  min_le : ∀ max, q.max? = some max → q.min ≤ max
  separator : q.separator? = none ∨ q.separator? = some ','

namespace Quantifier

theorem proper_one : one.Proper :=
  ⟨by simp [one], .inl rfl⟩

theorem proper_between {min : Nat} {max? : Option Nat} (hle : ∀ max, max? = some max → min ≤ max) :
    (between min max?).Proper :=
  ⟨hle, .inl rfl⟩

end Quantifier

namespace Definition

theorem proper_of_quantifier? {c : Char} {q : Quantifier} (h : quantifier? c = some q) :
    q.Proper := by
  unfold quantifier? at h
  split at h <;> cases h
  · exact Quantifier.proper_between (by simp)
  · exact Quantifier.proper_between (by simp)
  · exact Quantifier.proper_between (by simp)
  · exact ⟨by simp, .inr rfl⟩

theorem proper_of_bounds? {body : List Char} {q : Quantifier} (h : bounds? body = some q) :
    q.Proper := by
  unfold bounds? at h
  split at h
  · obtain ⟨n, -, rfl⟩ := Option.map_eq_some_iff.mp h
    exact Quantifier.proper_between (by simp)
  · simp only [Option.bind_eq_bind, Option.bind_eq_some_iff] at h
    obtain ⟨min, -, h⟩ := h
    split at h
    · cases h
      exact Quantifier.proper_between (by simp)
    · obtain ⟨max, -, h⟩ := Option.bind_eq_some_iff.mp h
      split at h
      next hle =>
        cases h
        exact Quantifier.proper_between (by simpa using hle)
      next => cases h

end Definition

namespace Arena

/-- All quantifiers of an arena are proper. -/
def AllProper (a : Arena) : Prop := ∀ id, (a.node id).quantifier.Proper

theorem AllProper.push {a : Arena} (ha : a.AllProper) {n : Node} (hn : n.quantifier.Proper) :
    (a.push n).AllProper := by
  intro id
  rw [node_push]
  split
  · exact hn
  · exact ha id

theorem AllProper.modify {a : Arena} (ha : a.AllProper) {id : NodeId} {f : Node → Node}
    (hf : (f (a.node id)).quantifier.Proper) : (a.modify id f).AllProper := by
  intro j
  rw [node_modify]
  split
  next h => exact h.1 ▸ hf
  next => exact ha j

theorem AllProper.slot {a : Arena} (ha : a.AllProper) (name : String) :
    (a.slot name).2.AllProper := by
  rcases a.slot_eq name with ⟨id, -, hslot⟩ | ⟨-, hslot⟩
  · rwa [hslot]
  · rw [hslot]
    exact ha.push (n := ⟨.placeholder, .one, "", some name⟩) Quantifier.proper_one

theorem survives_allProper : Definition.Survives AllProper Quantifier.Proper where
  push _ ha := ha.push Quantifier.proper_one
  slot ha := ha.slot _
  reference ha := (ha.slot _).push Quantifier.proper_one
  quantifier ha hq := ha.modify hq
  good_of_node ha := ha _
  good_one_char := Definition.proper_of_quantifier?
  good_bounds := Definition.proper_of_bounds?
  good_required hq := ⟨hq.min_le, hq.separator⟩
  good_refined hq hb := ⟨hb.min_le, hq.separator⟩
  good_zero hq := ⟨fun _ _ => Nat.zero_le _, hq.separator⟩

theorem Built.allProper {a : Arena} (ha : a.Built) : a.AllProper := by
  induction ha with
  | empty =>
    intro id
    rw [node_of_size_le (Nat.zero_le id)]
    exact Quantifier.proper_one
  | slot name _ ih => exact ih.slot name
  | define text _ ih => exact Definition.define_keeps survives_allProper ih text
  | @defineNamed a name text _ ih =>
    have hdefine := Definition.define_keeps survives_allProper (ih.slot name) text
    rcases a.defineNamed_eq name text with heq | ⟨root, -, heq⟩
    · rwa [heq]
    · rw [heq]
      exact hdefine.modify (hdefine root)

end Arena

end StyleGrammar
