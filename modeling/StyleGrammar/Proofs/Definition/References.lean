import StyleGrammar.Proofs.Definition.Arena
import StyleGrammar.Proofs.Definition.Run

/-!
# The references of definitions

Whatever is read into an arena, a reference in it goes to the slot of its name.
-/

namespace StyleGrammar

namespace Arena

/-- All references of an arena go to the slots of their names. -/
def Linked (a : Arena) : Prop :=
  ∀ id name target, (a.node id).kind = .reference name target → a.lookup? name = some target

variable {a : Arena}

theorem linked_empty : empty.Linked := by
  intro id name target hkind
  rw [node_of_size_le (Nat.zero_le id)] at hkind
  cases hkind

theorem Linked.push (ha : a.Linked) {n : Node}
    (hn : ∀ name target, n.kind = .reference name target → a.lookup? name = some target) :
    (a.push n).Linked := by
  intro id name target hkind
  rw [node_push] at hkind
  split at hkind
  · exact hn name target hkind
  · exact ha id name target hkind

theorem Linked.modify (ha : a.Linked) {id : NodeId} {f : Node → Node}
    (hf : ∀ name target, (f (a.node id)).kind = .reference name target →
      a.lookup? name = some target) :
    (a.modify id f).Linked := by
  intro j name target hkind
  rw [node_modify] at hkind
  split at hkind
  next h => exact hf name target (h.1 ▸ hkind)
  next => exact ha j name target hkind

theorem Linked.slot (ha : a.Linked) (name : String) : (a.slot name).2.Linked := by
  have hext := a.extends_slot name
  rcases a.slot_eq name with ⟨id, -, hslot⟩ | ⟨-, hslot⟩
  · rwa [hslot]
  · rw [hslot] at hext ⊢
    intro id name' target hkind
    have hpush : (a.push ⟨.placeholder, .one, "", some name⟩).Linked := ha.push (by simp)
    exact hext.lookup_eq (hpush id name' target hkind)

theorem survives_linked : Definition.Survives Linked fun _ => True where
  push hkind ha := ha.push fun name target h => absurd h (hkind name target)
  slot ha := ha.slot _
  reference {a name raw} ha := by
    apply (ha.slot name).push
    rintro _ _ ⟨⟩
    exact a.lookup_slot name
  quantifier ha _ := ha.modify fun name target hkind => ha _ name target hkind
  good_of_node _ := trivial
  good_one_char _ := trivial
  good_bounds _ := trivial
  good_required _ := trivial
  good_refined _ _ := trivial
  good_zero _ := trivial

theorem Linked.define (ha : a.Linked) (text : String) : (a.define text).2.Linked :=
  Definition.define_keeps survives_linked ha text

theorem Built.linked (ha : a.Built) : a.Linked := by
  induction ha with
  | empty => exact linked_empty
  | slot name _ ih => exact ih.slot name
  | define text _ ih => exact ih.define text
  | @defineNamed a name text _ ih =>
    have hdefine := (ih.slot name).define text
    rcases a.defineNamed_eq name text with heq | ⟨root, -, heq⟩
    · rwa [heq]
    · rw [heq]
      exact hdefine.modify fun name target hkind => hdefine root name target hkind

end Arena

end StyleGrammar
