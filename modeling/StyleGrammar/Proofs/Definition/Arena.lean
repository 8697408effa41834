import StyleGrammar.Grammar.Definition
import Mathlib.Tactic.Common

/-!
# The nodes of an arena

What adding a node, changing one and making a slot do to the nodes and to the
names of an arena, and what an arena that has grown still holds.
-/

namespace StyleGrammar

namespace Arena

variable {a : Arena}

@[simp] theorem size_push (n : Node) : (a.push n).size = a.size + 1 := by
  simp [size, push]

@[simp] theorem size_modify (id : NodeId) (f : Node → Node) : (a.modify id f).size = a.size := by
  simp [size, modify]

theorem node_of_size_le {id : NodeId} (hle : a.size ≤ id) : a.node id = blank := by
  unfold node
  rw [Array.getD_eq_getD_getElem?, Array.getElem?_eq_none hle, Option.getD_none]

theorem node_push (n : Node) (id : NodeId) :
    (a.push n).node id = if id = a.size then n else a.node id := by
  unfold node push size
  simp only [Array.getD_eq_getD_getElem?, Array.getElem?_push]
  split <;> rfl

theorem node_push_self (n : Node) : (a.push n).node a.size = n := by
  rw [node_push, if_pos rfl]

theorem node_push_of_lt (n : Node) {id : NodeId} (hlt : id < a.size) :
    (a.push n).node id = a.node id := by
  rw [node_push, if_neg (Nat.ne_of_lt hlt)]

theorem node_modify (id : NodeId) (f : Node → Node) (j : NodeId) :
    (a.modify id f).node j = if j = id ∧ j < a.size then f (a.node j) else a.node j := by
  unfold node modify size
  simp only [Array.getD_eq_getD_getElem?, Array.getElem?_modify]
  by_cases hij : id = j
  · subst hij
    by_cases hlt : id < a.nodes.size
    · simp [hlt]
    · simp [hlt]
  · simp [hij, Ne.symm hij]

theorem node_modify_self {id : NodeId} (f : Node → Node) (hlt : id < a.size) :
    (a.modify id f).node id = f (a.node id) := by
  rw [node_modify, if_pos ⟨rfl, hlt⟩]

theorem node_modify_of_ne {id j : NodeId} (f : Node → Node) (hne : j ≠ id) :
    (a.modify id f).node j = a.node j := by
  rw [node_modify, if_neg fun h => hne h.1]

/-- A slot is there already, or it is a new placeholder that carries its name. -/
theorem slot_eq (name : String) :
    (∃ id, a.lookup? name = some id ∧ a.slot name = (id, a)) ∨
      a.lookup? name = none ∧ a.slot name =
        (a.size, { a.push ⟨.placeholder, .one, "", some name⟩ with
          names := a.names ++ [(name, a.size)] }) := by
  unfold slot
  cases hlookup : a.lookup? name with
  | some id => exact .inl ⟨id, rfl, rfl⟩
  | none => exact .inr ⟨rfl, rfl⟩

/-- An arena that has grown: its nodes are as they were, and so are the slots of the names that it
had. -/
structure Extends (a a' : Arena) : Prop where
  size_le : a.size ≤ a'.size
  node_eq : ∀ {id}, id < a.size → a'.node id = a.node id
  lookup_eq : ∀ {name id}, a.lookup? name = some id → a'.lookup? name = some id

theorem Extends.refl (a : Arena) : a.Extends a := ⟨Nat.le_refl _, fun _ => rfl, fun h => h⟩

theorem Extends.trans {a a' a'' : Arena} (h : a.Extends a') (h' : a'.Extends a'') :
    a.Extends a'' where
  size_le := Nat.le_trans h.size_le h'.size_le
  node_eq hlt := by rw [h'.node_eq (Nat.lt_of_lt_of_le hlt h.size_le), h.node_eq hlt]
  lookup_eq hlookup := h'.lookup_eq (h.lookup_eq hlookup)

theorem extends_push (a : Arena) (n : Node) : a.Extends (a.push n) where
  size_le := by simp
  node_eq hlt := node_push_of_lt n hlt
  lookup_eq hlookup := hlookup

theorem Extends.modify {a a' : Arena} (h : a.Extends a') {id : NodeId} (f : Node → Node)
    (hid : a.size ≤ id) : a.Extends (a'.modify id f) where
  size_le := by simpa using h.size_le
  node_eq hlt := by
    rw [node_modify_of_ne f (Nat.ne_of_lt (Nat.lt_of_lt_of_le hlt hid)), h.node_eq hlt]
  lookup_eq hlookup := h.lookup_eq hlookup

theorem extends_slot (a : Arena) (name : String) : a.Extends (a.slot name).2 := by
  rcases a.slot_eq name with ⟨id, -, hslot⟩ | ⟨-, hslot⟩
  · rw [hslot]
    exact .refl a
  · rw [hslot]
    refine ⟨by simp [size, push], fun hlt => node_push_of_lt _ hlt, fun hlookup => ?_⟩
    unfold lookup? at hlookup ⊢
    rw [List.lookup_append, hlookup, Option.some_or]

theorem lookup_slot (a : Arena) (name : String) :
    (a.slot name).2.lookup? name = some (a.slot name).1 := by
  rcases a.slot_eq name with ⟨id, hlookup, hslot⟩ | ⟨hnone, hslot⟩
  · rw [hslot]
    exact hlookup
  · unfold lookup? at hnone ⊢
    rw [hslot, List.lookup_append, hnone, Option.none_or, List.lookup_cons_self]

/-! ## Arenas that are built from definitions -/

/-- The arenas that slots and definitions, also those that end in a fault, can build. -/
inductive Built : Arena → Prop
  | empty : Built .empty
  | slot {a : Arena} (name : String) (h : Built a) : Built (a.slot name).2
  | define {a : Arena} (text : String) (h : Built a) : Built (a.define text).2
  | defineNamed {a : Arena} (name text : String) (h : Built a) : Built (a.defineNamed name text).2

/-- A definition of a name ends in a fault, or the slot of the name is filled with its root. -/
theorem defineNamed_cases (a : Arena) (name text : String) :
    (∃ e, ((a.slot name).2.define text).1 = .error e ∧
      a.defineNamed name text = (.error e, ((a.slot name).2.define text).2)) ∨
    ∃ root, ((a.slot name).2.define text).1 = .ok root ∧
      a.defineNamed name text =
        (.ok (a.slot name).1, ((a.slot name).2.define text).2.fill (a.slot name).1 root) := by
  unfold defineNamed
  dsimp only
  rcases (a.slot name).2.define text with ⟨r, a'⟩
  cases r with
  | error e => exact .inl ⟨e, rfl, rfl⟩
  | ok root => exact .inr ⟨root, rfl, rfl⟩

theorem defineNamed_eq (a : Arena) (name text : String) :
    (a.defineNamed name text).2 = ((a.slot name).2.define text).2 ∨
      ∃ root, ((a.slot name).2.define text).1 = .ok root ∧
        (a.defineNamed name text).2 =
          ((a.slot name).2.define text).2.fill (a.slot name).1 root := by
  rcases a.defineNamed_cases name text with ⟨e, -, heq⟩ | ⟨root, hroot, heq⟩
  · exact .inl (by rw [heq])
  · exact .inr ⟨root, hroot, by rw [heq]⟩

end Arena

end StyleGrammar
