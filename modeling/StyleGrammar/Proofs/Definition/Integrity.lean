import StyleGrammar.Proofs.Definition.Quantifiers
import StyleGrammar.Proofs.Definition.Reading
import StyleGrammar.Proofs.Definition.References
import Mathlib.Order.WellFounded
import Mathlib.Logic.Relation

/-!
# The integrity of an arena

Definitions come and go, some of them broken, and names are used before they are
defined.  All the same the indices in an arena stay valid, names and slots belong
together one to one, and only a reference leads to a slot: the children of a node
are older than the node, or the node is a slot, which is nobody's child
(`Arena.Sound`).  So the children of an arena form no cycle, and its writer comes
to an end.

Every call leaves the nodes as they were; a definition of a name that succeeds
overwrites the slot of that name (`intact_of_built`).
-/

namespace StyleGrammar

open List Definition

namespace Arena

variable {a a' : Arena}

/-- What keeps an arena together.  A node is older than the nodes that are made of it, up to slots,
into which newer nodes are copied. -/
structure Sound (a : Arena) : Prop where
  child_lt : ∀ {id c}, c ∈ (a.node id).children → c < a.size
  child_name : ∀ {id c}, c ∈ (a.node id).children → (a.node c).name? = none
  child_older : ∀ {id c}, c ∈ (a.node id).children → (a.node id).name? = none → c < id
  lookup_iff : ∀ {name id}, a.lookup? name = some id ↔ id < a.size ∧ (a.node id).name? = some name
  names_nodup : (a.names.map Prod.fst).Nodup

theorem children_of_size_le {id : NodeId} (hle : a.size ≤ id) : (a.node id).children = [] := by
  rw [node_of_size_le hle]
  rfl

theorem sound_empty : empty.Sound where
  child_lt hc := by simp [children_of_size_le (a := empty) (Nat.zero_le _)] at hc
  child_name hc := by simp [children_of_size_le (a := empty) (Nat.zero_le _)] at hc
  child_older hc := by simp [children_of_size_le (a := empty) (Nat.zero_le _)] at hc
  lookup_iff := by simp [lookup?, empty, size]
  names_nodup := nodup_nil

/-- A new node that is no slot is made of nodes that are none either. -/
theorem Sound.push (ha : a.Sound) {n : Node} (hname : n.name? = none)
    (hchildren : ∀ c ∈ n.children, c < a.size ∧ (a.node c).name? = none) : (a.push n).Sound where
  child_lt := by
    intro id c hc
    rw [size_push]
    rw [node_push] at hc
    split at hc
    · exact Nat.lt_succ_of_lt (hchildren c hc).1
    · exact Nat.lt_succ_of_lt (ha.child_lt hc)
  child_name := by
    intro id c hc
    rw [node_push] at hc
    split at hc
    · rw [node_push_of_lt _ (hchildren c hc).1]
      exact (hchildren c hc).2
    · rw [node_push_of_lt _ (ha.child_lt hc)]
      exact ha.child_name hc
  child_older := by
    intro id c hc hnone
    rw [node_push] at hc hnone
    split at hc
    next hid => exact hid ▸ (hchildren c hc).1
    next hid =>
      rw [if_neg hid] at hnone
      exact ha.child_older hc hnone
  lookup_iff := by
    intro name id
    have hlookup : (a.push n).lookup? name = a.lookup? name := rfl
    rw [hlookup, ha.lookup_iff, size_push, node_push]
    split
    next hid => simp [hid, hname]
    next hid =>
      exact and_congr_left fun _ => (Nat.lt_succ_iff_lt_or_eq.trans (or_iff_left hid)).symm
  names_nodup := ha.names_nodup

theorem Sound.modify (ha : a.Sound) {id : NodeId} {f : Node → Node}
    (hname : (f (a.node id)).name? = (a.node id).name?)
    (hchildren : ∀ c ∈ (f (a.node id)).children, c < a.size ∧ (a.node c).name? = none ∧
      ((a.node id).name? = none → c < id)) : (a.modify id f).Sound := by
  have hnames (j : NodeId) : ((a.modify id f).node j).name? = (a.node j).name? := by
    rw [node_modify]
    split
    next h => rw [h.1, hname]
    next => rfl
  have hall {j c : NodeId} (hc : c ∈ ((a.modify id f).node j).children) :
      c < a.size ∧ (a.node c).name? = none ∧ ((a.node j).name? = none → c < j) := by
    rw [node_modify] at hc
    split at hc
    next h =>
      obtain ⟨rfl, -⟩ := h
      exact hchildren c hc
    next => exact ⟨ha.child_lt hc, ha.child_name hc, ha.child_older hc⟩
  refine ⟨fun hc => ?_, fun hc => ?_, fun hc hnone => ?_, ?_, ha.names_nodup⟩
  · rw [size_modify]
    exact (hall hc).1
  · rw [hnames]
    exact (hall hc).2.1
  · rw [hnames] at hnone
    exact (hall hc).2.2 hnone
  · intro name j
    rw [size_modify, hnames]
    exact ha.lookup_iff

theorem lookup_slot_of_ne {name name' : String} (hne : name' ≠ name) :
    (a.slot name).2.lookup? name' = a.lookup? name' := by
  rcases a.slot_eq name with ⟨id, -, hslot⟩ | ⟨-, hslot⟩
  · rw [hslot]
  · rw [hslot]
    simp [lookup?, lookup_append, lookup_cons, beq_false_of_ne hne]

/-- The nodes behind a new slot. -/
theorem node_slot_of_none {name : String} (hnone : a.lookup? name = none) (id : NodeId) :
    (a.slot name).2.node id =
      if id = a.size then ⟨.placeholder, .one, "", some name⟩ else a.node id := by
  have hnode := node_push (a := a) ⟨.placeholder, .one, "", some name⟩ id
  unfold slot
  rw [hnone]
  exact hnode

theorem Sound.slot (ha : a.Sound) (name : String) : (a.slot name).2.Sound := by
  have hext := a.extends_slot name
  have hself := a.lookup_slot name
  rcases a.slot_eq name with ⟨id, -, hslot⟩ | ⟨hnone, hslot⟩
  · rwa [hslot]
  have hsize : (a.slot name).2.size = a.size + 1 := by simp [hslot, size, Arena.push]
  have hnode := node_slot_of_none hnone
  have hchildren {id c : NodeId} (hc : c ∈ ((a.slot name).2.node id).children) :
      c ∈ (a.node id).children ∧ id ≠ a.size := by
    rw [hnode] at hc
    split at hc
    next hid => cases hc
    next hid => exact ⟨hc, hid⟩
  refine ⟨fun hc => ?_, fun hc => ?_, fun hc hid => ?_, @fun name' id => ?_, ?_⟩
  · exact Nat.lt_of_lt_of_le (ha.child_lt (hchildren hc).1) hext.size_le
  · rw [hext.node_eq (ha.child_lt (hchildren hc).1)]
    exact ha.child_name (hchildren hc).1
  · rw [hnode, if_neg (hchildren hc).2] at hid
    exact ha.child_older (hchildren hc).1 hid
  · have hlt : id < (a.slot name).2.size ↔ id < a.size ∨ id = a.size := by
      rw [hsize]
      exact Nat.lt_succ_iff_lt_or_eq
    rw [hlt, hnode]
    by_cases hname : name' = name
    · subst hname
      have hother : ¬ (id < a.size ∧ (a.node id).name? = some name') := by
        rw [← ha.lookup_iff, hnone]
        simp
      have hid : (a.slot name').1 = a.size := by rw [hslot]
      rw [hself, hid]
      by_cases hid : id = a.size
      · simp [hid]
      · simpa [hid, Ne.symm hid] using not_and.mp hother
    · rw [lookup_slot_of_ne hname, ha.lookup_iff]
      by_cases hid : id = a.size
      · simp [hid, Ne.symm hname]
      · simp [hid]
  · have hnames : (a.slot name).2.names = a.names ++ [(name, a.size)] := by rw [hslot]
    have hnew : ∀ p ∈ a.names, p.1 ≠ name := by
      intro p hp heq
      have hsome := lookup_eq_none_iff.mp hnone p hp
      simp [heq] at hsome
    rw [hnames, map_append, nodup_append]
    exact ⟨ha.names_nodup, nodup_singleton _, by simpa using hnew⟩

/-- Putting a grammar that was made of no slots into a slot. -/
theorem Sound.fill (ha : a.Sound) {slot root : NodeId} (hslot : (a.node slot).name? ≠ none) :
    (a.fill slot root).Sound :=
  ha.modify rfl fun _ hc => ⟨ha.child_lt hc, ha.child_name hc, fun hnone => absurd hnone hslot⟩

/-- Whatever steps a reading takes, its arena stays sound. -/
theorem Sound.lockstep {b b' : Arena} {ps : Pairs} (h : Lockstep b b' ps a a') (hb : b.Sound) :
    a.Sound := by
  induction h with
  | start => exact hb
  | @push ps a a' kind kind' h raw hkind ih =>
    refine ih.push rfl fun c hc => ?_
    obtain ⟨c', hmem⟩ := hkind.exists_of_mem hc
    have hnew := h.new.2 _ hmem
    exact ⟨hnew.lt, hnew.name_eq⟩
  | slot h name ih => exact ih.slot name
  | refer h name raw ih =>
    exact (ih.slot name).push rfl (by simp [Node.children, NodeKind.children])
  | @quantify ps a a' id id' q h hmem hq ih =>
    exact ih.modify rfl fun c hc => ⟨ih.child_lt hc, ih.child_name hc, ih.child_older hc⟩

theorem Sound.define (ha : a.Sound) (text : String) : (a.define text).2.Sound := by
  obtain ⟨ps, hlock, -⟩ := alike_define a a text
  exact ha.lockstep hlock

theorem extends_define (a : Arena) (text : String) : a.Extends (a.define text).2 := by
  obtain ⟨ps, hlock, -⟩ := alike_define a a text
  exact hlock.new.1

theorem Sound.lookup_lt (ha : a.Sound) {name : String} {id : NodeId}
    (h : a.lookup? name = some id) : id < a.size := (ha.lookup_iff.mp h).1

theorem Sound.lookup_name (ha : a.Sound) {name : String} {id : NodeId}
    (h : a.lookup? name = some id) : (a.node id).name? = some name := (ha.lookup_iff.mp h).2

theorem Built.sound (ha : a.Built) : a.Sound := by
  induction ha with
  | empty => exact sound_empty
  | slot name _ ih => exact ih.slot name
  | define text _ ih => exact ih.define text
  | @defineNamed a name text _ ih =>
    have hdefine := (ih.slot name).define text
    rcases a.defineNamed_eq name text with heq | ⟨root, -, heq⟩
    · rwa [heq]
    · rw [heq]
      have hlookup := ((a.slot name).2.extends_define text).lookup_eq (a.lookup_slot name)
      apply hdefine.fill
      rw [hdefine.lookup_name hlookup]
      simp

/-! ## No cycles -/

/-- How late a node was made, where slots count as newer than all other nodes. -/
def age (a : Arena) (id : NodeId) : Nat :=
  if (a.node id).name? = none then min id a.size else a.size

theorem age_le (a : Arena) (id : NodeId) : a.age id ≤ a.size := by
  unfold age
  split
  · exact Nat.min_le_right _ _
  · exact Nat.le_refl _

theorem Sound.age_lt (ha : a.Sound) {id c : NodeId} (hc : c ∈ (a.node id).children) :
    a.age c < a.age id := by
  have hlt := ha.child_lt hc
  unfold age
  rw [if_pos (ha.child_name hc), Nat.min_eq_left (Nat.le_of_lt hlt)]
  split
  next hnone => exact Nat.lt_min.mpr ⟨ha.child_older hc hnone, hlt⟩
  next => exact hlt

theorem Sound.wellFounded (ha : a.Sound) :
    WellFounded fun c id => c ∈ (a.node id).children :=
  (InvImage.wf a.age Nat.lt_wfRel.wf).mono fun _ _ hc => ha.age_lt hc

/-- More depth than there are nodes does not change the text of a node. -/
theorem Sound.renderWithin_eq (ha : a.Sound) {id : NodeId} {n n' : Nat} (hn : a.age id < n)
    (hn' : a.age id < n') (top : Bool) : a.renderWithin n top id = a.renderWithin n' top id := by
  induction n using Nat.strongRecOn generalizing id n' top with
  | ind n ih =>
    obtain ⟨k, rfl⟩ : ∃ k, n = k + 1 := ⟨n - 1, by omega⟩
    obtain ⟨k', rfl⟩ : ∃ k', n' = k' + 1 := ⟨n' - 1, by omega⟩
    have hchildren : (a.node id).children.map (a.renderWithin k false) =
        (a.node id).children.map (a.renderWithin k' false) := by
      apply map_congr_left
      intro c hc
      have hage := ha.age_lt hc
      exact ih k (by omega) (by omega) (by omega) false
    simp only [renderWithin, hchildren]

/-! ## What calls leave as it was -/

/-- An arena that has grown and kept all nodes but one. -/
structure ExtendsBut (a : Arena) (slot : NodeId) (a' : Arena) : Prop where
  size_le : a.size ≤ a'.size
  node_eq : ∀ {id}, id < a.size → id ≠ slot → a'.node id = a.node id
  lookup_eq : ∀ {name id}, a.lookup? name = some id → a'.lookup? name = some id

theorem Extends.fill (h : a.Extends a') (slot root : NodeId) :
    a.ExtendsBut slot (a'.fill slot root) where
  size_le := by simpa [Arena.fill] using h.size_le
  node_eq hlt hne := by
    unfold Arena.fill
    rw [node_modify_of_ne _ hne, h.node_eq hlt]
  lookup_eq hlookup := h.lookup_eq hlookup

theorem isFilled_fill {slot root : NodeId} (hslot : slot < a.size)
    (hroot : (a.node root).kind ≠ .placeholder) : (a.fill slot root).isFilled slot = true := by
  simpa [isFilled, fill, node_modify_self _ hslot] using hroot

/-- What a text defines is no slot that waits for its grammar. -/
theorem kind_ne_placeholder_of_define {text : String} {root : NodeId}
    (h : (a.define text).1 = .ok root) : ((a.define text).2.node root).kind ≠ .placeholder := by
  obtain ⟨ps, hlock, ⟨e, herror, -⟩ | ⟨root₁, root₂, hroot, -, hmem⟩⟩ := alike_define a a text
  · rw [h] at herror
    cases herror
  · rw [h] at hroot
    cases hroot
    exact (hlock.new.2 _ hmem).filled

/-- What always holds of an arena: all indices are valid, quantifiers are proper, the names and the
slots belong together one to one, and the children of nodes are no slots and form no cycle, so that
the writer ends at every node. -/
structure Intact (a : Arena) : Prop where
  child_lt : ∀ id, ∀ c ∈ (a.node id).children, c < a.size
  target_lt : ∀ id name target, (a.node id).kind = .reference name target → target < a.size
  proper : ∀ id, (a.node id).quantifier.Proper
  names_nodup : (a.names.map Prod.fst).Nodup
  lookup_iff : ∀ name id,
    a.lookup? name = some id ↔ id < a.size ∧ (a.node id).name? = some name
  child_ne_slot : ∀ id, ∀ c ∈ (a.node id).children, ∀ name, a.lookup? name ≠ some c
  wellFounded : WellFounded fun c id => c ∈ (a.node id).children
  render_eq : ∀ id n, a.size < n → ∀ top,
    a.renderWithin n top id = a.renderWithin (a.size + 1) top id

/-- Arenas are intact whatever calls, successful or not, have built them.  A call leaves the nodes
that were there as they are and the names where they are, but a definition of a name that succeeds
overwrites the slot of that name. -/
theorem intact_of_built (ha : a.Built) :
    a.Intact ∧ (∀ name, a.Extends (a.slot name).2) ∧ (∀ text, a.Extends (a.define text).2) ∧
      ∀ name text, match a.defineNamed name text with
        | (.error _, a') => (a.slot name).2.Extends a'
        | (.ok slot, a') =>
          a'.lookup? name = some slot ∧ a'.isFilled slot = true ∧
            (a.slot name).2.ExtendsBut slot a' := by
  have hsound := ha.sound
  refine ⟨⟨?_, ?_, ha.allProper, hsound.names_nodup, ?_, ?_, hsound.wellFounded, ?_⟩,
    a.extends_slot, a.extends_define, ?_⟩
  · intro id c hc
    exact hsound.child_lt hc
  · intro id name target hkind
    exact hsound.lookup_lt (ha.linked id name target hkind)
  · intro name id
    exact hsound.lookup_iff
  · intro id c hc name hlookup
    have hnone := hsound.child_name hc
    rw [hsound.lookup_name hlookup] at hnone
    cases hnone
  · intro id n hn top
    have hage := a.age_le id
    exact hsound.renderWithin_eq (Nat.lt_of_le_of_lt hage hn) (Nat.lt_succ_of_le hage) top
  · intro name text
    have hext := (a.slot name).2.extends_define text
    have hlookup := a.lookup_slot name
    rcases a.defineNamed_cases name text with ⟨e, -, heq⟩ | ⟨root, hroot, heq⟩
    · rw [heq]
      exact hext
    · rw [heq]
      have hslot := ((hsound.slot name).define text).lookup_lt (hext.lookup_eq hlookup)
      have hfill := hext.fill (a.slot name).1 root
      exact ⟨hfill.lookup_eq hlookup,
        isFilled_fill hslot (kind_ne_placeholder_of_define hroot), hfill⟩

/-- A name that is defined by itself, and one whose definition ends in a fault. -/
def recursive : Arena :=
  ((empty.defineNamed "list" "a <list>?").2.defineNamed "broken" "[ <list> | <other>").2

theorem intact_recursive :
    recursive.Intact ∧ (recursive.names.map fun n => (n.1, recursive.isFilled n.2)) =
      [("list", true), ("broken", false), ("other", false)] := by
  have hbuilt : recursive.Built := .defineNamed _ _ (.defineNamed _ _ .empty)
  exact ⟨(intact_of_built hbuilt).1, by decide +kernel⟩

end Arena

end StyleGrammar
