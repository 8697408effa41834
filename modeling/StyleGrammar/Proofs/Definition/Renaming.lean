import StyleGrammar.Proofs.Definition.Ledger

/-!
# Arenas up to the indices of nodes

Two arenas may hold the same grammars at different places.  A renaming relates
nodes that are alike, and each node to at most one other.  If two arenas agree on
what the slots hold that they share, there is a renaming that relates these slots
(`Ledger.exists_renaming`).
-/

namespace StyleGrammar

open List Definition

/-- Nodes of two arenas that differ only in their indices, and in those of the nodes that they refer
to.  Unfilled slots are related to unfilled slots. -/
structure Renaming (a a' : Arena) (R : NodeId → NodeId → Prop) : Prop where
  like : ∀ {id id'}, R id id' → (a.node id).Like R (a'.node id')
  eq_iff : ∀ {id id' j j'}, R id id' → R j j' → (id = j ↔ id' = j')

namespace Arena

variable {a a' : Arena} {text? text?' : String → Option String} {before before' : String → Arena}
  {pairs : String → Pairs} {name text : String} {id id' root : NodeId}

/-- The pairs of nodes that come from reading a text twice, for every name with the same text. -/
structure Rereadings (text? text?' : String → Option String) (before before' : String → Arena)
    (pairs : String → Pairs) : Prop where
  lockstep : ∀ {name text}, text? name = some text → text?' name = some text →
    Lockstep (before name) (before' name) (pairs name) ((before name).define text).2
      ((before' name).define text).2
  roots : ∀ {name text root root'}, text? name = some text → text?' name = some text →
    ((before name).define text).1 = .ok root → ((before' name).define text).1 = .ok root' →
      (root, root') ∈ pairs name
  exists_text : ∀ {name p}, p ∈ pairs name →
    ∃ text, text? name = some text ∧ text?' name = some text

theorem exists_rereadings (text? text?' : String → Option String)
    (before before' : String → Arena) : ∃ pairs, Rereadings text? text?' before before' pairs := by
  have hpairs (name : String) : ∃ ps : Pairs, (∀ text, text? name = some text →
      text?' name = some text → Lockstep (before name) (before' name) ps
        ((before name).define text).2 ((before' name).define text).2 ∧
          ∀ root root', ((before name).define text).1 = .ok root →
            ((before' name).define text).1 = .ok root' → (root, root') ∈ ps) ∧
      ((∃ text, text? name = some text ∧ text?' name = some text) ∨ ps = []) := by
    by_cases hboth : ∃ text, text? name = some text ∧ text?' name = some text
    · obtain ⟨text, htext, htext'⟩ := hboth
      obtain ⟨ps, hlock, hend⟩ := alike_define (before name) (before' name) text
      refine ⟨ps, fun t ht _ => ?_, .inl ⟨text, htext, htext'⟩⟩
      cases htext.symm.trans ht
      refine ⟨hlock, fun root root' hroot hroot' => ?_⟩
      rcases hend with ⟨e, he, -⟩ | ⟨root₁, root₂, h₁, h₂, hmem⟩
      · rw [hroot] at he
        cases he
      · cases hroot.symm.trans h₁
        cases hroot'.symm.trans h₂
        exact hmem
    · exact ⟨[], fun text htext htext' => absurd ⟨text, htext, htext'⟩ hboth, .inr rfl⟩
  choose pairs hreadings hsome using hpairs
  refine ⟨pairs, fun h h' => (hreadings _ _ h h').1, fun h h' => (hreadings _ _ h h').2 _ _, ?_⟩
  intro name p hp
  refine (hsome name).resolve_right fun hnil => ?_
  rw [hnil] at hp
  cases hp

/-- Nodes that are the slots of one name, or that come from the same step of a reading. -/
def Corresponds (a a' : Arena) (pairs : String → Pairs) (id id' : NodeId) : Prop :=
  (∃ name, a.lookup? name = some id ∧ a'.lookup? name = some id') ∨ ∃ name, (id, id') ∈ pairs name

section Ledgers

variable (h : a.Ledger text? before) (h' : a'.Ledger text?' before')
  (hpairs : Rereadings text? text?' before before' pairs)
include h h' hpairs

/-- What a text makes is in both arenas as it was when it was read. -/
theorem Ledger.kept (hmem : (id, id') ∈ pairs name) : ∃ text, text? name = some text ∧
    text?' name = some text ∧ New (before name) ((before name).define text).2 id ∧
    New (before' name) ((before' name).define text).2 id' ∧
    a.node id = ((before name).define text).2.node id ∧
    a'.node id' = ((before' name).define text).2.node id' := by
  obtain ⟨text, htext, htext'⟩ := hpairs.exists_text hmem
  have hlock := hpairs.lockstep htext htext'
  obtain ⟨slot, -, hfilled⟩ := h.filled htext
  obtain ⟨slot', -, hfilled'⟩ := h'.filled htext'
  have hnew := hlock.new.2 _ hmem
  have hnew' := hlock.new'.2 _ hmem
  exact ⟨text, htext, htext', hnew, hnew', hfilled.node_eq hnew, hfilled'.node_eq hnew'⟩

omit hpairs in
/-- A reading makes pairs of nodes and refers to slots, and nothing else. -/
theorem Ledger.corresponds_of_relate (htext : text? name = some text)
    (htext' : text?' name = some text)
    (hrelate : (pairs name).Relate ((before name).define text).2 ((before' name).define text).2
      id id') : Corresponds a a' pairs id id' := by
  rcases hrelate with hmem | ⟨other, hid, hid'⟩
  · exact .inr ⟨name, hmem⟩
  · obtain ⟨slot, -, hfilled⟩ := h.filled htext
    obtain ⟨slot', -, hfilled'⟩ := h'.filled htext'
    exact .inl ⟨other, hfilled.lookup_eq hid, hfilled'.lookup_eq hid'⟩

theorem Ledger.like_of_pair (hmem : (id, id') ∈ pairs name) :
    (a.node id).Like (Corresponds a a' pairs) (a'.node id') := by
  obtain ⟨text, htext, htext', -, -, hnode, hnode'⟩ := h.kept h' hpairs hmem
  rw [hnode, hnode']
  exact ((hpairs.lockstep htext htext').like hmem).mono fun _ _ =>
    h.corresponds_of_relate h' htext htext'

theorem Ledger.like_of_slots (hsame : text? name = text?' name) (hid : a.lookup? name = some id)
    (hid' : a'.lookup? name = some id') :
    (a.node id).Like (Corresponds a a' pairs) (a'.node id') := by
  have hname : (a.node id).name? = (a'.node id').name? := by
    rw [h.sound.lookup_name hid, h'.sound.lookup_name hid']
  cases htext : text? name with
  | none =>
    rw [h.blank (not_not.mpr htext) hid, h'.blank (not_not.mpr (hsame ▸ htext)) hid']
    exact ⟨.placeholder, rfl, rfl, rfl⟩
  | some text =>
    have htext' : text?' name = some text := hsame ▸ htext
    obtain ⟨slot, hslot, hfilled⟩ := h.filled htext
    obtain ⟨slot', hslot', hfilled'⟩ := h'.filled htext'
    cases hid.symm.trans hslot
    cases hid'.symm.trans hslot'
    obtain ⟨root, hroot, hkind, hquantifier, hraw⟩ := hfilled.root_copied
    obtain ⟨root', hroot', hkind', hquantifier', hraw'⟩ := hfilled'.root_copied
    have hlike := ((hpairs.lockstep htext htext').like
      (hpairs.roots htext htext' hroot hroot')).mono fun _ _ =>
        h.corresponds_of_relate h' htext htext'
    refine ⟨?_, ?_, ?_, hname⟩
    · rw [hkind, hkind']
      exact hlike.kind
    · rw [hquantifier, hquantifier']
      exact hlike.quantifier_eq
    · rw [hraw, hraw']
      exact hlike.raw_eq

/-- Nodes that come from reading the texts of different names are different ones. -/
theorem Ledger.ne_of_pairs {other : String} {j j' : NodeId} (hmem : (id, id') ∈ pairs name)
    (hmem' : (j, j') ∈ pairs other) (hne : name ≠ other) : id ≠ j ∧ id' ≠ j' := by
  obtain ⟨text, htext, htext', hnew, hnew', -⟩ := h.kept h' hpairs hmem
  obtain ⟨text₂, htext₂, htext₂', hnew₂, hnew₂', -⟩ := h.kept h' hpairs hmem'
  have hbelow {i j k l : Nat} (hi : i < k) (hj : l ≤ j) (hle : k ≤ l) : i ≠ j :=
    Nat.ne_of_lt (Nat.lt_of_lt_of_le hi (hle.trans hj))
  constructor
  · rcases h.apart htext htext₂ hne with hle | hle
    · exact hbelow hnew.lt hnew₂.le hle
    · exact (hbelow hnew₂.lt hnew.le hle).symm
  · rcases h'.apart htext' htext₂' hne with hle | hle
    · exact hbelow hnew'.lt hnew₂'.le hle
    · exact (hbelow hnew₂'.lt hnew'.le hle).symm

/-- No slot comes from reading a text. -/
theorem Ledger.ne_of_slot {other : String} {j j' : NodeId} (hid : a.lookup? name = some id)
    (hid' : a'.lookup? name = some id') (hmem : (j, j') ∈ pairs other) : id ≠ j ∧ id' ≠ j' := by
  obtain ⟨text, -, -, hnew, hnew', hnode, hnode'⟩ := h.kept h' hpairs hmem
  constructor
  · rintro rfl
    have hname := h.sound.lookup_name hid
    rw [hnode, hnew.name_eq] at hname
    cases hname
  · rintro rfl
    have hname := h'.sound.lookup_name hid'
    rw [hnode', hnew'.name_eq] at hname
    cases hname

end Ledgers

/-- If the slots that two arenas share hold the same texts, a renaming relates these slots. -/
theorem Ledger.exists_renaming (h : a.Ledger text? before) (h' : a'.Ledger text?' before')
    (hsame : ∀ name id id', a.lookup? name = some id → a'.lookup? name = some id' →
      text? name = text?' name) :
    ∃ R, Renaming a a' R ∧ ∀ name id id', a.lookup? name = some id →
      a'.lookup? name = some id' → R id id' := by
  obtain ⟨pairs, hpairs⟩ := exists_rereadings text? text?' before before'
  refine ⟨Corresponds a a' pairs, ⟨fun {id id'} hR => ?_, fun {id id' j j'} hR hR' => ?_⟩,
    fun name id id' hid hid' => .inl ⟨name, hid, hid'⟩⟩
  · rcases hR with ⟨name, hid, hid'⟩ | ⟨name, hmem⟩
    · exact h.like_of_slots h' hpairs (hsame name id id' hid hid') hid hid'
    · exact h.like_of_pair h' hpairs hmem
  · rcases hR with ⟨name, hid, hid'⟩ | ⟨name, hmem⟩ <;>
      rcases hR' with ⟨other, hj, hj'⟩ | ⟨other, hmem'⟩
    · constructor
      · rintro rfl
        cases h.sound.slot_inj hid hj
        exact Option.some.inj (hid'.symm.trans hj')
      · rintro rfl
        cases h'.sound.slot_inj hid' hj'
        exact Option.some.inj (hid.symm.trans hj)
    · obtain ⟨hne, hne'⟩ := h.ne_of_slot h' hpairs hid hid' hmem'
      exact iff_of_false hne hne'
    · obtain ⟨hne, hne'⟩ := h.ne_of_slot h' hpairs hj hj' hmem
      exact iff_of_false hne.symm hne'.symm
    · by_cases hother : name = other
      · subst hother
        obtain ⟨text, htext, htext'⟩ := hpairs.exists_text hmem
        exact (hpairs.lockstep htext htext').fst_eq_iff hmem hmem'
      · obtain ⟨hne, hne'⟩ := h.ne_of_pairs h' hpairs hmem hmem' hother
        exact iff_of_false hne hne'

end Arena

end StyleGrammar
