import StyleGrammar.Proofs.Registry.Contents

/-!
# The entries of a registry

A property has an entry when it is taken up and its definition compiles.  The
entry holds what the tables and the options say of the property, and its root is
the slot of the property (`property?_cases`).
-/

namespace StyleGrammar

open List Definition

namespace Registry

variable {r r' : Registry} {properties : Table Property} {definitions : Table String}
  {o : RegistryOptions} {name : String} {p : Property} {e : PropertyEntry} {id : NodeId}

/-- The entry of a property that is taken up. -/
def entryOf (o : RegistryOptions) (name : String) (p : Property) (root : NodeId) : PropertyEntry :=
  ⟨name, (propertyCompilation o name p).definition, root,
    (o.forbidden.get? name).getD [] ++ p.forbidden, p⟩

/-- A property of the table that is taken up and has a definition that compiles. -/
structure TakenUp (properties : Table Property) (o : RegistryOptions) (name : String)
    (p : Property) : Prop where
  mem : (name, p) ∈ properties.rows
  admits : o.admits name p.status? = true
  compiles : Compiles (propertyCompilation o name p).definition

/-- Whether an entry is that of a property that is taken up, with its slot as the root. -/
def Enters (properties : Table Property) (o : RegistryOptions) (r : Registry) (name : String)
    (e : PropertyEntry) : Prop :=
  ∃ p root, TakenUp properties o name p ∧ r.arena.lookup? (propertySlot name) = some root ∧
    e = entryOf o name p root

/-! ## What a step does to the entries -/

theorem lookup_compile (r : Registry) (name definition : String) {slot slot' : String}
    (hid : r.arena.lookup? slot' = some id) :
    (r.compile name slot definition).2.arena.lookup? slot' = some id := by
  rw [arena_compile]
  exact (r.arena.extendsBut_defineNamed slot definition).lookup_eq hid

theorem compile_eq_some_iff {slot definition : String} :
    (r.compile name slot definition).1 = some id ↔ Compiles definition ∧
      (r.compile name slot definition).2.arena.lookup? slot = some id := by
  rw [arena_compile, Arena.lookup_defineNamed_self]
  rcases r.compile_cases name slot definition with ⟨e, he, heq⟩ | ⟨id', hid, heq⟩ <;> rw [heq] <;>
    rcases r.arena.defineNamed_cases slot definition with ⟨e', he', heq'⟩ | ⟨root, hroot, heq'⟩
  · have hbroken := (not_compiles_iff _).mpr ⟨e', he'⟩
    simp [hbroken]
  · rw [heq'] at he
    cases he
  · rw [heq'] at hid
    cases hid
  · have hcompiles := (compiles_iff _).mpr ⟨root, hroot⟩
    rw [heq'] at hid
    cases hid
    simp [hcompiles]

theorem Enters.mono (h : Enters properties o r name e)
    (hlookup : ∀ {slot id}, r.arena.lookup? slot = some id → r'.arena.lookup? slot = some id) :
    Enters properties o r' name e := by
  obtain ⟨p, root, htaken, hroot, he⟩ := h
  exact ⟨p, root, htaken, hlookup hroot, he⟩

theorem exists_compile (r : Registry) (name slot : String) {definition : String}
    (h : Compiles definition) : ∃ id, (r.compile name slot definition).1 = some id := by
  refine ⟨(r.arena.slot slot).1, compile_eq_some_iff.mpr ⟨h, ?_⟩⟩
  rw [arena_compile, Arena.lookup_defineNamed_self]

/-- Entries are replaced but never removed. -/
theorem addProperty_keeps (r : Registry) (row : String × Property)
    (h : ∃ e, r.property? name = some e) :
    ∃ e, (r.addProperty o row.1 row.2).property? name = some e := by
  unfold property? at h ⊢
  rcases r.addProperty_cases o row.1 row.2 with ⟨-, heq⟩ | ⟨-, ⟨-, heq⟩ | ⟨root, -, heq⟩⟩ <;>
    rw [heq]
  · exact h
  · rwa [properties_compile]
  · rw [properties_compile, Table.get?_insert]
    split
    · exact ⟨_, rfl⟩
    · exact h

theorem addProperty_enters (r : Registry) (hadmits : o.admits name p.status? = true)
    (hcompiles : Compiles (propertyCompilation o name p).definition) :
    ∃ e, (r.addProperty o name p).property? name = some e := by
  rcases r.addProperty_cases o name p with ⟨hnot, -⟩ | ⟨-, ⟨hnone, -⟩ | ⟨root, -, heq⟩⟩
  · rw [hadmits] at hnot
    cases hnot
  · obtain ⟨id, hid⟩ := r.exists_compile name (propertySlot name) hcompiles
    cases hnone.symm.trans hid
  · rw [heq, property?, Table.get?_insert, if_pos rfl]
    exact ⟨_, rfl⟩

theorem property?_settle (r : Registry) (slot definition : String) :
    (r.settle slot definition).property? = r.property? := by
  funext name
  rw [property?, settle, properties_compile]
  rfl

/-! ## The entries of a registry -/

theorem build_eq_of_build? (h : build? properties definitions o = some r) :
    build properties definitions o = r := by
  rw [build, h]
  rfl

theorem enters_of_property? (hbuild : build? properties definitions o = some r)
    (h : r.property? name = some e) : Enters properties o r name e := by
  revert name e
  rw [← build_eq_of_build? hbuild]
  apply build_induction (P := fun r => ∀ {name e}, r.property? name = some e →
    Enters properties o r name e)
  · intro name e h
    cases h
  · intro r name' hr name e h
    have hlookup {slot : String} {id : NodeId} (hid : r.arena.lookup? slot = some id) :
        (r.addDefinition definitions o name').arena.lookup? slot = some id := by
      rw [arena_addDefinition, ← r.arena_compile name']
      exact r.lookup_compile name' _ hid
    rw [property?, properties_addDefinition] at h
    exact (hr h).mono hlookup
  · intro r row hrow hr name e h
    have hlookup {slot : String} {id : NodeId} (hid : r.arena.lookup? slot = some id) :
        (r.compile row.1 (propertySlot row.1)
          ((o.propertyDefinitions.get? row.1).getD row.2.definition)).2.arena.lookup? slot =
            some id :=
      r.lookup_compile row.1 _ hid
    rw [property?] at h
    rcases r.addProperty_cases o row.1 row.2 with
      ⟨-, heq⟩ | ⟨hadmits, ⟨-, heq⟩ | ⟨root, hroot, heq⟩⟩ <;> rw [heq] at h ⊢
    · exact hr h
    · rw [properties_compile] at h
      exact (hr h).mono hlookup
    · rw [properties_compile, Table.get?_insert] at h
      split at h
      next hname =>
        cases h
        subst hname
        obtain ⟨hcompiles, hlookup'⟩ := compile_eq_some_iff.mp hroot
        exact ⟨row.2, root, ⟨hrow, hadmits, hcompiles⟩, hlookup', rfl⟩
      next => exact (hr h).mono hlookup
  · intro r slot definition hr name e h
    rw [property?_settle] at h
    refine (hr h).mono fun hid => ?_
    exact r.lookup_compile (filedName slot) definition hid

/-- A property that is taken up keeps its entry until the end. -/
theorem exists_property? (hbuild : build? properties definitions o = some r)
    (h : TakenUp properties o name p) : ∃ e, r.property? name = some e := by
  have hcollect : ∃ e, (collect properties definitions o).property? name = some e := by
    obtain ⟨front, behind, hrows⟩ := append_of_mem h.mem
    unfold collect
    rw [hrows, foldl_append, foldl_cons]
    apply foldlRecOn (motive := fun r : Registry => ∃ e, r.property? name = some e)
    · exact addProperty_enters _ h.admits h.compiles
    · exact fun r hr row _ => r.addProperty_keeps row hr
  refine (settleAll_induction (P := fun r => ∃ e, r.property? name = some e) ?_ hbuild hcollect).1
  intro r hr
  unfold settleRound
  apply foldlRecOn (motive := fun r : Registry => ∃ e, r.property? name = some e) _ _ hr
  intro r hr s _
  rwa [property?_settle]

/-- The entries of a registry are those of the properties that are taken up. -/
theorem property?_cases (hbuild : build? properties definitions o = some r) (name : String) :
    (∃ p root, TakenUp properties o name p ∧ r.arena.lookup? (propertySlot name) = some root ∧
      r.property? name = some (entryOf o name p root)) ∨
    (∀ p, ¬TakenUp properties o name p) ∧ r.property? name = none := by
  by_cases htaken : ∃ p, TakenUp properties o name p
  · obtain ⟨p, htaken⟩ := htaken
    obtain ⟨e, he⟩ := exists_property? hbuild htaken
    obtain ⟨p', root, htaken', hroot, rfl⟩ := enters_of_property? hbuild he
    exact .inl ⟨p', root, htaken', hroot, he⟩
  · rw [not_exists] at htaken
    refine .inr ⟨htaken, Option.eq_none_iff_forall_ne_some.mpr fun e he => ?_⟩
    obtain ⟨p, root, htaken', -⟩ := enters_of_property? hbuild he
    exact htaken p htaken'

end Registry

end StyleGrammar
