import StyleGrammar.Proofs.Definition.Integrity
import StyleGrammar.Registry.Query

/-!
# Building a registry

A registry is built from the empty one by three kinds of steps: a named
definition is compiled, a property is taken up, or a slot that others refer to is
filled.  What every step keeps holds of the registry that is built
(`build_induction`).
-/

namespace StyleGrammar

namespace Table

variable {α : Type} {t : Table α} {name : String}

theorem contains_iff : t.contains name = true ↔ ∃ a, t.get? name = some a := by
  simp [contains, Option.isSome_iff_exists]

@[simp] theorem get?_empty : (empty : Table α).get? name = none := rfl

theorem mem_rows_of_get? {a : α} (h : t.get? name = some a) : (name, a) ∈ t.rows := by
  obtain ⟨front, behind, hrows, -⟩ := List.lookup_eq_some_iff.mp h
  rw [hrows]
  exact List.mem_append_right _ List.mem_cons_self

theorem mem_entries_of_get? {a : α} (h : t.get? name = some a) : a ∈ t.entries :=
  List.mem_map.mpr ⟨(name, a), mem_rows_of_get? h, rfl⟩

theorem get?_insert (t : Table α) (name : String) (a : α) (name' : String) :
    (t.insert name a).get? name' = if name' = name then some a else t.get? name' := by
  have hreplace (rows : List (String × α)) :
      (rows.map fun r => if r.1 = name then (name, a) else r).lookup name' =
        if name' = name then (rows.lookup name).map fun _ => a else rows.lookup name' := by
    induction rows with
    | nil => simp
    | cons row rows ih =>
      obtain ⟨key, b⟩ := row
      rw [List.map_cons, List.lookup_cons]
      by_cases hkey : key = name
      · subst hkey
        by_cases hname : name' = key
        · simp [hname]
        · simpa [List.lookup_cons, hname, beq_false_of_ne hname] using ih
      · by_cases hname : name' = name
        · subst hname
          simpa [List.lookup_cons, hkey, beq_false_of_ne (Ne.symm hkey)] using ih
        · by_cases hrow : name' = key
          · simp [hkey, hrow]
          · simpa [hkey, List.lookup_cons, beq_false_of_ne hrow, hname] using ih
  unfold insert
  cases hname : t.contains name with
  | true =>
    obtain ⟨b, hb⟩ := contains_iff.mp hname
    unfold get? at hb
    rw [if_pos rfl, get?, hreplace, hb]
    rfl
  | false =>
    have hnone : t.rows.lookup name = none := by
      simpa [contains, get?] using hname
    rw [if_neg Bool.false_ne_true, get?, List.lookup_append, List.lookup_cons]
    by_cases hname' : name' = name
    · simp [hname', hnone]
    · simp [hname', beq_false_of_ne hname', get?]

end Table

namespace Registry

variable {r : Registry} {properties : Table Property} {definitions : Table String}
  {o : RegistryOptions}

/-- What a round of filling slots keeps holds when no slot is pending any more. -/
theorem settleAll_induction {P : Registry → Prop} (hround : ∀ r, P r → P (settleRound properties r))
    {r' : Registry} (h : settleAll properties r = some r') (hr : P r) :
    P r' ∧ pending properties r' = [] := by
  revert hr
  refine settleAll.partial_correctness properties
    (fun r r' => P r → P r' ∧ pending properties r' = []) ?_ r r' h
  intro settleAll ih r r' h hr
  split at h
  next hnil =>
    cases h
    exact ⟨hr, List.isEmpty_iff.mp hnil⟩
  next => exact ih _ _ h (hround r hr)

/-- What the steps of building keep holds in the end. -/
theorem build_induction {P : Registry → Prop} (hempty : P empty)
    (hdefinition : ∀ r name, P r → P (r.addDefinition definitions o name))
    (hproperty : ∀ r, ∀ row ∈ properties.rows, P r → P (r.addProperty o row.1 row.2))
    (hsettle : ∀ r slot definition, P r → P (r.settle slot definition)) :
    P (build properties definitions o) := by
  have hcollect : P (collect properties definitions o) := by
    apply List.foldlRecOn (motive := P)
    · exact List.foldlRecOn (motive := P) _ _ hempty fun r hr name _ => hdefinition r name hr
    · exact fun r hr row hrow => hproperty r row hrow hr
  have hround (r : Registry) (hr : P r) : P (settleRound properties r) :=
    List.foldlRecOn _ _ hr fun r hr s _ => hsettle r s.1 s.2 hr
  unfold build
  cases hbuild : build? properties definitions o with
  | none => exact hempty
  | some r => exact (settleAll_induction hround hbuild hcollect).1

/-- Compiling files a fault, and otherwise changes the arena only. -/
theorem compile_cases (r : Registry) (name slot definition : String) :
    (∃ e, (r.arena.defineNamed slot definition).1 = .error e ∧
      r.compile name slot definition = (none, { r with
        arena := (r.arena.defineNamed slot definition).2
        excluded := r.excluded ++ [(name, e)] })) ∨
    ∃ id, (r.arena.defineNamed slot definition).1 = .ok id ∧
      r.compile name slot definition =
        (some id, { r with arena := (r.arena.defineNamed slot definition).2 }) := by
  unfold compile
  rcases r.arena.defineNamed slot definition with ⟨e | id, a⟩
  · exact .inl ⟨e, rfl, rfl⟩
  · exact .inr ⟨id, rfl, rfl⟩

theorem arena_compile (r : Registry) (name slot definition : String) :
    (r.compile name slot definition).2.arena = (r.arena.defineNamed slot definition).2 := by
  rcases r.compile_cases name slot definition with ⟨e, -, h⟩ | ⟨id, -, h⟩ <;> rw [h]

theorem properties_compile (r : Registry) (name slot definition : String) :
    (r.compile name slot definition).2.properties = r.properties := by
  rcases r.compile_cases name slot definition with ⟨e, -, h⟩ | ⟨id, -, h⟩ <;> rw [h]

theorem arena_addDefinition (r : Registry) (name : String) :
    (r.addDefinition definitions o name).arena = (r.arena.defineNamed name
      ((o.namedDefinitions.get? name <|> definitions.get? name).getD "")).2 := by
  rw [← r.arena_compile name]
  unfold addDefinition
  dsimp only
  rcases r.compile name name _ with ⟨id | _, r'⟩ <;> rfl

theorem properties_addDefinition (r : Registry) (name : String) :
    (r.addDefinition definitions o name).properties = r.properties := by
  rw [← r.properties_compile name name
    ((o.namedDefinitions.get? name <|> definitions.get? name).getD "")]
  unfold addDefinition
  dsimp only
  rcases r.compile name name _ with ⟨id | _, r'⟩ <;> rfl

/-- A property is left out, it is excluded, or it gets an entry. -/
theorem addProperty_cases (r : Registry) (o : RegistryOptions) (name : String) (p : Property) :
    let definition := (o.propertyDefinitions.get? name).getD p.definition
    let compiled := r.compile name (propertySlot name) definition
    o.admits name p.status? = false ∧ r.addProperty o name p = r ∨
      o.admits name p.status? = true ∧
        (compiled.1 = none ∧ r.addProperty o name p = compiled.2 ∨
          ∃ root, compiled.1 = some root ∧ r.addProperty o name p = { compiled.2 with
            properties := compiled.2.properties.insert name
              ⟨name, definition, root, (o.forbidden.get? name).getD [] ++ p.forbidden, p⟩ }) := by
  unfold addProperty
  dsimp only
  cases o.admits name p.status? with
  | false => exact .inl ⟨rfl, rfl⟩
  | true =>
    rcases r.compile name (propertySlot name) _ with ⟨_ | root, r'⟩
    · exact .inr ⟨rfl, .inl ⟨rfl, rfl⟩⟩
    · exact .inr ⟨rfl, .inr ⟨root, rfl, rfl⟩⟩

theorem settleAll_of_pending_nil (h : pending properties r = []) :
    settleAll properties r = some r := by
  rw [settleAll, h]
  rfl

@[simp] theorem definitionOrder_empty (o : RegistryOptions) : definitionOrder .empty o = [] := by
  simp [definitionOrder, Table.names, Table.empty, Table.contains, Table.get?]

/-- A table of one property, which refers to no other. -/
theorem build_single {name : String} {p : Property}
    (h : pending ⟨[(name, p)]⟩ (addProperty o empty name p) = []) :
    build ⟨[(name, p)]⟩ .empty o = addProperty o empty name p := by
  have hcollect : collect ⟨[(name, p)]⟩ .empty o = addProperty o empty name p := by
    simp only [collect, definitionOrder_empty, List.foldl_cons, List.foldl_nil]
  rw [build, build?, hcollect, settleAll_of_pending_nil h]
  rfl

/-- The arena of a registry is built from definitions. -/
theorem built_arena_build (properties : Table Property) (definitions : Table String)
    (o : RegistryOptions) : (build properties definitions o).arena.Built := by
  apply build_induction (P := fun r => r.arena.Built)
  · exact .empty
  · intro r name hr
    rw [arena_addDefinition]
    exact hr.defineNamed _ _
  · intro r row _ hr
    have hcompiled : (r.compile row.1 (propertySlot row.1)
        ((o.propertyDefinitions.get? row.1).getD row.2.definition)).2.arena.Built := by
      rw [arena_compile]
      exact hr.defineNamed _ _
    rcases r.addProperty_cases o row.1 row.2 with ⟨-, h⟩ | ⟨-, ⟨-, h⟩ | ⟨root, -, h⟩⟩ <;> rw [h]
    · exact hr
    · exact hcompiled
    · exact hcompiled
  · intro r slot definition hr
    unfold settle
    rw [arena_compile]
    exact hr.defineNamed _ _

/-- An entry is found by its name. -/
theorem name_of_property? {name : String} {e : PropertyEntry}
    (h : (build properties definitions o).property? name = some e) : e.name = name := by
  revert name e
  unfold property?
  apply build_induction (P := fun r => ∀ {name e}, r.properties.get? name = some e → e.name = name)
  · simp [empty]
  · intro r name hr name' e
    rw [properties_addDefinition]
    exact hr
  · intro r row _ hr name e
    rcases r.addProperty_cases o row.1 row.2 with ⟨-, h⟩ | ⟨-, ⟨-, h⟩ | ⟨root, -, h⟩⟩ <;> rw [h]
    · exact hr
    · rw [properties_compile]
      exact hr
    · rw [properties_compile, Table.get?_insert]
      split
      next heq =>
        rintro ⟨⟩
        exact heq.symm
      next => exact hr
  · intro r slot definition hr name e
    unfold settle
    rw [properties_compile]
    exact hr

/-! ## Questions about a property -/

theorem validate_eq {name : String} {e : PropertyEntry} (h : r.property? name = some e)
    (text : String) : r.validate name text =
      match Value.listOfText text with
      | .ok vs => .ok ⟨vs, r.verdict e vs⟩
      | .error fault => .error (.invalidValue fault) := by
  unfold validate declaration entry
  rw [h]
  cases Value.listOfText text <;> rfl

theorem suggest_eq {name : String} {e : PropertyEntry} (h : r.property? name = some e)
    (text : String) : r.suggest name text =
      match Value.listOfText text with
      | .ok vs => ((r.matcher e).suggestionsAfter (.start e.root) vs).mapError .noSuggestions
      | .error fault => .error (.invalidValue fault) := by
  unfold suggest declaration entry
  rw [h]
  cases Value.listOfText text with
  | error fault => rfl
  | ok vs => cases hafter : (r.matcher e).suggestionsAfter (.start e.root) vs <;>
      simp [bind, Except.bind, pure, Except.pure, hafter, Except.mapError]

/-- An incomplete declaration leaves a match that is not satisfied. -/
theorem takeAll_of_incomplete {e : PropertyEntry} {vs : List Value}
    (h : r.verdict e vs = .incomplete) :
    ∃ p, (r.matcher e).takeAll e.root vs = .ok p ∧ (r.matcher e).isSatisfied p = false := by
  unfold verdict at h
  split at h
  next => cases h
  next =>
    split at h
    next => cases h
    next p htake =>
      refine ⟨p, htake, ?_⟩
      split at h
      next => cases h
      next hsat => simpa using hsat

end Registry

end StyleGrammar
