import StyleGrammar.Proofs.Definition.Ledger
import StyleGrammar.Proofs.Registry.Slots

/-!
# The log of a build

Building a registry compiles one definition after the other.  The log of these
compilations says all about the arena and about what is excluded: a slot holds
the last definition in the log that compiles, and the names of the broken ones
are excluded (`Logged`).  The first entries of the log are known beforehand
(`logged_collect`); every round of filling slots adds the slots that it finds
pending (`Logged.settleRound`).
-/

namespace StyleGrammar

open List Definition

namespace Registry

/-- A definition that is compiled into a slot.  A fault in it is filed under `name`. -/
structure Compilation where
  name : String
  slot : String
  definition : String
  deriving DecidableEq, Repr

/-- The definitions of slots in a log. -/
def definitionsOf (log : List Compilation) : List (String × String) :=
  log.map fun c => (c.slot, c.definition)

/-- A registry that is what the compilations of a log have made of the empty one. -/
structure Logged (r : Registry) (log : List Compilation) : Prop where
  arena_eq : r.arena = .ofDefinitions (definitionsOf log)
  excluded_eq : r.excluded.map Prod.fst =
    (log.filter fun c => ¬Compiles c.definition).map Compilation.name

/-- Whether a name is excluded, so that no slot of it is filled. -/
def Excludes (r : Registry) (name : String) : Prop := name ∈ r.excluded.map Prod.fst

/-- A property of the table whose slot came up and waits to be filled. -/
structure Waits (properties : Table Property) (r : Registry) (name : String) (p : Property) :
    Prop where
  get_eq : properties.get? name = some p
  not_excluded : ¬r.Excludes name
  blank : ∃ id, r.arena.lookup? (propertySlot name) = some id ∧ r.arena.isFilled id = false

variable {r : Registry} {log more : List Compilation} {properties : Table Property}
  {definitions : Table String} {o : RegistryOptions} {name : String} {p : Property}

/-! ## What a log says -/

theorem logged_empty : empty.Logged [] := ⟨rfl, rfl⟩

theorem Logged.compile (h : r.Logged log) (name slot definition : String) :
    (r.compile name slot definition).2.Logged (log ++ [⟨name, slot, definition⟩]) := by
  have harena : (r.arena.defineNamed slot definition).2 =
      .ofDefinitions (definitionsOf (log ++ [⟨name, slot, definition⟩])) := by
    rw [definitionsOf, map_append, Arena.ofDefinitions_append, h.arena_eq]
    rfl
  have herror : (∃ e, (r.arena.defineNamed slot definition).1 = .error e) ↔
      ¬Compiles definition := by
    rw [not_compiles_iff (r.arena.slot slot).2]
    rcases r.arena.defineNamed_cases slot definition with ⟨e, he, heq⟩ | ⟨root, hroot, heq⟩
    · simp [he, heq]
    · simp [hroot, heq]
  rcases r.compile_cases name slot definition with ⟨e, he, heq⟩ | ⟨id, hid, heq⟩
  · have hbroken := herror.mp ⟨e, he⟩
    refine ⟨by rw [heq]; exact harena, ?_⟩
    rw [heq, map_append, h.excluded_eq, filter_append, map_append]
    simp [hbroken]
  · have hcompiles : Compiles definition := by
      by_contra hbroken
      obtain ⟨e, he⟩ := herror.mpr hbroken
      rw [hid] at he
      cases he
    refine ⟨by rw [heq]; exact harena, ?_⟩
    rw [heq, h.excluded_eq, filter_append, map_append]
    simp [hcompiles]

theorem Logged.sound (h : r.Logged log) : r.arena.Sound := by
  obtain ⟨before, hledger⟩ := Arena.ledger_ofDefinitions (definitionsOf log)
  exact h.arena_eq ▸ hledger.sound

theorem Logged.excludes_iff (h : r.Logged log) :
    r.Excludes name ↔ ∃ c ∈ log, c.name = name ∧ ¬Compiles c.definition := by
  unfold Excludes
  rw [h.excluded_eq]
  simp only [mem_map, mem_filter, decide_eq_true_eq]
  grind

theorem mem_definitionsOf {slot definition : String} :
    (slot, definition) ∈ definitionsOf log ↔
      ∃ c ∈ log, c.slot = slot ∧ c.definition = definition := by
  simp [definitionsOf]

theorem Logged.isFilled_iff (h : r.Logged log) {slot : String} {id : NodeId}
    (hid : r.arena.lookup? slot = some id) :
    r.arena.isFilled id = true ↔ ∃ c ∈ log, c.slot = slot ∧ Compiles c.definition := by
  obtain ⟨before, hledger⟩ := Arena.ledger_ofDefinitions (definitionsOf log)
  rw [h.arena_eq] at hid ⊢
  rw [hledger.isFilled_iff hid, ← Option.ne_none_iff_exists', Ne, Arena.lastDefinition?_eq_none_iff]
  simp only [mem_definitionsOf]
  push Not
  constructor
  · rintro ⟨text, ⟨c, hc, hslot, rfl⟩, htext⟩
    exact ⟨c, hc, hslot, htext⟩
  · rintro ⟨c, hc, hslot, htext⟩
    exact ⟨_, ⟨c, hc, hslot, rfl⟩, htext⟩

/-- A slot is filled once a definition of it compiles. -/
theorem Logged.filled_of_mem (h : r.Logged log) {c : Compilation} (hc : c ∈ log)
    (hcompiles : Compiles c.definition) :
    ∃ id, r.arena.lookup? c.slot = some id ∧ r.arena.isFilled id = true := by
  obtain ⟨before, hledger⟩ := Arena.ledger_ofDefinitions (definitionsOf log)
  have hsome : Arena.lastDefinition? (definitionsOf log) c.slot ≠ none := fun hnone =>
    Arena.lastDefinition?_eq_none_iff.mp hnone _ (mem_definitionsOf.mpr ⟨c, hc, rfl, rfl⟩) hcompiles
  obtain ⟨text, htext⟩ := Option.ne_none_iff_exists'.mp hsome
  obtain ⟨id, hid, hfilled⟩ := hledger.filled htext
  rw [h.arena_eq]
  exact ⟨id, hid, hfilled.isFilled⟩

/-- A slot that came up is still there when more was compiled. -/
theorem Logged.lookup_append {r' : Registry} (h : r.Logged log) (h' : r'.Logged (log ++ more))
    {slot : String} {id : NodeId} (hid : r.arena.lookup? slot = some id) :
    r'.arena.lookup? slot = some id := by
  rw [h.arena_eq] at hid
  rw [h'.arena_eq, definitionsOf, map_append]
  exact Arena.lookup_ofDefinitions_append _ _ hid

/-! ## The log of a build -/

/-- The compilation of a named definition. -/
def namedCompilation (definitions : Table String) (o : RegistryOptions) (name : String) :
    Compilation :=
  ⟨name, name, (o.namedDefinitions.get? name <|> definitions.get? name).getD ""⟩

/-- The compilation of a property that is taken up. -/
def propertyCompilation (o : RegistryOptions) (name : String) (p : Property) : Compilation :=
  ⟨name, propertySlot name, (o.propertyDefinitions.get? name).getD p.definition⟩

/-- The compilation of a property whose slot is pending. -/
def pendingCompilation (name : String) (p : Property) : Compilation :=
  ⟨filedName (propertySlot name), propertySlot name, p.definition⟩

/-- What is compiled before any slot is pending. -/
def collectLog (properties : Table Property) (definitions : Table String) (o : RegistryOptions) :
    List Compilation :=
  (definitionOrder definitions o).map (namedCompilation definitions o) ++
    (properties.rows.filter fun row => o.admits row.1 row.2.status?).map fun row =>
      propertyCompilation o row.1 row.2

/-- A log also tells how other fields of a registry are left out of account. -/
theorem Logged.of_eq {r' : Registry} (h : r.Logged log) (harena : r'.arena = r.arena)
    (hexcluded : r'.excluded = r.excluded) : r'.Logged log :=
  ⟨harena ▸ h.arena_eq, hexcluded ▸ h.excluded_eq⟩

theorem Logged.addDefinition (h : r.Logged log) (name : String) :
    (r.addDefinition definitions o name).Logged (log ++ [namedCompilation definitions o name]) := by
  have hcompiled := h.compile name name
    ((o.namedDefinitions.get? name <|> definitions.get? name).getD "")
  unfold Registry.addDefinition
  dsimp only
  generalize r.compile name name _ = out at hcompiled ⊢
  rcases out with ⟨id | _, r'⟩
  · exact hcompiled
  · exact hcompiled.of_eq rfl rfl

theorem Logged.addProperty (h : r.Logged log) (name : String) (p : Property) :
    (r.addProperty o name p).Logged
      (log ++ if o.admits name p.status? then [propertyCompilation o name p] else []) := by
  have hcompiled := h.compile name (propertySlot name)
    ((o.propertyDefinitions.get? name).getD p.definition)
  rcases r.addProperty_cases o name p with ⟨hadmits, heq⟩ | ⟨hadmits, ⟨-, heq⟩ | ⟨root, -, heq⟩⟩ <;>
    rw [heq, hadmits]
  · simpa using h
  · exact hcompiled
  · exact hcompiled.of_eq rfl rfl

theorem logged_collect (properties : Table Property) (definitions : Table String)
    (o : RegistryOptions) :
    (collect properties definitions o).Logged (collectLog properties definitions o) := by
  have hdefinitions (names : List String) {r : Registry} {log : List Compilation}
      (h : r.Logged log) : (names.foldl (addDefinition definitions o) r).Logged
        (log ++ names.map (namedCompilation definitions o)) := by
    induction names generalizing r log with
    | nil => simpa using h
    | cons name names ih => simpa using ih (h.addDefinition name)
  have hproperties (rows : List (String × Property)) {r : Registry} {log : List Compilation}
      (h : r.Logged log) : (rows.foldl (fun r row => r.addProperty o row.1 row.2) r).Logged
        (log ++ (rows.filter fun row => o.admits row.1 row.2.status?).map fun row =>
          propertyCompilation o row.1 row.2) := by
    induction rows generalizing r log with
    | nil => simpa using h
    | cons row rows ih =>
      have hrest := ih (h.addProperty (o := o) row.1 row.2)
      cases hadmits : o.admits row.1 row.2.status? <;> simpa [hadmits] using hrest
  exact hproperties _ (hdefinitions _ logged_empty)

/-! ## Pending slots -/

theorem mem_pending_iff (hr : r.arena.Sound) {slot definition : String} :
    (slot, definition) ∈ pending properties r ↔
      ∃ name p, r.Waits properties name p ∧ slot = propertySlot name ∧
        definition = p.definition := by
  have hexcluded (slot name : String) (hslot : slot = propertySlot name) :
      r.excluded.any (fun e => propertySlot e.1 = slot) = true ↔ r.Excludes name := by
    simp [hslot, propertySlot_inj, Excludes]
  unfold pending
  rw [mem_filterMap]
  constructor
  · rintro ⟨⟨slot', id⟩, hmem, h⟩
    obtain ⟨hskip, h⟩ := Option.ite_none_left_eq_some.mp h
    obtain ⟨name, hname, h⟩ := Option.bind_eq_some_iff.mp h
    obtain ⟨p, hp, h⟩ := Option.bind_eq_some_iff.mp h
    cases h
    have hslot := unquoted?_eq_some_iff.mp hname
    rw [Bool.or_eq_true, not_or, hexcluded slot name hslot, Bool.not_eq_true] at hskip
    have hid := lookup_eq_some_of_mem hr.names_nodup hmem
    exact ⟨name, p, ⟨hp, hskip.2, id, hslot ▸ hid, hskip.1⟩, hslot, rfl⟩
  · rintro ⟨name, p, ⟨hp, hnot, id, hid, hblank⟩, rfl, rfl⟩
    refine ⟨(propertySlot name, id), mem_of_lookup_eq_some hid, ?_⟩
    have hname : unquoted? (propertySlot name) = some name := unquoted?_eq_some_iff.mpr rfl
    have hnotAny : r.excluded.any (fun e => propertySlot e.1 = propertySlot name) = false :=
      Bool.eq_false_iff.mpr fun h => hnot ((hexcluded _ name rfl).mp h)
    simp [hblank, hnotAny, hname, hp]

/-- In a registry with a log, a property waits if no definition of its slot compiled and no fault
was filed under its name, although its slot came up. -/
theorem Logged.waits_iff (h : r.Logged log) :
    r.Waits properties name p ↔ properties.get? name = some p ∧
      (∀ c ∈ log, c.name = name → Compiles c.definition) ∧
      (∀ c ∈ log, c.slot = propertySlot name → ¬Compiles c.definition) ∧
      ∃ id, r.arena.lookup? (propertySlot name) = some id := by
  have hnot : ¬r.Excludes name ↔ ∀ c ∈ log, c.name = name → Compiles c.definition := by
    rw [h.excludes_iff]
    push Not
    rfl
  have hblank {id : NodeId} (hid : r.arena.lookup? (propertySlot name) = some id) :
      r.arena.isFilled id = false ↔
        ∀ c ∈ log, c.slot = propertySlot name → ¬Compiles c.definition := by
    rw [← Bool.not_eq_true, h.isFilled_iff hid]
    push Not
    rfl
  constructor
  · rintro ⟨hp, hexcluded, id, hid, hfilled⟩
    exact ⟨hp, hnot.mp hexcluded, (hblank hid).mp hfilled, id, hid⟩
  · rintro ⟨hp, hexcluded, hfilled, id, hid⟩
    exact ⟨hp, hnot.mpr hexcluded, id, hid, (hblank hid).mpr hfilled⟩

/-- What a round compiles. -/
def roundLog (properties : Table Property) (r : Registry) : List Compilation :=
  (pending properties r).map fun s => ⟨filedName s.1, s.1, s.2⟩

theorem Logged.settleRound (h : r.Logged log) :
    (settleRound properties r).Logged (log ++ roundLog properties r) := by
  have hfold (slots : List (String × String)) {r : Registry} {log : List Compilation}
      (h : r.Logged log) : (slots.foldl (fun r s => r.settle s.1 s.2) r).Logged
        (log ++ slots.map fun s => ⟨filedName s.1, s.1, s.2⟩) := by
    induction slots generalizing r log with
    | nil => simpa using h
    | cons s slots ih =>
      have hsettled : (r.settle s.1 s.2).Logged (log ++ [⟨filedName s.1, s.1, s.2⟩]) :=
        h.compile (filedName s.1) s.1 s.2
      simpa using ih hsettled
  exact hfold _ h

/-- A round compiles the definition of every property that waits, and no other. -/
theorem mem_roundLog_iff (hr : r.arena.Sound) {c : Compilation} :
    c ∈ roundLog properties r ↔
      ∃ name p, r.Waits properties name p ∧ c = pendingCompilation name p := by
  unfold roundLog
  rw [mem_map]
  constructor
  · rintro ⟨⟨slot, definition⟩, hmem, rfl⟩
    obtain ⟨name, p, hwaits, rfl, rfl⟩ := (mem_pending_iff hr).mp hmem
    exact ⟨name, p, hwaits, rfl⟩
  · rintro ⟨name, p, hwaits, rfl⟩
    exact ⟨_, (mem_pending_iff hr).mpr ⟨name, p, hwaits, rfl, rfl⟩, rfl⟩

/-! ## The log of some rounds -/

/-- What is compiled because a property waits in some round. -/
def Waited (properties : Table Property) (definitions : Table String) (o : RegistryOptions)
    (c : Compilation) : Prop :=
  ∃ n name p, ((settleRound properties)^[n] (collect properties definitions o)).Waits
    properties name p ∧ c = pendingCompilation name p

theorem logged_rounds (properties : Table Property) (definitions : Table String)
    (o : RegistryOptions) (n : Nat) :
    ∃ settled, (∀ c ∈ settled, Waited properties definitions o c) ∧
      ((settleRound properties)^[n] (collect properties definitions o)).Logged
        (collectLog properties definitions o ++ settled) := by
  induction n with
  | zero => exact ⟨[], by simp, by simpa using logged_collect properties definitions o⟩
  | succ n ih =>
    obtain ⟨settled, hsettled, hlog⟩ := ih
    have hround : (settleRound properties _).Logged _ := hlog.settleRound
    rw [append_assoc, ← Function.iterate_succ_apply' (settleRound properties)] at hround
    refine ⟨_, fun c hc => ?_, hround⟩
    rcases mem_append.mp hc with hc | hc
    · exact hsettled c hc
    · obtain ⟨name, p, hwaits, rfl⟩ := (mem_roundLog_iff hlog.sound).mp hc
      exact ⟨n, name, p, hwaits, rfl⟩

/-- What waits in a round was not settled by what came before all rounds. -/
theorem Waits.of_rounds {n : Nat}
    (h : ((settleRound properties)^[n] (collect properties definitions o)).Waits
      properties name p) :
    properties.get? name = some p ∧
      (∀ c ∈ collectLog properties definitions o, c.name = name → Compiles c.definition) ∧
      ∀ c ∈ collectLog properties definitions o, c.slot = propertySlot name →
        ¬Compiles c.definition := by
  obtain ⟨settled, -, hlog⟩ := logged_rounds properties definitions o n
  obtain ⟨hget, hexcluded, hfilled, -⟩ := hlog.waits_iff.mp h
  exact ⟨hget, fun c hc => hexcluded c (mem_append_left _ hc),
    fun c hc => hfilled c (mem_append_left _ hc)⟩

end Registry

end StyleGrammar
