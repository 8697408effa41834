import StyleGrammar.Proofs.Registry.Rounds

/-!
# What the slots of properties hold

When a build has ended, the slot of a property that was taken up holds its
definition, or what the options replace it with.  The slot of another property,
if it is filled at all, holds the definition in the table (`shows_property`); it
is filled unless a broken definition of the table of syntaxes has the name of the
property (`isFilled_iff_of_build`).
-/

namespace StyleGrammar

open List Definition

namespace Registry

variable {r : Registry} {log : List Compilation} {properties : Table Property}
  {definitions : Table String} {o : RegistryOptions} {name slot text : String} {p : Property}
  {id : NodeId}

/-! ## What a log says of a slot -/

/-- A slot shows the last definition of it that compiles. -/
theorem Logged.shows_of_last (h : r.Logged log)
    (hlast : Arena.lastDefinition? (definitionsOf log) slot = some text) :
    ∃ id, r.arena.lookup? slot = some id ∧ r.arena.Shows id text := by
  obtain ⟨before, hledger⟩ := Arena.ledger_ofDefinitions (definitionsOf log)
  obtain ⟨id, hid, hfilled⟩ := hledger.filled hlast
  rw [h.arena_eq]
  exact ⟨id, hid, hfilled.shows⟩

/-- A slot that is filled shows one of the definitions of it. -/
theorem Logged.shows_of_filled (h : r.Logged log) (hid : r.arena.lookup? slot = some id)
    (hfilled : r.arena.isFilled id = true) :
    ∃ c ∈ log, c.slot = slot ∧ Compiles c.definition ∧ r.arena.Shows id c.definition := by
  obtain ⟨c, hc, hslot, hcompiles⟩ := (h.isFilled_iff hid).mp hfilled
  have hsome : Arena.lastDefinition? (definitionsOf log) slot ≠ none := fun hnone =>
    Arena.lastDefinition?_eq_none_iff.mp hnone _ (mem_definitionsOf.mpr ⟨c, hc, hslot, rfl⟩)
      hcompiles
  obtain ⟨text, htext⟩ := Option.ne_none_iff_exists'.mp hsome
  obtain ⟨id', hid', hshows⟩ := h.shows_of_last htext
  cases hid.symm.trans hid'
  obtain ⟨hmem, hcompiles⟩ := Arena.mem_of_lastDefinition? htext
  obtain ⟨c, hc, hslot, rfl⟩ := mem_definitionsOf.mp hmem
  exact ⟨c, hc, hslot, hcompiles, hshows⟩

/-! ## The entries of the log of a build -/

theorem contains_iff_mem_names : definitions.contains name = true ↔ name ∈ definitions.names := by
  rw [Table.contains_iff]
  constructor
  · rintro ⟨definition, hget⟩
    exact mem_map.mpr ⟨_, Table.mem_rows_of_get? hget, rfl⟩
  · intro hmem
    obtain ⟨row, hrow, rfl⟩ := mem_map.mp hmem
    by_contra hnone
    have hlookup : definitions.rows.lookup row.1 = none := Option.eq_none_iff_forall_ne_some.mpr
      fun definition hget => hnone ⟨definition, hget⟩
    simpa using lookup_eq_none_iff.mp hlookup row hrow

theorem mem_definitionOrder : name ∈ definitionOrder definitions o ↔ name ∈ definitions.names := by
  unfold definitionOrder
  rw [mem_append, mem_filter, mem_mergeSort, mem_filter, contains_iff_mem_names]
  by_cases hfirst : name ∈ o.firstDefinitions <;> simp [hfirst]

theorem mem_collectLog_iff {c : Compilation} : c ∈ collectLog properties definitions o ↔
    (∃ name ∈ definitions.names, c = namedCompilation definitions o name) ∨
      ∃ name p, (name, p) ∈ properties.rows ∧ o.admits name p.status? = true ∧
        c = propertyCompilation o name p := by
  unfold collectLog
  rw [mem_append, mem_map, mem_map]
  refine or_congr ⟨?_, ?_⟩ ⟨?_, ?_⟩
  · rintro ⟨name, hname, rfl⟩
    exact ⟨name, mem_definitionOrder.mp hname, rfl⟩
  · rintro ⟨name, hname, rfl⟩
    exact ⟨name, mem_definitionOrder.mpr hname, rfl⟩
  · rintro ⟨row, hrow, rfl⟩
    obtain ⟨hmem, hadmits⟩ := mem_filter.mp hrow
    exact ⟨row.1, row.2, hmem, hadmits, rfl⟩
  · rintro ⟨name, p, hmem, hadmits, rfl⟩
    exact ⟨(name, p), mem_filter.mpr ⟨hmem, hadmits⟩, rfl⟩

theorem logged_build? (hbuild : build? properties definitions o = some r) :
    ∃ settled, (∀ c ∈ settled, Waited properties definitions o c) ∧
      r.Logged (collectLog properties definitions o ++ settled) ∧ pending properties r = [] := by
  obtain ⟨n, hn, hpending⟩ := settleAll_eq_some_iff.mp hbuild
  obtain ⟨settled, hsettled, hlog⟩ := logged_rounds properties definitions o n
  exact ⟨settled, hsettled, hn ▸ hlog, hpending⟩

/-- The definition of a property that is taken up is the last one of its slot, if it compiles. -/
theorem lastDefinition?_of_admitted (hnames : properties.names.Nodup)
    (hmem : (name, p) ∈ properties.rows) (hadmits : o.admits name p.status? = true)
    (hcompiles : Compiles (propertyCompilation o name p).definition) {settled : List Compilation}
    (hsettled : ∀ c ∈ settled, Waited properties definitions o c) :
    Arena.lastDefinition? (definitionsOf (collectLog properties definitions o ++ settled))
      (propertySlot name) = some (propertyCompilation o name p).definition := by
  have hc : propertyCompilation o name p ∈ collectLog properties definitions o :=
    mem_collectLog_iff.mpr (.inr ⟨name, p, hmem, hadmits, rfl⟩)
  have hnone : Arena.lastDefinition? (definitionsOf settled) (propertySlot name) = none := by
    refine Arena.lastDefinition?_eq_none_iff.mpr fun text htext => ?_
    obtain ⟨c', hc', hslot, -⟩ := mem_definitionsOf.mp htext
    obtain ⟨n, name', p', hwaits, rfl⟩ := hsettled c' hc'
    cases propertySlot_inj.mp hslot
    exact absurd hcompiles (hwaits.of_rounds.2.2 _ hc rfl)
  have hown : Arena.lastDefinition? (definitionsOf ((properties.rows.filter fun row =>
      o.admits row.1 row.2.status?).map fun row => propertyCompilation o row.1 row.2))
      (propertySlot name) = some (propertyCompilation o name p).definition := by
    have hunique {text : String} (htext : (propertySlot name, text) ∈ definitionsOf
        ((properties.rows.filter fun row => o.admits row.1 row.2.status?).map fun row =>
          propertyCompilation o row.1 row.2)) :
        text = (propertyCompilation o name p).definition := by
      obtain ⟨c', hc', hslot, rfl⟩ := mem_definitionsOf.mp htext
      obtain ⟨row, hrow, rfl⟩ := mem_map.mp hc'
      obtain ⟨name', p'⟩ := row
      cases propertySlot_inj.mp hslot
      have hp := lookup_eq_some_of_mem hnames (mem_filter.mp hrow).1
      cases hp.symm.trans (lookup_eq_some_of_mem hnames hmem)
      rfl
    refine (Arena.lastDefinition?_eq_some_iff fun t t' ht _ ht' _ => ?_).mpr ⟨?_, hcompiles⟩
    · rw [hunique ht, hunique ht']
    · refine mem_definitionsOf.mpr ⟨propertyCompilation o name p, mem_map.mpr ⟨(name, p), ?_, rfl⟩,
        rfl, rfl⟩
      exact mem_filter.mpr ⟨hmem, hadmits⟩
  rw [collectLog, definitionsOf, map_append, map_append, ← definitionsOf, ← definitionsOf,
    ← definitionsOf, Arena.lastDefinition?_append, Arena.lastDefinition?_append, hnone, hown]
  rfl

/-- When a build has ended, the slot of a property that is taken up shows the replacement of its
definition, if the options have one that compiles.  The slot of another property, if it is filled,
shows the definition in the table, whatever the options replace. -/
theorem shows_property (hnames : properties.names.Nodup)
    (hbuild : build? properties definitions o = some r) (hmem : (name, p) ∈ properties.rows) :
    (o.admits name p.status? = true → ∀ text, o.propertyDefinitions.get? name = some text →
      Compiles text → ∃ id, r.arena.lookup? (propertySlot name) = some id ∧
        r.arena.Shows id text) ∧
    (o.admits name p.status? = false → propertySlot name ∉ definitions.names →
      ∀ id, r.arena.lookup? (propertySlot name) = some id → r.arena.isFilled id = true →
        r.arena.Shows id p.definition) := by
  obtain ⟨settled, hsettled, hlog, -⟩ := logged_build? hbuild
  have hget := lookup_eq_some_of_mem hnames hmem
  refine ⟨fun hadmits text htext hcompiles => ?_, fun hadmits hother id hid hfilled => ?_⟩
  · have hdefinition : (propertyCompilation o name p).definition = text := by
      rw [propertyCompilation, htext, Option.getD_some]
    have hlast := lastDefinition?_of_admitted hnames hmem hadmits (hdefinition ▸ hcompiles) hsettled
    exact hlog.shows_of_last (hdefinition ▸ hlast)
  · obtain ⟨c, hc, hslot, -, hshows⟩ := hlog.shows_of_filled hid hfilled
    rcases mem_append.mp hc with hc | hc
    · rcases mem_collectLog_iff.mp hc with ⟨name', hname', rfl⟩ | ⟨name', p', hmem', hadmits', rfl⟩
      · exact absurd (hslot ▸ hname') hother
      · cases propertySlot_inj.mp hslot
        cases hget.symm.trans (lookup_eq_some_of_mem hnames hmem')
        rw [hadmits] at hadmits'
        cases hadmits'
    · obtain ⟨n, name', p', hwaits, rfl⟩ := hsettled c hc
      cases propertySlot_inj.mp hslot
      cases hget.symm.trans hwaits.get_eq
      exact hshows

/-- A property that is taken up refers to one that is not. -/
def referring : Table Property :=
  ⟨[("p", { (default : Property) with definition := "<'q'>", status? := some "standard" }),
    ("q", { (default : Property) with definition := "a", status? := some "nonstandard" })]⟩

/-- Options that replace the definition of the property that is not taken up. -/
def replacing : RegistryOptions :=
  { RegistryOptions.standard with propertyDefinitions := ⟨[("q", "b")]⟩ }

/-- The registry of `referring` after the only round. -/
def referred (o : RegistryOptions) : Registry :=
  (settleRound referring)^[1] (collect referring .empty o)

theorem shows_referred : ∃ r id, build? referring .empty replacing = some r ∧
    r.arena.lookup? (propertySlot "q") = some id ∧ r.arena.isFilled id = true ∧
    r.arena.Shows id "a" := by
  obtain ⟨hpending, hid, hfilled⟩ : pending referring (referred replacing) = [] ∧
      (referred replacing).arena.lookup? (propertySlot "q") = some 1 ∧
      (referred replacing).arena.isFilled 1 = true := by decide +kernel
  have hbuild : build? referring .empty replacing = some (referred replacing) :=
    build?_of_rounds 1 hpending
  have hmem : referring.rows[1] ∈ referring.rows := List.getElem_mem _
  exact ⟨_, 1, hbuild, hid, hfilled,
    (shows_property (by decide) hbuild hmem).2 (by decide) (by decide) 1 hid hfilled⟩

/-- The replacement of a definition does not reach a property that is not taken up. -/
theorem not_shows_replacement : ∃ r id, build? referring .empty replacing = some r ∧
    replacing.propertyDefinitions.get? "q" = some "b" ∧ Compiles "b" ∧
    r.arena.lookup? (propertySlot "q") = some id ∧ r.arena.isFilled id = true ∧
    ¬r.arena.Shows id "b" := by
  obtain ⟨hpending, hid, hfilled, hroot, hrender⟩ : pending referring (referred replacing) = [] ∧
      (referred replacing).arena.lookup? (propertySlot "q") = some 1 ∧
      (referred replacing).arena.isFilled 1 = true ∧
      (Arena.empty.define "b").1 = .ok 0 ∧
      (referred replacing).arena.render 1 ≠ (Arena.empty.define "b").2.render 0 := by
    decide +kernel
  exact ⟨_, 1, build?_of_rounds 1 hpending, by decide,
    (compiles_iff _).mpr ⟨0, hroot⟩, hid, hfilled,
    fun hshows => hrender (hshows.render_eq hroot)⟩

/-- No definition has the slot of a property, if their names have no apostrophes. -/
theorem ne_propertySlot (hquotes : ∀ name ∈ definitions.names, '\'' ∉ name.toList)
    (hname : slot ∈ definitions.names) : slot ≠ propertySlot name := by
  rintro rfl
  refine hquotes _ hname ?_
  rw [toList_propertySlot]
  exact mem_cons_self

/-- When nothing is pending, the slot of a property that was not taken up is filled if it came up,
unless a broken definition of the other table has its name. -/
theorem exists_compiled (hnames : properties.names.Nodup)
    (hbuild : build? properties definitions o = some r) {settled : List Compilation}
    (hsettled : ∀ c ∈ settled, Waited properties definitions o c)
    (hlog : r.Logged (collectLog properties definitions o ++ settled))
    (hpending : pending properties r = []) (hmem : (name, p) ∈ properties.rows)
    (hadmits : o.admits name p.status? = false) (hcompiles : Compiles p.definition)
    (hnamed : name ∈ definitions.names →
      Compiles (namedCompilation definitions o name).definition)
    (hid : r.arena.lookup? (propertySlot name) = some id) :
    ∃ c ∈ collectLog properties definitions o ++ settled,
      c.slot = propertySlot name ∧ Compiles c.definition := by
  have hget := lookup_eq_some_of_mem hnames hmem
  -- Since nothing is pending, the slot is filled or a fault was filed under the name.
  by_contra hblank
  push Not at hblank
  have hnot := (pending_eq_nil_iff hlog.sound).mp hpending name p
  rw [hlog.waits_iff] at hnot
  have hfiled : ∃ c ∈ collectLog properties definitions o ++ settled,
      c.name = name ∧ ¬Compiles c.definition := by
    by_contra hnone
    push Not at hnone
    exact hnot ⟨hget, hnone, hblank, id, hid⟩
  obtain ⟨c, hc, hname, hbroken⟩ := hfiled
  rcases mem_append.mp hc with hc | hc
  · rcases mem_collectLog_iff.mp hc with ⟨name', hname', rfl⟩ | ⟨name', p', hmem', hadmits', rfl⟩
    · obtain rfl : name' = name := hname
      exact hbroken (hnamed hname')
    · obtain rfl : name' = name := hname
      cases hget.symm.trans (lookup_eq_some_of_mem hnames hmem')
      rw [hadmits] at hadmits'
      cases hadmits'
  · obtain ⟨n, name', p', hwaits, rfl⟩ := hsettled c hc
    by_cases hbare : Bare name'
    · obtain rfl : name' = name := (filedName_propertySlot_iff.mpr hbare).symm.trans hname
      cases hget.symm.trans hwaits.get_eq
      exact hbroken hcompiles
    · rw [build?_eq_none ⟨hwaits, hbroken, hbare⟩] at hbuild
      cases hbuild

/-- When a build has ended, a slot of a property with a definition that compiles is filled, unless
the property was not taken up and a broken definition of the other table has its name. -/
theorem isFilled_iff_of_build (hnames : properties.names.Nodup)
    (hquotes : ∀ name ∈ definitions.names, '\'' ∉ name.toList)
    (hbuild : build? properties definitions o = some r) (hmem : (name, p) ∈ properties.rows)
    (hcompiles : Compiles p.definition) (hkept : o.propertyDefinitions.get? name = none)
    (hid : r.arena.lookup? (propertySlot name) = some id) :
    r.arena.isFilled id = true ↔ o.admits name p.status? = true ∨
      ¬(name ∈ definitions.names ∧ ¬Compiles (namedCompilation definitions o name).definition) := by
  obtain ⟨settled, hsettled, hlog, hpending⟩ := logged_build? hbuild
  have hget := lookup_eq_some_of_mem hnames hmem
  rw [hlog.isFilled_iff hid]
  constructor
  · rintro ⟨c, hc, hslot, -⟩
    rcases mem_append.mp hc with hc | hc
    · rcases mem_collectLog_iff.mp hc with ⟨name', hname', rfl⟩ | ⟨name', p', hmem', hadmits', rfl⟩
      · exact absurd hslot (ne_propertySlot hquotes hname')
      · cases propertySlot_inj.mp hslot
        cases hget.symm.trans (lookup_eq_some_of_mem hnames hmem')
        exact .inl hadmits'
    · obtain ⟨n, name', p', hwaits, rfl⟩ := hsettled c hc
      cases propertySlot_inj.mp hslot
      refine .inr fun ⟨hname, hbroken⟩ => hbroken (hwaits.of_rounds.2.1 _ ?_ rfl)
      exact mem_collectLog_iff.mpr (.inl ⟨name, hname, rfl⟩)
  · intro hcase
    cases hadmits : o.admits name p.status? with
    | true =>
      refine ⟨propertyCompilation o name p, mem_append_left _ ?_, rfl, ?_⟩
      · exact mem_collectLog_iff.mpr (.inr ⟨name, p, hmem, hadmits, rfl⟩)
      · rwa [propertyCompilation, hkept, Option.getD_none]
    | false =>
      have hnamed := hcase.resolve_left (Bool.eq_false_iff.mp hadmits)
      exact exists_compiled hnames hbuild hsettled hlog hpending hmem hadmits hcompiles
        (fun hname => not_not.mp fun hbroken => hnamed ⟨hname, hbroken⟩) hid

theorem isFilled_referred : ∃ r id, build? referring .empty .standard = some r ∧
    r.arena.lookup? (propertySlot "q") = some id ∧ r.arena.isFilled id = true := by
  obtain ⟨hpending, hid⟩ : pending referring (referred .standard) = [] ∧
      (referred .standard).arena.lookup? (propertySlot "q") = some 1 := by decide +kernel
  have hbuild : build? referring .empty .standard = some (referred .standard) :=
    build?_of_rounds 1 hpending
  have hmem : referring.rows[1] ∈ referring.rows := List.getElem_mem _
  have hiff := isFilled_iff_of_build (by decide) (by simp [Table.names, Table.empty]) hbuild hmem
    (by decide) (by decide) hid
  exact ⟨_, 1, hbuild, hid, hiff.mpr (.inr (by simp [Table.names, Table.empty]))⟩

/-- A broken definition of the same name keeps the slot of a property from being filled. -/
theorem blank_beside_broken : ∃ r id, build? referring ⟨[("q", "[")]⟩ .standard = some r ∧
    Compiles "a" ∧ RegistryOptions.standard.propertyDefinitions.get? "q" = none ∧
    r.arena.lookup? (propertySlot "q") = some id ∧ r.arena.isFilled id = false := by
  obtain ⟨hpending, hcompiles, hkept, hid, hblank⟩ :
      pending referring (collect referring ⟨[("q", "[")]⟩ .standard) = [] ∧ Compiles "a" ∧
        RegistryOptions.standard.propertyDefinitions.get? "q" = none ∧
        (collect referring ⟨[("q", "[")]⟩ .standard).arena.lookup? (propertySlot "q") = some 2 ∧
        (collect referring ⟨[("q", "[")]⟩ .standard).arena.isFilled 2 = false := by decide +kernel
  exact ⟨_, 2, build?_of_rounds 0 hpending, hcompiles, hkept, hid, hblank⟩

end Registry

end StyleGrammar
