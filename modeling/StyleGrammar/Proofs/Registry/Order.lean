import StyleGrammar.Proofs.Matching.Renaming
import StyleGrammar.Proofs.Registry.Entries

/-!
# The order of tables

What a slot shows in the end is told by the rows of the tables, whatever their
order is (`Defines`).  So the rows may be permuted, and rows that do not compile
may be added: the registries that are built differ only in the indices of their
nodes (`Registry.Like`), and answer all questions alike.
-/

namespace StyleGrammar

open List Definition

theorem Table.get?_of_perm {α : Type} {t t' : Table α} (h : t.rows.Perm t'.rows)
    (hnames : t.names.Nodup) (name : String) : t.get? name = t'.get? name := by
  have hnames' : t'.names.Nodup := (h.map Prod.fst).nodup_iff.mp hnames
  refine Option.ext fun a => ?_
  constructor
  · exact fun hget => lookup_eq_some_of_mem hnames' (h.mem_iff.mp (mem_rows_of_get? hget))
  · exact fun hget => lookup_eq_some_of_mem hnames (h.mem_iff.mpr (mem_rows_of_get? hget))

namespace Registry

variable {r r' : Registry} {properties properties' : Table Property}
  {definitions definitions' : Table String} {o : RegistryOptions} {name slot text text' : String}
  {p : Property} {id : NodeId} {settled : List Compilation} {R : NodeId → NodeId → Prop}

/-! ## Registries that are alike -/

/-- Entries that differ only in the nodes that they refer to. -/
structure EntryLike (R : NodeId → NodeId → Prop) (e e' : PropertyEntry) : Prop where
  root : R e.root e'.root
  name_eq : e.name = e'.name
  definition_eq : e.definition = e'.definition
  forbidden_eq : e.forbidden = e'.forbidden
  property_eq : e.property = e'.property

/-- Registries with the same properties, whose grammars differ only in the indices of their
nodes. -/
structure Like (r r' : Registry) (R : NodeId → NodeId → Prop) : Prop where
  arena : Renaming r.arena r'.arena R
  entries : ∀ name, Option.Rel (EntryLike R) (r.property? name) (r'.property? name)

theorem Like.matcher (h : r.Like r' R) {e e' : PropertyEntry} (he : EntryLike R e e') :
    (r.matcher e).Like (r'.matcher e') R := by
  unfold Registry.matcher
  rw [he.forbidden_eq]
  exact h.arena.matcher e'.forbidden

theorem Like.verdict_eq (h : r.Like r' R) {e e' : PropertyEntry} (he : EntryLike R e e')
    (vs : List Value) : r.verdict e vs = r'.verdict e' vs := by
  unfold verdict
  rcases (h.matcher he).takeAll vs he.root with ⟨index, heq, heq'⟩ | ⟨q, q', hq, heq, heq'⟩ <;>
    rw [heq, heq']
  simp only [(h.matcher he).isSatisfied_eq hq]

theorem Like.cases (h : r.Like r' R) (name : String) :
    (∃ e e', r.property? name = some e ∧ r'.property? name = some e' ∧ EntryLike R e e') ∨
      r.property? name = none ∧ r'.property? name = none :=
  rel_cases (h.entries name)

theorem answers_of_none (h : r.property? name = none) (text : String) :
    r.validate name text = .error (.unknownProperty name) ∧
      r.suggest name text = .error (.unknownProperty name) := by
  have hdeclaration : r.declaration name text = .error (.unknownProperty name) := by
    unfold declaration entry
    rw [h]
    rfl
  unfold validate suggest
  rw [hdeclaration]
  exact ⟨rfl, rfl⟩

theorem Like.validate_eq (h : r.Like r' R) (name text : String) :
    r.validate name text = r'.validate name text := by
  rcases h.cases name with ⟨e, e', heq, heq', he⟩ | ⟨heq, heq'⟩
  · rw [Registry.validate_eq heq, Registry.validate_eq heq']
    simp only [h.verdict_eq he]
  · rw [(answers_of_none heq text).1, (answers_of_none heq' text).1]

theorem Like.suggest_eq (h : r.Like r' R) (name text : String) :
    r.suggest name text = r'.suggest name text := by
  rcases h.cases name with ⟨e, e', heq, heq', he⟩ | ⟨heq, heq'⟩
  · have hstart := Progress.like_start he.root
    rw [Registry.suggest_eq heq, Registry.suggest_eq heq']
    simp only [(h.matcher he).suggestionsAfter_eq _ hstart]
  · rw [(answers_of_none heq text).2, (answers_of_none heq' text).2]

/-! ## What the tables say of a slot -/

/-- The definition that is compiled for a property: that of the options if it is taken up and they
have one, or else that of the table. -/
def usedDefinition (o : RegistryOptions) (name : String) (p : Property) : String :=
  if o.admits name p.status? then (propertyCompilation o name p).definition else p.definition

/-- Whether a text is what the slot of a name shows, when it came up.  The slot of a property that
is not taken up stays unfilled beside a broken definition of the same name. -/
def Defines (properties : Table Property) (definitions : Table String) (o : RegistryOptions)
    (slot text : String) : Prop :=
  Compiles text ∧
    (slot ∈ definitions.names ∧ text = (namedCompilation definitions o slot).definition ∨
      ∃ name p, (name, p) ∈ properties.rows ∧ slot = propertySlot name ∧
        text = usedDefinition o name p ∧
        (o.admits name p.status? = false → name ∈ definitions.names →
          Compiles (namedCompilation definitions o name).definition))

theorem defines_of_mem (hsettled : ∀ c ∈ settled, Waited properties definitions o c)
    {c : Compilation} (hc : c ∈ collectLog properties definitions o ++ settled)
    (hcompiles : Compiles c.definition) :
    Defines properties definitions o c.slot c.definition := by
  refine ⟨hcompiles, ?_⟩
  rcases mem_append.mp hc with hc | hc
  · rcases mem_collectLog_iff.mp hc with ⟨name, hname, rfl⟩ | ⟨name, p, hmem, hadmits, rfl⟩
    · exact .inl ⟨hname, rfl⟩
    · refine .inr ⟨name, p, hmem, rfl, ?_, fun hnot => ?_⟩
      · rw [usedDefinition, if_pos hadmits]
      · rw [hadmits] at hnot
        cases hnot
  · obtain ⟨n, name, p, hwaits, rfl⟩ := hsettled c hc
    obtain ⟨hget, hfiled, hblank⟩ := hwaits.of_rounds
    have hmem := Table.mem_rows_of_get? hget
    have hadmits : o.admits name p.status? = false := by
      by_contra hadmits
      have hc' : propertyCompilation o name p ∈ collectLog properties definitions o :=
        mem_collectLog_iff.mpr (.inr ⟨name, p, hmem, Bool.not_eq_false _ ▸ hadmits, rfl⟩)
      exact hblank _ hc' rfl (hfiled _ hc' rfl)
    refine .inr ⟨name, p, hmem, rfl, ?_, fun _ hname => ?_⟩
    · rw [usedDefinition, hadmits]
      rfl
    · exact hfiled _ (mem_collectLog_iff.mpr (.inl ⟨name, hname, rfl⟩)) rfl

theorem Defines.unique (hnames : properties.names.Nodup)
    (hquotes : ∀ name ∈ definitions.names, '\'' ∉ name.toList)
    (h : Defines properties definitions o slot text)
    (h' : Defines properties definitions o slot text') : text = text' := by
  rcases h.2 with ⟨hname, rfl⟩ | ⟨name, p, hmem, rfl, rfl, -⟩ <;>
    rcases h'.2 with ⟨hname', rfl⟩ | ⟨name', p', hmem', hslot, rfl, -⟩
  · rfl
  · exact absurd hslot (ne_propertySlot hquotes hname)
  · exact absurd rfl (ne_propertySlot hquotes hname')
  · cases propertySlot_inj.mp hslot
    cases (lookup_eq_some_of_mem hnames hmem).symm.trans (lookup_eq_some_of_mem hnames hmem')
    rfl

/-- When a build has ended, a slot that came up shows what the tables say of it. -/
theorem lastDefinition?_eq_some_iff_defines (hnames : properties.names.Nodup)
    (hquotes : ∀ name ∈ definitions.names, '\'' ∉ name.toList)
    (hbuild : build? properties definitions o = some r)
    (hsettled : ∀ c ∈ settled, Waited properties definitions o c)
    (hlog : r.Logged (collectLog properties definitions o ++ settled))
    (hpending : pending properties r = []) (hid : r.arena.lookup? slot = some id) :
    Arena.lastDefinition? (definitionsOf (collectLog properties definitions o ++ settled)) slot =
      some text ↔ Defines properties definitions o slot text := by
  have hdefines {t : String} (ht : (slot, t) ∈ definitionsOf
      (collectLog properties definitions o ++ settled)) (hcompiles : Compiles t) :
      Defines properties definitions o slot t := by
    obtain ⟨c, hc, rfl, rfl⟩ := mem_definitionsOf.mp ht
    exact defines_of_mem hsettled hc hcompiles
  rw [Arena.lastDefinition?_eq_some_iff fun t t' ht hcompiles ht' hcompiles' =>
    (hdefines ht hcompiles).unique hnames hquotes (hdefines ht' hcompiles')]
  refine ⟨fun ⟨ht, hcompiles⟩ => hdefines ht hcompiles, fun h => ⟨?_, h.1⟩⟩
  have hexists : ∃ c ∈ collectLog properties definitions o ++ settled,
      c.slot = slot ∧ Compiles c.definition := by
    rcases h.2 with ⟨hname, rfl⟩ | ⟨name, p, hmem, rfl, rfl, hnamed⟩
    · refine ⟨namedCompilation definitions o slot, mem_append_left _ ?_, rfl, h.1⟩
      exact mem_collectLog_iff.mpr (.inl ⟨slot, hname, rfl⟩)
    · have hcompiles := h.1
      unfold usedDefinition at hcompiles
      cases hadmits : o.admits name p.status? with
      | true =>
        rw [hadmits, if_pos rfl] at hcompiles
        refine ⟨propertyCompilation o name p, mem_append_left _ ?_, rfl, hcompiles⟩
        exact mem_collectLog_iff.mpr (.inr ⟨name, p, hmem, hadmits, rfl⟩)
      | false =>
        rw [hadmits, if_neg Bool.false_ne_true] at hcompiles
        exact exists_compiled hnames hbuild hsettled hlog hpending hmem hadmits hcompiles
          (hnamed hadmits) hid
  obtain ⟨c, hc, rfl, hcompiles⟩ := hexists
  rw [h.unique hnames hquotes (defines_of_mem hsettled hc hcompiles)]
  exact mem_definitionsOf.mpr ⟨c, hc, rfl, rfl⟩

/-- Without apostrophes in the names of properties, building ends. -/
theorem exists_build? (hquotes : ∀ name ∈ properties.names, '\'' ∉ name.toList)
    (definitions : Table String) (o : RegistryOptions) :
    ∃ r, build? properties definitions o = some r := by
  refine exists_settleAll (logged_collect properties definitions o) fun n name p hwaits => ?_
  exact .inr (bare_of_not_mem (hquotes name hwaits.mem_names))

/-! ## Tables with the same rows -/

section Rows

variable {broken : List (String × Property)} {first' : List String}
  (hproperties : (properties.rows ++ broken).Perm properties'.rows)
  (hdefinitions : definitions.rows.Perm definitions'.rows)
  (hnamed : definitions.names.Nodup)
  (hbroken : ∀ row ∈ broken, ¬Compiles (usedDefinition o row.1 row.2))

include hdefinitions hnamed in
theorem namedCompilation_of_perm (name : String) : namedCompilation definitions o name =
    namedCompilation definitions' { o with firstDefinitions := first' } name := by
  unfold namedCompilation
  rw [Table.get?_of_perm hdefinitions hnamed name]

theorem usedDefinition_reordered (o : RegistryOptions) (first' : List String) (name : String)
    (p : Property) : usedDefinition { o with firstDefinitions := first' } name p =
      usedDefinition o name p := rfl

include hproperties hdefinitions hnamed hbroken in
/-- Rows may be permuted, and broken rows say nothing of any slot. -/
theorem defines_iff_of_perm : Defines properties definitions o slot text ↔
    Defines properties' definitions' { o with firstDefinitions := first' } slot text := by
  have hcompilation (name : String) : namedCompilation definitions o name =
      namedCompilation definitions' { o with firstDefinitions := first' } name :=
    namedCompilation_of_perm hdefinitions hnamed name
  have hmem {name : String} : name ∈ definitions.names ↔ name ∈ definitions'.names :=
    (hdefinitions.map Prod.fst).mem_iff
  unfold Defines
  simp only [hcompilation, hmem, usedDefinition_reordered]
  refine and_congr_right fun hcompiles => or_congr_right ?_
  constructor
  · rintro ⟨name, p, hrow, hrest⟩
    exact ⟨name, p, hproperties.mem_iff.mp (mem_append_left _ hrow), hrest⟩
  · rintro ⟨name, p, hrow, hslot, rfl, hrest⟩
    rcases mem_append.mp (hproperties.mem_iff.mpr hrow) with hrow | hrow
    · exact ⟨name, p, hrow, hslot, rfl, hrest⟩
    · have hnot := hbroken (name, p) hrow
      exact absurd hcompiles hnot

include hproperties hbroken in
theorem takenUp_iff_of_perm : TakenUp properties o name p ↔
    TakenUp properties' { o with firstDefinitions := first' } name p := by
  constructor
  · rintro ⟨hmem, hadmits, hcompiles⟩
    exact ⟨hproperties.mem_iff.mp (mem_append_left _ hmem), hadmits, hcompiles⟩
  · rintro ⟨hmem, hadmits, hcompiles⟩
    refine ⟨?_, hadmits, hcompiles⟩
    refine (mem_append.mp (hproperties.mem_iff.mpr hmem)).resolve_right fun hrow => ?_
    have hnot := hbroken (name, p) hrow
    have hadmits' : o.admits name p.status? = true := hadmits
    rw [usedDefinition, if_pos hadmits'] at hnot
    exact hnot hcompiles

end Rows

/-- A registry does not depend on the order of the tables, nor on which definitions come first, nor
on properties that do not compile.  Its grammars are the same up to the indices of their nodes, and
so are the answers to all questions. -/
theorem build_of_perm {broken : List (String × Property)} {first' : List String}
    (hproperties : (properties.rows ++ broken).Perm properties'.rows)
    (hdefinitions : definitions.rows.Perm definitions'.rows)
    (hnames : properties'.names.Nodup) (hnamed : definitions.names.Nodup)
    (hquotes : ∀ name ∈ properties'.names, '\'' ∉ name.toList)
    (hquotes' : ∀ name ∈ definitions.names, '\'' ∉ name.toList)
    (hbroken : ∀ row ∈ broken, ¬Compiles (usedDefinition o row.1 row.2)) :
    ∃ r r', build? properties definitions o = some r ∧
      build? properties' definitions' { o with firstDefinitions := first' } = some r' ∧
      (∃ R, r.Like r' R) ∧
      ∀ name text, r.validate name text = r'.validate name text ∧
        r.suggest name text = r'.suggest name text := by
  have hrows : (properties.names ++ broken.map Prod.fst).Perm properties'.names := by
    simpa [Table.names] using hproperties.map Prod.fst
  have hkept : ∀ name ∈ properties.names, '\'' ∉ name.toList := fun name hname =>
    hquotes name (hrows.mem_iff.mp (mem_append_left _ hname))
  have hkept' : ∀ name ∈ definitions'.names, '\'' ∉ name.toList := fun name hname =>
    hquotes' name ((hdefinitions.map Prod.fst).mem_iff.mpr hname)
  have hnodup : properties.names.Nodup := (hrows.nodup_iff.mpr hnames).of_append_left
  obtain ⟨r, hbuild⟩ := exists_build? hkept definitions o
  obtain ⟨r', hbuild'⟩ := exists_build? hquotes definitions' { o with firstDefinitions := first' }
  obtain ⟨settled, hsettled, hlog, hpending⟩ := logged_build? hbuild
  obtain ⟨settled', hsettled', hlog', hpending'⟩ := logged_build? hbuild'
  obtain ⟨before, hledger⟩ := Arena.ledger_ofDefinitions
    (definitionsOf (collectLog properties definitions o ++ settled))
  obtain ⟨before', hledger'⟩ := Arena.ledger_ofDefinitions
    (definitionsOf (collectLog properties' definitions' { o with firstDefinitions := first' } ++
      settled'))
  rw [← hlog.arena_eq] at hledger
  rw [← hlog'.arena_eq] at hledger'
  obtain ⟨R, hrenaming, hR⟩ := hledger.exists_renaming hledger' fun slot id id' hid hid' => by
    refine Option.ext fun text => ?_
    rw [lastDefinition?_eq_some_iff_defines hnodup hquotes' hbuild hsettled hlog hpending hid,
      lastDefinition?_eq_some_iff_defines hnames hkept' hbuild' hsettled' hlog' hpending' hid']
    exact defines_iff_of_perm hproperties hdefinitions hnamed hbroken
  have hlike : r.Like r' R := by
    refine ⟨hrenaming, fun name => ?_⟩
    rcases property?_cases hbuild name with ⟨p, root, htaken, hroot, he⟩ | ⟨hnone, he⟩ <;>
      rcases property?_cases hbuild' name with ⟨p', root', htaken', hroot', he'⟩ | ⟨hnone', he'⟩ <;>
      rw [he, he']
    · have hmem := ((takenUp_iff_of_perm hproperties hbroken).mpr htaken').mem
      cases (lookup_eq_some_of_mem hnodup htaken.mem).symm.trans (lookup_eq_some_of_mem hnodup hmem)
      exact .some ⟨hR _ _ _ hroot hroot', rfl, rfl, rfl, rfl⟩
    · exact absurd ((takenUp_iff_of_perm hproperties hbroken).mp htaken) (hnone' p)
    · exact absurd ((takenUp_iff_of_perm hproperties hbroken).mpr htaken') (hnone p')
    · exact .none
  exact ⟨r, r', hbuild, hbuild', ⟨R, hlike⟩, fun name text =>
    ⟨hlike.validate_eq name text, hlike.suggest_eq name text⟩⟩

/-- A property with a definition that does not compile. -/
def unreadable : String × Property :=
  ("s", { (default : Property) with definition := "[", status? := some "standard" })

def chained : Table String := ⟨[("u", "a"), ("v", "<u>")]⟩

/-- Two tables in reverse order, beside a property that does not compile. -/
theorem build_reversed : ∃ r r', build? referring chained .standard = some r ∧
    build? ⟨(referring.rows ++ [unreadable]).reverse⟩ ⟨chained.rows.reverse⟩
      { RegistryOptions.standard with firstDefinitions := ["v"] } = some r' ∧
    (∃ R, r.Like r' R) ∧
    ∀ name text, r.validate name text = r'.validate name text ∧
      r.suggest name text = r'.suggest name text :=
  build_of_perm (List.reverse_perm _).symm (List.reverse_perm _).symm (by decide) (by decide)
    (by decide) (by decide) (by decide)

end Registry

end StyleGrammar
