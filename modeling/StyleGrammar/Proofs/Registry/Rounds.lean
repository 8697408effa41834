import StyleGrammar.Proofs.Registry.Log

/-!
# When a build ends

Slots of properties are filled in rounds, until none is pending.  A property is
settled once its slot is filled or its name is excluded, and stays so.  A round
settles every property that waits, unless its definition is broken and the fault
is filed under another name.  So the properties that are not settled get fewer
from round to round (`unsettled_settleRound`), or one of them waits forever
(`Stuck.settleRound`).
-/

namespace StyleGrammar

open List Definition

namespace Registry

variable {r r' : Registry} {log : List Compilation} {properties : Table Property}
  {definitions : Table String} {o : RegistryOptions} {name : String} {p : Property}

/-! ## Rounds -/

/-- A round without pending slots does nothing, so that it does not matter who asks first. -/
theorem settleAll_settleRound (properties : Table Property) (r : Registry) :
    settleAll properties r = settleAll properties (settleRound properties r) := by
  cases hpending : pending properties r with
  | nil => rw [settleRound, hpending, foldl_nil]
  | cons s slots =>
    rw [settleAll, hpending]
    rfl

/-- Filling slots ends with the registry after some number of rounds, if no slot of it is
pending. -/
theorem settleAll_eq_some_iff : settleAll properties r = some r' ↔
    ∃ n, (settleRound properties)^[n] r = r' ∧ pending properties r' = [] := by
  constructor
  · intro h
    refine settleAll.partial_correctness properties (fun r r' =>
      ∃ n, (settleRound properties)^[n] r = r' ∧ pending properties r' = []) ?_ r r' h
    intro settleAll ih r r' h
    split at h
    next hnil =>
      cases h
      exact ⟨0, rfl, isEmpty_iff.mp hnil⟩
    next =>
      obtain ⟨n, hn, hpending⟩ := ih _ _ h
      exact ⟨n + 1, hn, hpending⟩
  · rintro ⟨n, hn, hpending⟩
    induction n generalizing r with
    | zero =>
      cases hn
      exact settleAll_of_pending_nil hpending
    | succ n ih =>
      rw [settleAll_settleRound]
      exact ih hn

theorem build?_of_rounds (n : Nat)
    (h : pending properties ((settleRound properties)^[n] (collect properties definitions o)) =
      []) :
    build? properties definitions o =
      some ((settleRound properties)^[n] (collect properties definitions o)) :=
  settleAll_eq_some_iff.mpr ⟨n, rfl, h⟩

/-! ## Properties that are settled -/

/-- Whether a property is excluded or its slot is filled. -/
def isSettled (r : Registry) (name : String) : Bool :=
  r.excluded.any (·.1 = name) || (r.arena.lookup? (propertySlot name)).any r.arena.isFilled

/-- The properties of a table that may still wait for their slots to be filled. -/
def unsettled (properties : Table Property) (r : Registry) : Finset String :=
  properties.names.toFinset.filter fun name => r.isSettled name = false

theorem isSettled_iff : r.isSettled name = true ↔ r.Excludes name ∨
    ∃ id, r.arena.lookup? (propertySlot name) = some id ∧ r.arena.isFilled id = true := by
  have hexcluded : r.excluded.any (·.1 = name) = true ↔ r.Excludes name := by
    simp [Excludes]
  rw [isSettled, Bool.or_eq_true, hexcluded, Option.any_eq_true]

theorem Logged.isSettled_iff (h : r.Logged log) : r.isSettled name = true ↔
    ∃ c ∈ log, c.name = name ∧ ¬Compiles c.definition ∨
      c.slot = propertySlot name ∧ Compiles c.definition := by
  rw [Registry.isSettled_iff, h.excludes_iff]
  constructor
  · rintro (⟨c, hc, hbroken⟩ | ⟨id, hid, hfilled⟩)
    · exact ⟨c, hc, .inl hbroken⟩
    · obtain ⟨c, hc, hcompiles⟩ := (h.isFilled_iff hid).mp hfilled
      exact ⟨c, hc, .inr hcompiles⟩
  · rintro ⟨c, hc, hbroken | ⟨hslot, hcompiles⟩⟩
    · exact .inl ⟨c, hc, hbroken⟩
    · exact .inr (hslot ▸ h.filled_of_mem hc hcompiles)

theorem Waits.not_settled (h : r.Waits properties name p) : r.isSettled name = false := by
  rw [← Bool.not_eq_true, isSettled_iff]
  rintro (hexcluded | ⟨id, hid, hfilled⟩)
  · exact h.not_excluded hexcluded
  · obtain ⟨id', hid', hblank⟩ := h.blank
    cases hid.symm.trans hid'
    rw [hfilled] at hblank
    cases hblank

theorem Waits.mem_names (h : r.Waits properties name p) : name ∈ properties.names :=
  mem_map.mpr ⟨_, Table.mem_rows_of_get? h.get_eq, rfl⟩

theorem pending_eq_nil_iff (hr : r.arena.Sound) :
    pending properties r = [] ↔ ∀ name p, ¬r.Waits properties name p := by
  rw [eq_nil_iff_forall_not_mem]
  constructor
  · intro h name p hwaits
    exact h _ ((mem_pending_iff hr).mpr ⟨name, p, hwaits, rfl, rfl⟩)
  · rintro h ⟨slot, definition⟩ hmem
    obtain ⟨name, p, hwaits, -⟩ := (mem_pending_iff hr).mp hmem
    exact h name p hwaits

/-- What is settled stays so. -/
theorem Logged.settled_settleRound (h : r.Logged log) (hname : r.isSettled name = true) :
    (Registry.settleRound properties r).isSettled name = true := by
  obtain ⟨c, hc, hsettled⟩ := h.isSettled_iff.mp hname
  exact h.settleRound.isSettled_iff.mpr ⟨c, mem_append_left _ hc, hsettled⟩

/-- A round settles a property that waits, unless a fault is filed under another name. -/
theorem Waits.settled_settleRound (h : r.Logged log) (hwaits : r.Waits properties name p)
    (hsettles : Compiles p.definition ∨ Bare name) :
    (settleRound properties r).isSettled name = true := by
  have hc : pendingCompilation name p ∈ roundLog properties r :=
    (mem_roundLog_iff h.sound).mpr ⟨name, p, hwaits, rfl⟩
  apply h.settleRound.isSettled_iff.mpr
  refine ⟨_, mem_append_right _ hc, ?_⟩
  by_cases hcompiles : Compiles p.definition
  · exact .inr ⟨rfl, hcompiles⟩
  · exact .inl ⟨filedName_propertySlot_iff.mpr (hsettles.resolve_left hcompiles), hcompiles⟩

/-- A round that settles what it finds pending leaves fewer properties that may wait. -/
theorem unsettled_settleRound (h : r.Logged log) (hpending : pending properties r ≠ [])
    (hsettles : ∀ name p, r.Waits properties name p → Compiles p.definition ∨ Bare name) :
    unsettled properties (settleRound properties r) ⊂ unsettled properties r := by
  obtain ⟨⟨slot, definition⟩, hmem⟩ := exists_mem_of_ne_nil _ hpending
  obtain ⟨name, p, hwaits, -, -⟩ := (mem_pending_iff h.sound).mp hmem
  refine (Finset.ssubset_iff_of_subset fun other hother => ?_).mpr ⟨name, ?_, ?_⟩
  · simp only [unsettled, Finset.mem_filter, ← Bool.not_eq_true] at hother ⊢
    exact ⟨hother.1, mt h.settled_settleRound hother.2⟩
  · simp [unsettled, hwaits.mem_names, hwaits.not_settled]
  · simp [unsettled, hwaits.settled_settleRound h (hsettles name p hwaits)]

/-- If every round settles what it finds pending, the rounds come to an end. -/
theorem exists_settleAll (h : r.Logged log) (hsettles : ∀ n name p,
    ((settleRound properties)^[n] r).Waits properties name p → Compiles p.definition ∨ Bare name) :
    ∃ r', settleAll properties r = some r' := by
  generalize hcount : (unsettled properties r).card = count
  induction count using Nat.strongRecOn generalizing r log with
  | ind count ih =>
    by_cases hpending : pending properties r = []
    · exact ⟨r, settleAll_of_pending_nil hpending⟩
    · rw [settleAll_settleRound]
      have hfewer := Finset.card_lt_card (unsettled_settleRound h hpending (hsettles 0))
      exact ih _ (hcount ▸ hfewer) h.settleRound (fun n => hsettles (n + 1)) rfl

/-! ## Properties that wait forever -/

/-- A property whose slot came up, with a broken definition and a name that no fault is filed
under. -/
structure Stuck (properties : Table Property) (r : Registry) (name : String) (p : Property) :
    Prop where
  waits : r.Waits properties name p
  broken : ¬Compiles p.definition
  not_bare : ¬Bare name

theorem Stuck.settleRound (h : r.Logged log) (hstuck : Stuck properties r name p) :
    Stuck properties (Registry.settleRound properties r) name p := by
  obtain ⟨hwaits, hbroken, hbare⟩ := hstuck
  refine ⟨h.settleRound.waits_iff.mpr ?_, hbroken, hbare⟩
  obtain ⟨hget, hexcluded, hfilled, id, hid⟩ := h.waits_iff.mp hwaits
  have hround {c : Compilation} (hc : c ∈ roundLog properties r) :=
    (mem_roundLog_iff h.sound).mp hc
  refine ⟨hget, fun c hc hname => ?_, fun c hc hslot => ?_, ?_⟩
  · rcases mem_append.mp hc with hc | hc
    · exact hexcluded c hc hname
    · obtain ⟨name', p', -, rfl⟩ := hround hc
      exact absurd (hname ▸ bare_filedName _) hbare
  · rcases mem_append.mp hc with hc | hc
    · exact hfilled c hc hslot
    · obtain ⟨name', p', hwaits', rfl⟩ := hround hc
      cases propertySlot_inj.mp hslot
      cases hget.symm.trans hwaits'.get_eq
      exact hbroken
  · exact ⟨id, h.lookup_append h.settleRound hid⟩

/-- If a property waits forever, building does not end. -/
theorem build?_eq_none {n : Nat} (hstuck : Stuck properties
    ((settleRound properties)^[n] (collect properties definitions o)) name p) :
    build? properties definitions o = none := by
  have hforever (k : Nat) : Stuck properties
      ((settleRound properties)^[k + n] (collect properties definitions o)) name p := by
    induction k with
    | zero => rwa [Nat.zero_add]
    | succ k ih =>
      obtain ⟨settled, -, hlog⟩ := logged_rounds properties definitions o (k + n)
      rw [Nat.add_right_comm, Function.iterate_succ_apply']
      exact ih.settleRound hlog
  refine Option.eq_none_iff_forall_ne_some.mpr fun r hr => ?_
  obtain ⟨m, hm, hpending⟩ := settleAll_eq_some_iff.mp hr
  -- Once nothing is pending, further rounds change nothing.
  have hrest (k : Nat) : (settleRound properties)^[k] r = r := by
    induction k with
    | zero => rfl
    | succ k ih =>
      rw [Function.iterate_succ_apply, settleRound, hpending, foldl_nil]
      exact ih
  have hwaits := (hforever m).waits
  rw [Nat.add_comm, Function.iterate_add_apply, hm, hrest] at hwaits
  obtain ⟨settled, -, hlog⟩ := logged_rounds properties definitions o m
  rw [hm] at hlog
  exact (pending_eq_nil_iff hlog.sound).mp hpending name p hwaits

/-- Building ends, with no slot pending any more, unless a round finds a property that waits with a
broken definition and a name that begins or ends with an apostrophe. -/
theorem build_ends_iff (properties : Table Property) (definitions : Table String)
    (o : RegistryOptions) :
    (∃ r, build? properties definitions o = some r ∧ pending properties r = []) ↔ ∀ n name p,
      ((settleRound properties)^[n] (collect properties definitions o)).Waits properties name p →
        Compiles p.definition ∨ Bare name := by
  constructor
  · rintro ⟨r, hr, -⟩ n name p hwaits
    by_contra hnot
    obtain ⟨hbroken, hbare⟩ := not_or.mp hnot
    rw [build?_eq_none ⟨hwaits, hbroken, hbare⟩] at hr
    cases hr
  · intro hsettles
    obtain ⟨r, hr⟩ := exists_settleAll (logged_collect properties definitions o) hsettles
    obtain ⟨n, -, hpending⟩ := settleAll_eq_some_iff.mp hr
    exact ⟨r, hr, hpending⟩

/-- The definition of the property `'b'` is broken, but the fault is filed under `b`. -/
def endless : Table Property :=
  ⟨[("a", { (default : Property) with definition := "<''b''>", status? := some "standard" }),
    ("'b'", { (default : Property) with definition := "[", status? := some "nonstandard" })]⟩

theorem build?_endless : build? endless .empty .standard = none := by
  have hpending : ("''b''", "[") ∈ pending endless (collect endless .empty .standard) ∧
      ¬Compiles "[" ∧ ¬Bare "'b'" := by decide +kernel
  obtain ⟨hmem, hbroken, hbare⟩ := hpending
  have hsound := (logged_collect endless .empty .standard).sound
  obtain ⟨name, p, hwaits, hslot, hdefinition⟩ := (mem_pending_iff hsound).mp hmem
  have hname : propertySlot "'b'" = propertySlot name := hslot
  cases propertySlot_inj.mp hname
  exact build?_eq_none (n := 0) ⟨hwaits, hdefinition ▸ hbroken, hbare⟩

end Registry

end StyleGrammar
