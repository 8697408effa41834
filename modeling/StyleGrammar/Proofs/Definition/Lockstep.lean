import StyleGrammar.Proofs.Definition.Run
import StyleGrammar.Proofs.Definition.Tree

/-!
# Reading a text into two arenas

A reader looks at an arena only for the slots of names and for the quantifiers of
nodes that it made itself.  So the same text, read into two arenas, takes the
same steps in both.  `Lockstep` lists these steps and collects the pairs of nodes
that the same step makes.

What a reading does to one arena follows by induction on the steps
(`Lockstep.new`), and so does what two readings have in common: the nodes of a
pair are alike up to the indices of the nodes below them (`Lockstep.like`).
-/

namespace StyleGrammar

open List

/-- Nodes of two arenas, each made for the other one. -/
abbrev Pairs := List (NodeId × NodeId)

/-- The nodes of two lists are pairs. -/
def Pairs.All (ps : Pairs) (ids ids' : List NodeId) : Prop :=
  Forall₂ (fun id id' => (id, id') ∈ ps) ids ids'

theorem Pairs.All.mono {ps qs : Pairs} {ids ids' : List NodeId} (h : ps.All ids ids')
    (hsub : ps ⊆ qs) : qs.All ids ids' :=
  h.imp fun _ _ hmem => hsub hmem

theorem Pairs.All.exists_of_mem {ps : Pairs} {ids ids' : List NodeId} (h : ps.All ids ids')
    {id : NodeId} (hid : id ∈ ids) : ∃ id', (id, id') ∈ ps := by
  induction h with
  | nil => cases hid
  | cons hfirst hmore ih =>
    rcases mem_cons.mp hid with rfl | hid
    · exact ⟨_, hfirst⟩
    · exact ih hid

theorem Pairs.All.swap {ps : Pairs} {ids ids' : List NodeId} (h : ps.All ids ids') :
    Pairs.All (ps.map Prod.swap) ids' ids := by
  refine (Forall₂.flip h).imp fun id' id hmem => ?_
  exact mem_map.mpr ⟨(id, id'), hmem, rfl⟩

/-- Kinds of nodes that a text makes out of pairs.  No group is empty, and no data type is that of
a slot. -/
inductive Pairs.Make (ps : Pairs) : NodeKind → NodeKind → Prop
  | literal (text : String) : Make ps (.literal text) (.literal text)
  | dataType {name : String} (hprimitive : DataType.isPrimitive name = true) :
      Make ps (.dataType name) (.dataType name)
  | function (name : String) {ids ids' : List NodeId} (hids : ps.All ids ids') :
      Make ps (.function name ids) (.function name ids')
  | group (g : Grouping) {ids ids' : List NodeId} (hne : ids ≠ []) (hids : ps.All ids ids') :
      Make ps (g.kind ids) (g.kind ids')

@[simp] theorem Grouping.children_kind (g : Grouping) (ids : List NodeId) :
    (g.kind ids).children = ids := by
  cases g <;> rfl

theorem Pairs.Make.exists_of_mem {ps : Pairs} {kind kind' : NodeKind} (h : ps.Make kind kind')
    {id : NodeId} (hid : id ∈ kind.children) : ∃ id', (id, id') ∈ ps := by
  cases h with
  | literal text => cases hid
  | dataType hprimitive => cases hid
  | function name hids => exact hids.exists_of_mem hid
  | group g hne hids =>
    rw [g.children_kind] at hid
    exact hids.exists_of_mem hid

theorem Pairs.Make.ne_placeholder {ps : Pairs} {kind kind' : NodeKind}
    (h : ps.Make kind kind') : kind ≠ .placeholder := by
  cases h with
  | literal text => simp
  | dataType hprimitive => simp
  | function name hids => simp
  | group g hne hids => exact (g.kind_ne _).2.2.2.2

theorem Pairs.Make.mono {ps qs : Pairs} {kind kind' : NodeKind} (h : ps.Make kind kind')
    (hsub : ps ⊆ qs) : qs.Make kind kind' := by
  cases h with
  | literal text => exact .literal text
  | dataType hprimitive => exact .dataType hprimitive
  | function name hids => exact .function name (hids.mono hsub)
  | group g hne hids => exact .group g hne (hids.mono hsub)

theorem Pairs.Make.swap {ps : Pairs} {kind kind' : NodeKind} (h : ps.Make kind kind') :
    Pairs.Make (ps.map Prod.swap) kind' kind := by
  cases h with
  | literal text => exact .literal text
  | dataType hprimitive => exact .dataType hprimitive
  | function name hids => exact .function name hids.swap
  | group g hne hids =>
    refine .group g (fun hnil => hne ?_) hids.swap
    rw [hnil] at hids
    exact forall₂_nil_right_iff.mp hids

/-! ## Nodes that are alike -/

/-- Kinds that differ only in the nodes that they refer to. -/
inductive NodeKind.Like (R : NodeId → NodeId → Prop) : NodeKind → NodeKind → Prop
  | literal (text : String) : Like R (.literal text) (.literal text)
  | dataType (name : String) : Like R (.dataType name) (.dataType name)
  | function (name : String) {ids ids' : List NodeId} (hids : Forall₂ R ids ids') :
      Like R (.function name ids) (.function name ids')
  | group (g : Grouping) {ids ids' : List NodeId} (hids : Forall₂ R ids ids') :
      Like R (g.kind ids) (g.kind ids')
  | reference (name : String) {target target' : NodeId} (htarget : R target target') :
      Like R (.reference name target) (.reference name target')
  | placeholder : Like R .placeholder .placeholder

/-- Nodes that differ only in the nodes that they refer to. -/
structure Node.Like (R : NodeId → NodeId → Prop) (n n' : Node) : Prop where
  kind : n.kind.Like R n'.kind
  quantifier_eq : n.quantifier = n'.quantifier
  raw_eq : n.raw = n'.raw
  name_eq : n.name? = n'.name?

theorem NodeKind.Like.mono {R R' : NodeId → NodeId → Prop} (himp : ∀ id id', R id id' → R' id id')
    {kind kind' : NodeKind} (h : kind.Like R kind') : kind.Like R' kind' := by
  cases h with
  | literal text => exact .literal text
  | dataType name => exact .dataType name
  | function name hids => exact .function name (hids.imp himp)
  | group g hids => exact .group g (hids.imp himp)
  | reference name htarget => exact .reference name (himp _ _ htarget)
  | placeholder => exact .placeholder

theorem Node.Like.mono {R R' : NodeId → NodeId → Prop} (himp : ∀ id id', R id id' → R' id id')
    {n n' : Node} (h : n.Like R n') : n.Like R' n' :=
  ⟨h.kind.mono himp, h.quantifier_eq, h.raw_eq, h.name_eq⟩

/-- Nodes that are a pair, or the slots of one name. -/
def Pairs.Relate (ps : Pairs) (a a' : Arena) (id id' : NodeId) : Prop :=
  (id, id') ∈ ps ∨ ∃ name, a.lookup? name = some id ∧ a'.lookup? name = some id'

theorem Pairs.Relate.mono {ps qs : Pairs} {a a' c c' : Arena} (hsub : ps ⊆ qs) (hext : a.Extends c)
    (hext' : a'.Extends c') (id id' : NodeId) (h : ps.Relate a a' id id') :
    qs.Relate c c' id id' := by
  rcases h with hmem | ⟨name, hid, hid'⟩
  · exact .inl (hsub hmem)
  · exact .inr ⟨name, hext.lookup_eq hid, hext'.lookup_eq hid'⟩

theorem Pairs.Make.like {ps : Pairs} {kind kind' : NodeKind} (h : ps.Make kind kind')
    (a a' : Arena) : kind.Like (ps.Relate a a') kind' := by
  cases h with
  | literal text => exact .literal text
  | dataType hprimitive => exact .dataType _
  | function name hids => exact .function name (hids.imp fun _ _ => .inl)
  | group g hne hids => exact .group g (hids.imp fun _ _ => .inl)

namespace Definition

/-- The steps that a reading takes in two arenas, from `b` and `b'` on. -/
inductive Lockstep (b b' : Arena) : Pairs → Arena → Arena → Prop
  | start : Lockstep b b' [] b b'
  | push {ps : Pairs} {a a' : Arena} {kind kind' : NodeKind} (h : Lockstep b b' ps a a')
      (raw : String) (hkind : ps.Make kind kind') :
      Lockstep b b' ((a.size, a'.size) :: ps) (a.push ⟨kind, .one, raw, none⟩)
        (a'.push ⟨kind', .one, raw, none⟩)
  | slot {ps : Pairs} {a a' : Arena} (h : Lockstep b b' ps a a') (name : String) :
      Lockstep b b' ps (a.slot name).2 (a'.slot name).2
  | refer {ps : Pairs} {a a' : Arena} (h : Lockstep b b' ps a a') (name raw : String) :
      Lockstep b b' (((a.slot name).2.size, (a'.slot name).2.size) :: ps)
        ((a.slot name).2.push ⟨.reference name (a.slot name).1, .one, raw, none⟩)
        ((a'.slot name).2.push ⟨.reference name (a'.slot name).1, .one, raw, none⟩)
  | quantify {ps : Pairs} {a a' : Arena} {id id' : NodeId} {q : Quantifier}
      (h : Lockstep b b' ps a a') (hmem : (id, id') ∈ ps) (hq : q.Proper) :
      Lockstep b b' ps (a.modify id fun n => { n with quantifier := q })
        (a'.modify id' fun n => { n with quantifier := q })

variable {b b' a a' : Arena} {ps : Pairs}

/-! ## What the steps do to one arena -/

/-- A node that was made since an arena was `b`. -/
structure New (b a : Arena) (id : NodeId) : Prop where
  le : b.size ≤ id
  lt : id < a.size
  name_eq : (a.node id).name? = none
  proper : (a.node id).quantifier.Proper
  filled : (a.node id).kind ≠ .placeholder

theorem New.of_extends {c : Arena} {id : NodeId} (h : New b a id) (hext : a.Extends c) :
    New b c id := by
  have hnode := hext.node_eq h.lt
  exact ⟨h.le, Nat.lt_of_lt_of_le h.lt hext.size_le, hnode ▸ h.name_eq, hnode ▸ h.proper,
    hnode ▸ h.filled⟩

/-- The first arena grows, and the nodes that are made in it are new. -/
theorem Lockstep.new (h : Lockstep b b' ps a a') : b.Extends a ∧ ∀ p ∈ ps, New b a p.1 := by
  have hcons {a c : Arena} {ps : Pairs} {kind : NodeKind} {raw : String} {id' : NodeId}
      (hext : b.Extends a) (hps : ∀ p ∈ ps, New b a p.1) (hgrown : a.Extends c)
      (hkind : kind ≠ .placeholder) :
      b.Extends (c.push ⟨kind, .one, raw, none⟩) ∧
        ∀ p ∈ (c.size, id') :: ps, New b (c.push ⟨kind, .one, raw, none⟩) p.1 := by
    have hpush := hgrown.trans (c.extends_push ⟨kind, .one, raw, none⟩)
    refine ⟨hext.trans hpush, fun p hp => ?_⟩
    rcases mem_cons.mp hp with rfl | hp
    · have hnode := Arena.node_push_self (a := c) ⟨kind, .one, raw, none⟩
      refine ⟨(hext.trans hgrown).size_le, by simp, ?_, ?_, ?_⟩ <;> rw [hnode]
      · exact Quantifier.proper_one
      · exact hkind
    · exact (hps p hp).of_extends hpush
  induction h with
  | start => exact ⟨.refl b, by simp⟩
  | @push ps a a' kind kind' h raw hkind ih => exact hcons ih.1 ih.2 (.refl a) hkind.ne_placeholder
  | @slot ps a a' h name ih =>
    have hslot := a.extends_slot name
    exact ⟨ih.1.trans hslot, fun p hp => (ih.2 p hp).of_extends hslot⟩
  | @refer ps a a' h name raw ih => exact hcons ih.1 ih.2 (a.extends_slot name) (by simp)
  | quantify h hmem hq ih =>
    obtain ⟨hext, hps⟩ := ih
    refine ⟨hext.modify _ (hps _ hmem).le, fun p hp => ?_⟩
    obtain ⟨hle, hlt, hname, hproper, hfilled⟩ := hps p hp
    refine ⟨hle, by simpa using hlt, ?_, ?_, ?_⟩ <;> rw [Arena.node_modify] <;> split
    · exact hname
    · exact hname
    · exact hq
    · exact hproper
    · exact hfilled
    · exact hfilled

/-! ## What the steps do to both arenas -/

theorem Lockstep.symm (h : Lockstep b b' ps a a') : Lockstep b' b (ps.map Prod.swap) a' a := by
  induction h with
  | start => exact .start
  | push h raw hkind ih => exact .push ih raw hkind.swap
  | slot h name ih => exact .slot ih name
  | refer h name raw ih => exact .refer ih name raw
  | quantify h hmem hq ih => exact .quantify ih (mem_map.mpr ⟨_, hmem, rfl⟩) hq

theorem Lockstep.new' (h : Lockstep b b' ps a a') : b'.Extends a' ∧ ∀ p ∈ ps, New b' a' p.2 := by
  obtain ⟨hext, hps⟩ := h.symm.new
  exact ⟨hext, fun p hp => hps p.swap (mem_map.mpr ⟨p, hp, rfl⟩)⟩

/-- A node is in one pair only. -/
theorem Lockstep.fst_eq_iff (h : Lockstep b b' ps a a') {p q : NodeId × NodeId} (hp : p ∈ ps)
    (hq : q ∈ ps) : p.1 = q.1 ↔ p.2 = q.2 := by
  have hcons {ps : Pairs} {id id' : NodeId} (hps : ∀ p ∈ ps, p.1 < id ∧ p.2 < id')
      (ih : ∀ p ∈ ps, ∀ q ∈ ps, (p.1 = q.1 ↔ p.2 = q.2)) :
      ∀ p ∈ (id, id') :: ps, ∀ q ∈ (id, id') :: ps, (p.1 = q.1 ↔ p.2 = q.2) := by
    intro p hp q hq
    rcases mem_cons.mp hp with rfl | hp <;> rcases mem_cons.mp hq with rfl | hq
    · simp
    · obtain ⟨hlt, hlt'⟩ := hps q hq
      exact iff_of_false (Nat.ne_of_gt hlt) (Nat.ne_of_gt hlt')
    · obtain ⟨hlt, hlt'⟩ := hps p hp
      exact iff_of_false (Nat.ne_of_lt hlt) (Nat.ne_of_lt hlt')
    · exact ih p hp q hq
  suffices hall : ∀ p ∈ ps, ∀ q ∈ ps, (p.1 = q.1 ↔ p.2 = q.2) from hall p hp q hq
  clear hp hq
  induction h with
  | start => simp
  | push h raw hkind ih =>
    refine hcons (fun p hp => ?_) ih
    exact ⟨(h.new.2 p hp).lt, (h.new'.2 p hp).lt⟩
  | slot h name ih => exact ih
  | @refer ps a a' h name raw ih =>
    refine hcons (fun p hp => ?_) ih
    exact ⟨Nat.lt_of_lt_of_le (h.new.2 p hp).lt (a.extends_slot name).size_le,
      Nat.lt_of_lt_of_le (h.new'.2 p hp).lt (a'.extends_slot name).size_le⟩
  | quantify h hmem hq ih => exact ih

/-- The nodes of a pair are alike. -/
theorem Lockstep.like (h : Lockstep b b' ps a a') {p : NodeId × NodeId} (hp : p ∈ ps) :
    (a.node p.1).Like (ps.Relate a a') (a'.node p.2) := by
  -- A new pair leaves the others as they are.
  have hcons {ps : Pairs} {a a' c c' : Arena} {n n' : Node} (hext : a.Extends c)
      (hext' : a'.Extends c') (hps : ∀ p ∈ ps, p.1 < a.size ∧ p.2 < a'.size)
      (ih : ∀ p ∈ ps, (a.node p.1).Like (ps.Relate a a') (a'.node p.2))
      (hn : n.Like (ps.Relate c c') n') : ∀ p ∈ (c.size, c'.size) :: ps,
        ((c.push n).node p.1).Like (Pairs.Relate ((c.size, c'.size) :: ps) (c.push n) (c'.push n'))
          ((c'.push n').node p.2) := by
    have hsub : ps ⊆ (c.size, c'.size) :: ps := subset_cons_self _ _
    have hpush := c.extends_push n
    have hpush' := c'.extends_push n'
    intro p hp
    rcases mem_cons.mp hp with rfl | hp
    · rw [Arena.node_push_self, Arena.node_push_self]
      exact hn.mono (Pairs.Relate.mono hsub hpush hpush')
    · obtain ⟨hlt, hlt'⟩ := hps p hp
      rw [(hext.trans hpush).node_eq hlt, (hext'.trans hpush').node_eq hlt']
      exact (ih p hp).mono (Pairs.Relate.mono hsub (hext.trans hpush) (hext'.trans hpush'))
  suffices hall : ∀ p ∈ ps, (a.node p.1).Like (ps.Relate a a') (a'.node p.2) from hall p hp
  clear hp
  induction h with
  | start => simp
  | @push ps a a' kind kind' h raw hkind ih =>
    refine hcons (.refl a) (.refl a') (fun p hp => ?_) ih ⟨hkind.like a a', rfl, rfl, rfl⟩
    exact ⟨(h.new.2 p hp).lt, (h.new'.2 p hp).lt⟩
  | @slot ps a a' h name ih =>
    have hext := a.extends_slot name
    have hext' := a'.extends_slot name
    intro p hp
    rw [hext.node_eq (h.new.2 p hp).lt, hext'.node_eq (h.new'.2 p hp).lt]
    exact (ih p hp).mono (Pairs.Relate.mono (Subset.refl ps) hext hext')
  | @refer ps a a' h name raw ih =>
    refine hcons (a.extends_slot name) (a'.extends_slot name) (fun p hp => ?_) ih
      ⟨.reference name (.inr ⟨name, a.lookup_slot name, a'.lookup_slot name⟩), rfl, rfl, rfl⟩
    exact ⟨(h.new.2 p hp).lt, (h.new'.2 p hp).lt⟩
  | @quantify ps a a' id id' q h hmem hq ih =>
    intro p hp
    have hlike := ih p hp
    have hlt := (h.new.2 p hp).lt
    have hlt' := (h.new'.2 p hp).lt
    have hiff : p.1 = id ↔ p.2 = id' := h.fst_eq_iff hp hmem
    by_cases hid : p.1 = id
    · obtain ⟨id₁, id₂⟩ := p
      obtain rfl : id₁ = id := hid
      obtain rfl : id₂ = id' := hiff.mp rfl
      rw [Arena.node_modify_self _ hlt, Arena.node_modify_self _ hlt']
      exact ⟨hlike.kind, rfl, hlike.raw_eq, hlike.name_eq⟩
    · rw [Arena.node_modify_of_ne _ hid, Arena.node_modify_of_ne _ (hiff.not.mp hid)]
      exact hlike

end Definition

end StyleGrammar
