import StyleGrammar.Grammar.Render
import StyleGrammar.Proofs.Definition.Quantifiers
import Mathlib.Data.List.Forall2
import Mathlib.Data.Fintype.Card

/-!
# Grammars as trees

A grammar apart from the arena that it lives in.  `Arena.Holds` says which node
of an arena stands for which tree, up to the indices of the nodes and the texts
that they were read from.  `Tree.text` writes a tree, either with brackets
around every group or only with those that are needed.

A node holds at most one tree, and no tree that is held is higher than there are
nodes.  The writer of an arena therefore never runs out of depth
(`Holds.render_eq`).
-/

namespace StyleGrammar

open List

/-- The ways to group trees, from the loosest. -/
inductive Grouping
  | alternation | subset | unordered | sequence
  deriving DecidableEq, Repr

namespace Grouping

/-- How tightly a group holds its children together. -/
def tightness : Grouping → Nat
  | alternation => 0
  | subset => 1
  | unordered => 2
  | sequence => 3

def kind : Grouping → List NodeId → NodeKind
  | alternation => .alternation
  | subset => .subset
  | unordered => .unordered
  | sequence => .sequence

def separator : Grouping → String
  | alternation => " | "
  | subset => " || "
  | unordered => " && "
  | sequence => " "

theorem tightness_lt (g : Grouping) : g.tightness < 4 := by
  cases g <;> decide

/-- No group is a leaf, a function or a slot. -/
@[simp] theorem kind_ne (g : Grouping) (ids : List NodeId) :
    (∀ text, g.kind ids ≠ .literal text) ∧ (∀ name, g.kind ids ≠ .dataType name) ∧
      (∀ name target, g.kind ids ≠ .reference name target) ∧
      (∀ name children, g.kind ids ≠ .function name children) ∧ g.kind ids ≠ .placeholder := by
  cases g <;> simp [kind]

theorem kind_inj {g g' : Grouping} {ids ids' : List NodeId} (h : g.kind ids = g'.kind ids') :
    g = g' ∧ ids = ids' := by
  cases g <;> cases g' <;> cases h <;> exact ⟨rfl, rfl⟩

end Grouping

namespace Quantifier

/-- The quantifiers that multipliers can stand for, with bounds of 32 bits. -/
structure Writable (q : Quantifier) : Prop where
  proper : q.Proper
  min_lt : q.min < 1 <<< 32
  max_lt : ∀ max, q.max? = some max → max < 1 <<< 32

/-- Whether the bounds are those of exactly one repetition. -/
def Plain (q : Quantifier) : Prop := q.min = 1 ∧ q.max? = some 1 ∧ q.separator? = none

instance (q : Quantifier) : Decidable q.Plain :=
  inferInstanceAs (Decidable (q.min = 1 ∧ q.max? = some 1 ∧ q.separator? = none))

end Quantifier

/-- A grammar, each part of it with its quantifier. -/
inductive Tree
  | literal (text : String) (q : Quantifier)
  | dataType (name : String) (q : Quantifier)
  | reference (name : String) (q : Quantifier)
  | function (name : String) (arguments : List Tree) (q : Quantifier)
  | group (g : Grouping) (children : List Tree) (q : Quantifier)

namespace Tree

@[induction_eliminator]
theorem inductionOn {motive : Tree → Prop}
    (literal : ∀ text q, motive (.literal text q))
    (dataType : ∀ name q, motive (.dataType name q))
    (reference : ∀ name q, motive (.reference name q))
    (function : ∀ name arguments q, (∀ t ∈ arguments, motive t) →
      motive (.function name arguments q))
    (group : ∀ g children q, (∀ t ∈ children, motive t) → motive (.group g children q))
    (t : Tree) : motive t := by
  refine @Tree.rec motive (fun ts => ∀ t ∈ ts, motive t) literal dataType reference function group
    ?_ ?_ t
  · simp
  · intro t ts ht hts u hu
    rcases mem_cons.mp hu with rfl | hmem
    · exact ht
    · exact hts u hmem

def quantifier : Tree → Quantifier
  | literal _ q | dataType _ q | reference _ q | function _ _ q | group _ _ q => q

mutual

def height : Tree → Nat
  | literal _ _ | dataType _ _ | reference _ _ => 1
  | function _ ts _ | group _ ts _ => heights ts + 1

/-- The height of the highest tree. -/
def heights : List Tree → Nat
  | [] => 0
  | t :: ts => max t.height (heights ts)

end

theorem height_pos (t : Tree) : 0 < t.height := by
  cases t <;> exact Nat.succ_pos _

theorem height_le_heights {t : Tree} {ts : List Tree} (hmem : t ∈ ts) :
    t.height ≤ heights ts := by
  induction ts with
  | nil => cases hmem
  | cons u ts ih =>
    unfold heights
    rcases mem_cons.mp hmem with rfl | hmem
    · exact Nat.le_max_left _ _
    · exact Nat.le_trans (ih hmem) (Nat.le_max_right _ _)

theorem exists_lt_height {ts : List Tree} {k : Nat} (hlt : k < heights ts) :
    ∃ t ∈ ts, k < t.height := by
  induction ts with
  | nil => cases hlt
  | cons u ts ih =>
    unfold heights at hlt
    rcases lt_max_iff.mp hlt with hlt | hlt
    · exact ⟨u, mem_cons_self, hlt⟩
    · rcases ih hlt with ⟨t, hmem, hlt⟩
      exact ⟨t, mem_cons_of_mem u hmem, hlt⟩

/-- The trees that can be written.  A group has two children at least; one around a single child is
the sequence that repeats what already has a quantifier. -/
inductive WellFormed : Tree → Prop
  | literal {text : String} {q : Quantifier} (hne : text ≠ "") (hquote : '\'' ∉ text.toList)
      (hq : q.Writable) : WellFormed (.literal text q)
  | dataType {name : String} {q : Quantifier} (hprimitive : DataType.isPrimitive name = true)
      (hq : q.Writable) : WellFormed (.dataType name q)
  | reference {name : String} {q : Quantifier} (hne : name ≠ "")
      (hprimitive : DataType.isPrimitive name = false)
      (hchars : ∀ c ∈ name.toList, Blank c = false ∧ c ≠ '[' ∧ c ≠ '>')
      (hsuffix : ['(', ')'].isSuffixOf name.toList = false) (hq : q.Writable) :
      WellFormed (.reference name q)
  | function {name : String} {arguments : List Tree} {q : Quantifier} (hne : name ≠ "")
      (hchars : ∀ c ∈ name.toList, Definition.isNameChar c = true)
      (hlength : arguments.length ≤ 1) (hq : q.Writable)
      (harguments : ∀ t ∈ arguments, WellFormed t) : WellFormed (.function name arguments q)
  | group {g : Grouping} {children : List Tree} {q : Quantifier} (hlength : 2 ≤ children.length)
      (hq : q.Writable) (hchildren : ∀ t ∈ children, WellFormed t) :
      WellFormed (.group g children q)
  | wrapper {t : Tree} {q : Quantifier} (hquantified : t.quantifier ≠ .one) (hplain : ¬q.Plain)
      (hq : q.Writable) (ht : WellFormed t) : WellFormed (.group .sequence [t] q)

/-! ## The texts of a tree -/

/-- The level of the children of a group, at which only tighter groups stand without brackets, or
none at all. -/
def childLevel (full : Bool) (g : Grouping) : Nat := if full then 4 else g.tightness + 1

mutual

/-- The text of a tree at a level.  A group has brackets if multipliers follow it, or if it is not
as tight as the level; all components are. -/
def text (full : Bool) : (level : Nat) → Tree → String
  | _, literal text q => Arena.renderLiteral text ++ q.render
  | _, dataType name q | _, reference name q => "<" ++ name ++ ">" ++ q.render
  | _, function name arguments q =>
    let level := if full then 4 else 0
    let inside :=
      if arguments.isEmpty then "" else " " ++ " ".intercalate (texts full level arguments) ++ " "
    name ++ "(" ++ inside ++ ")" ++ q.render
  | level, group g children q =>
    let inside := g.separator.intercalate (texts full (childLevel full g) children)
    (if g.tightness < level || !q.isOne then "[ " ++ inside ++ " ]" else inside) ++ q.render

def texts (full : Bool) (level : Nat) : List Tree → List String
  | [] => []
  | t :: ts => text full level t :: texts full level ts

end

section

variable (full : Bool) (level : Nat) (q : Quantifier)

theorem text_literal (text : String) :
    Tree.text full level (.literal text q) = Arena.renderLiteral text ++ q.render := rfl

theorem text_dataType (name : String) :
    Tree.text full level (.dataType name q) = "<" ++ name ++ ">" ++ q.render := rfl

theorem text_reference (name : String) :
    Tree.text full level (.reference name q) = "<" ++ name ++ ">" ++ q.render := rfl

theorem text_function (name : String) (arguments : List Tree) :
    Tree.text full level (.function name arguments q) =
      name ++ "(" ++ (if arguments.isEmpty then "" else
        " " ++ " ".intercalate (texts full (if full then 4 else 0) arguments) ++ " ") ++ ")" ++
        q.render := rfl

theorem text_group (g : Grouping) (children : List Tree) :
    Tree.text full level (.group g children q) =
      (if g.tightness < level || !q.isOne then
        "[ " ++ g.separator.intercalate (texts full (childLevel full g) children) ++ " ]"
        else g.separator.intercalate (texts full (childLevel full g) children)) ++ q.render := rfl

@[simp] theorem texts_nil : texts full level [] = [] := rfl

@[simp] theorem texts_cons (t : Tree) (ts : List Tree) :
    texts full level (t :: ts) = text full level t :: texts full level ts := rfl

end

theorem texts_eq_map (full : Bool) (level : Nat) (ts : List Tree) :
    texts full level ts = ts.map (text full level) := by
  induction ts with
  | nil => rfl
  | cons t ts ih => rw [texts_cons, ih, map_cons]

theorem isEmpty_texts (full : Bool) (level : Nat) (ts : List Tree) :
    (texts full level ts).isEmpty = ts.isEmpty := by
  rw [texts_eq_map, isEmpty_map]

end Tree

/-! ## The trees of an arena -/

namespace Arena

mutual

/-- Whether the kind of a node is that of a tree, with nodes for the trees below it. -/
def Stands (a : Arena) (kind : NodeKind) : Tree → Prop
  | .literal text _ => kind = .literal text
  | .dataType name _ => kind = .dataType name
  | .reference name _ => ∃ target, kind = .reference name target
  | .function name arguments _ => ∃ ids, kind = .function name ids ∧ a.HoldAll arguments ids
  | .group g children _ => ∃ ids, g.kind ids = kind ∧ a.HoldAll children ids

/-- Whether nodes stand for trees, each with the quantifier of its tree. -/
def HoldAll (a : Arena) : List Tree → List NodeId → Prop
  | [], ids => ids = []
  | t :: ts, ids => ∃ id rest, ids = id :: rest ∧
      (a.Stands (a.node id).kind t ∧ (a.node id).quantifier = t.quantifier) ∧ a.HoldAll ts rest

end

/-- Whether a node stands for a tree with its quantifier. -/
def Holds (a : Arena) (t : Tree) (id : NodeId) : Prop :=
  a.Stands (a.node id).kind t ∧ (a.node id).quantifier = t.quantifier

variable {a a' : Arena}

theorem holdAll_iff {ts : List Tree} {ids : List NodeId} :
    a.HoldAll ts ids ↔ Forall₂ a.Holds ts ids := by
  induction ts generalizing ids with
  | nil => rw [HoldAll, forall₂_nil_left_iff]
  | cons t ts ih =>
    rw [HoldAll, forall₂_cons_left_iff]
    constructor
    · rintro ⟨id, rest, rfl, hholds, hrest⟩
      exact ⟨id, rest, hholds, ih.mp hrest, rfl⟩
    · rintro ⟨id, rest, hholds, hrest, rfl⟩
      exact ⟨id, rest, rfl, hholds, ih.mpr hrest⟩

/-- What holds of every tree of a list may be assumed of each when they are held. -/
theorem forall₂_of_holdAll {ts : List Tree} {ids : List NodeId} {motive : Tree → Prop}
    (hts : ∀ t ∈ ts, motive t) (hheld : a.HoldAll ts ids) :
    Forall₂ (fun t id => motive t ∧ a.Holds t id) ts ids :=
  (forall₂_and_left _ _).mpr ⟨hts, holdAll_iff.mp hheld⟩

theorem not_stands_placeholder (t : Tree) : ¬a.Stands .placeholder t := by
  cases t <;> simp [Stands]

theorem Holds.lt_size {t : Tree} {id : NodeId} (h : a.Holds t id) : id < a.size := by
  by_contra hlt
  apply not_stands_placeholder t (a := a)
  have hkind := h.1
  rw [node_of_size_le (Nat.le_of_not_lt hlt)] at hkind
  exact hkind

theorem HoldAll.mono_of {ts : List Tree} {ids : List NodeId} (hheld : a.HoldAll ts ids)
    (hts : ∀ t ∈ ts, ∀ id, a.Holds t id → a'.Holds t id) : a'.HoldAll ts ids := by
  apply holdAll_iff.mpr
  exact (forall₂_of_holdAll hts hheld).imp fun t id h => h.1 id h.2

/-- An arena that has grown stands for what it stood for. -/
theorem Stands.mono {t : Tree} {kind : NodeKind} (h : a.Stands kind t) (hext : a.Extends a') :
    a'.Stands kind t := by
  have hholds {t : Tree} (ih : ∀ {kind}, a.Stands kind t → a'.Stands kind t) (id : NodeId)
      (hholds : a.Holds t id) : a'.Holds t id := by
    unfold Holds
    rw [hext.node_eq hholds.lt_size]
    exact ⟨ih hholds.1, hholds.2⟩
  induction t generalizing kind with
  | literal text q => exact h
  | dataType name q => exact h
  | reference name q => exact h
  | function name arguments q ih =>
    rcases h with ⟨ids, hkind, hheld⟩
    exact ⟨ids, hkind, hheld.mono_of fun t ht => hholds (ih t ht)⟩
  | group g children q ih =>
    rcases h with ⟨ids, hkind, hheld⟩
    exact ⟨ids, hkind, hheld.mono_of fun t ht => hholds (ih t ht)⟩

theorem Holds.mono {t : Tree} {id : NodeId} (h : a.Holds t id) (hext : a.Extends a') :
    a'.Holds t id := by
  unfold Holds
  rw [hext.node_eq h.lt_size]
  exact ⟨h.1.mono hext, h.2⟩

theorem HoldAll.mono {ts : List Tree} {ids : List NodeId} (h : a.HoldAll ts ids)
    (hext : a.Extends a') : a'.HoldAll ts ids :=
  h.mono_of fun _ _ _ hholds => hholds.mono hext

theorem HoldAll.eq_of {ts us : List Tree} {ids : List NodeId} (hts : a.HoldAll ts ids)
    (hus : a.HoldAll us ids) (heq : ∀ t ∈ ts, ∀ u id, a.Holds t id → a.Holds u id → t = u) :
    ts = us := by
  induction ts generalizing us ids with
  | nil =>
    cases hts
    cases us with
    | nil => rfl
    | cons u us => rcases hus with ⟨_, _, h, -⟩; cases h
  | cons t ts ih =>
    rcases hts with ⟨id, rest, rfl, ht, hts⟩
    cases us with
    | nil => cases hus
    | cons u us =>
      rcases hus with ⟨_, _, heq', hu, hus⟩
      cases heq'
      rw [heq t mem_cons_self u id ht hu,
        ih hts hus fun t ht => heq t (mem_cons_of_mem _ ht)]

theorem Stands.eq {t u : Tree} {kind : NodeKind} (ht : a.Stands kind t) (hu : a.Stands kind u)
    (hquantifier : t.quantifier = u.quantifier) : t = u := by
  have hheld {t : Tree} (ih : ∀ {u kind}, a.Stands kind t → a.Stands kind u →
      t.quantifier = u.quantifier → t = u) (u : Tree) (id : NodeId) (ht : a.Holds t id)
      (hu : a.Holds u id) : t = u :=
    ih ht.1 hu.1 (ht.2.symm.trans hu.2)
  induction t generalizing u kind with
  | literal text q =>
    cases ht
    cases u with
    | literal text' q' =>
      cases hu
      cases hquantifier
      rfl
    | _ => simp [Stands] at hu
  | dataType name q =>
    cases ht
    cases u with
    | dataType name' q' =>
      cases hu
      cases hquantifier
      rfl
    | _ => simp [Stands] at hu
  | reference name q =>
    rcases ht with ⟨target, rfl⟩
    cases u with
    | reference name' q' =>
      rcases hu with ⟨target', hkind⟩
      cases hkind
      cases hquantifier
      rfl
    | _ => simp [Stands] at hu
  | function name arguments q ih =>
    rcases ht with ⟨ids, rfl, hts⟩
    cases u with
    | function name' arguments' q' =>
      rcases hu with ⟨ids', hkind, hus⟩
      cases hkind
      cases hquantifier
      rw [hts.eq_of hus fun t ht => hheld (ih t ht)]
    | _ => simp [Stands] at hu
  | group g children q ih =>
    rcases ht with ⟨ids, rfl, hts⟩
    cases u with
    | group g' children' q' =>
      rcases hu with ⟨ids', hkind, hus⟩
      rcases Grouping.kind_inj hkind with ⟨rfl, rfl⟩
      cases hquantifier
      rw [hts.eq_of hus fun t ht => hheld (ih t ht)]
    | _ => simp [Stands] at hu

/-- A node holds one tree. -/
theorem Holds.eq {t u : Tree} {id : NodeId} (ht : a.Holds t id) (hu : a.Holds u id) : t = u :=
  ht.1.eq hu.1 (ht.2.symm.trans hu.2)

theorem HoldAll.exists_holds {ts : List Tree} {ids : List NodeId} (hheld : a.HoldAll ts ids)
    {t : Tree} (hmem : t ∈ ts) : ∃ id, a.Holds t id := by
  induction ts generalizing ids with
  | nil => cases hmem
  | cons u ts ih =>
    rcases hheld with ⟨id, rest, rfl, hholds, hrest⟩
    rcases mem_cons.mp hmem with rfl | hmem
    · exact ⟨id, hholds⟩
    · exact ih hrest hmem

/-- Below a node there are trees of every height up to that of its own. -/
theorem Holds.exists_height {t : Tree} {id : NodeId} (hholds : a.Holds t id) {k : Nat}
    (hlt : k < t.height) : ∃ u j, a.Holds u j ∧ u.height = k + 1 := by
  have hbelow {t : Tree} {id : NodeId} {ts : List Tree} {ids : List NodeId}
      (hholds : a.Holds t id) (hheight : t.height = Tree.heights ts + 1) (hheld : a.HoldAll ts ids)
      (ih : ∀ t ∈ ts, ∀ {id}, a.Holds t id → k < t.height → ∃ u j, a.Holds u j ∧ u.height = k + 1)
      (hlt : k < t.height) : ∃ u j, a.Holds u j ∧ u.height = k + 1 := by
    rcases Nat.eq_or_lt_of_le hlt with heq | hlt
    · exact ⟨t, id, hholds, heq.symm⟩
    · rw [hheight] at hlt
      rcases Tree.exists_lt_height (Nat.lt_of_succ_lt_succ hlt) with ⟨t, hmem, hlt⟩
      rcases hheld.exists_holds hmem with ⟨id, hholds⟩
      exact ih t hmem hholds hlt
  have hnone : a.HoldAll [] [] := rfl
  induction t generalizing id with
  | literal text q => exact hbelow hholds rfl hnone (by simp) hlt
  | dataType name q => exact hbelow hholds rfl hnone (by simp) hlt
  | reference name q => exact hbelow hholds rfl hnone (by simp) hlt
  | function name arguments q ih =>
    rcases hholds.1 with ⟨ids, -, hheld⟩
    exact hbelow hholds rfl hheld ih hlt
  | group g children q ih =>
    rcases hholds.1 with ⟨ids, -, hheld⟩
    exact hbelow hholds rfl hheld ih hlt

/-- Trees of different heights are held by different nodes. -/
theorem Holds.height_le {t : Tree} {id : NodeId} (hholds : a.Holds t id) : t.height ≤ a.size := by
  choose u j hheld hheight using fun k : Fin t.height => hholds.exists_height k.isLt
  have hinj : Function.Injective fun k => (⟨j k, (hheld k).lt_size⟩ : Fin a.size) := by
    intro k k' hkk'
    have hu : u k = u k' := by
      have hj : j k = j k' := congrArg Fin.val hkk'
      exact (hheld k).eq (hj ▸ hheld k')
    have hk := hheight k
    rw [hu, hheight k'] at hk
    exact Fin.ext (Nat.succ.inj hk.symm)
  simpa using Fintype.card_le_of_injective _ hinj

/-! ## Nodes that are made for trees -/

/-- A node that was made while an arena grew to another, for a tree whose own quantifier may yet be
a different one.  What the tree is made of was there before. -/
def Made (a a' : Arena) (t : Tree) (q : Quantifier) (id : NodeId) : Prop :=
  ∃ below : Arena, a.Extends below ∧ below.Extends a' ∧ below.size ≤ id ∧ id < a'.size ∧
    below.Stands (a'.node id).kind t ∧ (a'.node id).quantifier = q

theorem Made.holds {t : Tree} {id : NodeId} (h : a.Made a' t t.quantifier id) :
    a'.Holds t id := by
  rcases h with ⟨below, -, hext, -, -, hstands, hquantifier⟩
  exact ⟨hstands.mono hext, hquantifier⟩

theorem Made.extends {t : Tree} {q : Quantifier} {id : NodeId} (h : a.Made a' t q id) :
    a.Extends a' := by
  rcases h with ⟨below, hbelow, hext, -⟩
  exact hbelow.trans hext

theorem made_push {t : Tree} {n : Node} (hext : a.Extends a') (hstands : a'.Stands n.kind t) :
    a.Made (a'.push n) t n.quantifier a'.size := by
  refine ⟨a', hext, a'.extends_push _, Nat.le_refl _, by simp, ?_, ?_⟩
  · rw [node_push_self]
    exact hstands
  · rw [node_push_self]

/-- The quantifier of a new node can be changed in place. -/
theorem Made.modify {t : Tree} {q : Quantifier} {id : NodeId} (h : a.Made a' t q id)
    (q' : Quantifier) :
    a.Made (a'.modify id fun n => { n with quantifier := q' }) t q' id := by
  rcases h with ⟨below, hbelow, hext, hle, hlt, hstands, -⟩
  refine ⟨below, hbelow, hext.modify _ hle, hle, by simpa using hlt, ?_, ?_⟩
  · rw [node_modify_self _ hlt]
    exact hstands
  · rw [node_modify_self _ hlt]

/-! ## The text of an arena -/

theorem HoldAll.map_eq {ts : List Tree} {ids : List NodeId} (hheld : a.HoldAll ts ids)
    {f : NodeId → String} {full : Bool} {level : Nat}
    (heq : ∀ t ∈ ts, ∀ id, a.Holds t id → f id = t.text full level) :
    ids.map f = Tree.texts full level ts := by
  induction ts generalizing ids with
  | nil =>
    cases hheld
    rfl
  | cons t ts ih =>
    rcases hheld with ⟨id, rest, rfl, hholds, hrest⟩
    rw [map_cons, Tree.texts_cons, heq t mem_cons_self id hholds,
      ih hrest fun t ht => heq t (mem_cons_of_mem _ ht)]

theorem renderWithin_group {id : NodeId} {g : Grouping} {ids : List NodeId}
    (hkind : g.kind ids = (a.node id).kind) (n : Nat) (top : Bool) :
    a.renderWithin (n + 1) top id =
      let inside := g.separator.intercalate (ids.map (a.renderWithin n false))
      (if !top || !(a.node id).quantifier.isOne then "[ " ++ inside ++ " ]" else inside) ++
        (a.node id).quantifier.render := by
  cases g <;>
    simp only [renderWithin, Node.children, ← hkind, Grouping.kind, NodeKind.children] <;> rfl

theorem Holds.renderWithin_eq {t : Tree} {id : NodeId} (hholds : a.Holds t id) {n : Nat}
    (hn : t.height ≤ n + 1) (top : Bool) :
    a.renderWithin (n + 1) top id = t.text true (if top then 0 else 4) := by
  have hchildren {ts : List Tree} {ids : List NodeId} {n : Nat} (hheld : a.HoldAll ts ids)
      (ih : ∀ t ∈ ts, ∀ {id}, a.Holds t id → ∀ {n}, t.height ≤ n + 1 → ∀ top,
        a.renderWithin (n + 1) top id = t.text true (if top then 0 else 4))
      (hn : Tree.heights ts + 1 ≤ n + 1) :
      ids.map (a.renderWithin n false) = Tree.texts true 4 ts := by
    apply hheld.map_eq
    intro t ht id hholds
    have hle : t.height ≤ n := Nat.le_trans (Tree.height_le_heights ht) (Nat.le_of_succ_le_succ hn)
    cases n with
    | zero => exact absurd hle (Nat.not_le_of_lt t.height_pos)
    | succ n => exact ih t ht hholds hle false
  induction t generalizing id n top with
  | literal text q =>
    rcases hholds with ⟨hkind, hquantifier⟩
    simp only [renderWithin, show (a.node id).kind = _ from hkind, hquantifier]
    rfl
  | dataType name q =>
    rcases hholds with ⟨hkind, hquantifier⟩
    simp only [renderWithin, show (a.node id).kind = _ from hkind, hquantifier]
    rfl
  | reference name q =>
    rcases hholds with ⟨⟨target, hkind⟩, hquantifier⟩
    simp only [renderWithin, hkind, hquantifier]
    rfl
  | function name arguments q ih =>
    rcases hholds with ⟨⟨ids, hkind, hheld⟩, hquantifier⟩
    have hmap := hchildren hheld ih hn
    simp only [renderWithin, hkind, hquantifier, Node.children, NodeKind.children, hmap,
      Tree.isEmpty_texts]
    rfl
  | group g children q ih =>
    rcases hholds with ⟨⟨ids, hkind, hheld⟩, hquantifier⟩
    have hmap := hchildren hheld ih hn
    have hbracketed : (!top) = decide (g.tightness < if top then 0 else 4) := by
      cases top <;> cases g <;> rfl
    rw [renderWithin_group hkind, hmap, hquantifier, hbracketed]
    rfl

/-- The writer of an arena puts brackets around every group inside a tree. -/
theorem Holds.render_eq {t : Tree} {id : NodeId} (hholds : a.Holds t id) :
    a.render id = t.text true 0 :=
  hholds.renderWithin_eq (Nat.le_succ_of_le hholds.height_le) true

end Arena

end StyleGrammar
