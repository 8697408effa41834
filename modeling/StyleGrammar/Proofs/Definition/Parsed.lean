import StyleGrammar.Proofs.Definition.Levels
import StyleGrammar.Proofs.Definition.Quantifiers

/-!
# The trees that definitions are read as

Whatever text is read, and into whatever arena, its root holds a tree
(`parses_define`).  Groups have two children at least, functions have one
argument at most, and a sequence around a single child is there because the child
had a quantifier already when it got another one.

The readers are followed one by one.  What they return is a node that was made
since they began, so that a later multiplier changes no tree but its own.
-/

namespace StyleGrammar

open List

/-! ## Quantifiers that are read -/

namespace Definition

theorem lt_of_natural? {s : List Char} {n : Nat} (h : natural? s = some n) : n < 1 <<< 32 := by
  unfold natural? at h
  simp only [Option.ite_none_left_eq_some, Option.some.injEq, Bool.or_eq_true, decide_eq_true_eq,
    not_or, not_le] at h
  obtain ⟨⟨-, hlt⟩, rfl⟩ := h
  exact hlt

theorem writable_one : Quantifier.one.Writable :=
  ⟨Quantifier.proper_one, by decide, by simp [Quantifier.one]⟩

theorem writable_of_quantifier? {c : Char} {q : Quantifier} (h : quantifier? c = some q) :
    q.Writable := by
  have hproper := proper_of_quantifier? h
  unfold quantifier? at h
  split at h <;> cases h <;> exact ⟨hproper, by decide, by simp [Quantifier.between]⟩

theorem writable_of_bounds? {body : List Char} {q : Quantifier} (h : bounds? body = some q) :
    q.Writable := by
  have hproper := proper_of_bounds? h
  unfold bounds? at h
  split at h
  · obtain ⟨n, hn, rfl⟩ := Option.map_eq_some_iff.mp h
    have hlt := lt_of_natural? hn
    exact ⟨hproper, hlt, by rintro _ ⟨⟩; exact hlt⟩
  · simp only [Option.bind_eq_bind, Option.bind_eq_some_iff] at h
    obtain ⟨min, hmin, h⟩ := h
    split at h
    · cases h
      exact ⟨hproper, lt_of_natural? hmin, by rintro _ ⟨⟩⟩
    · obtain ⟨max, hmax, h⟩ := Option.bind_eq_some_iff.mp h
      split at h
      · cases h
        exact ⟨hproper, lt_of_natural? hmin, by rintro _ ⟨⟩; exact lt_of_natural? hmax⟩
      · cases h

end Definition

namespace Quantifier

variable {q b : Quantifier}

theorem Writable.required (hq : q.Writable) : ({ q with required := true } : Quantifier).Writable :=
  ⟨⟨hq.proper.min_le, hq.proper.separator⟩, hq.min_lt, hq.max_lt⟩

theorem Writable.refined (hq : q.Writable) (hb : b.Writable) :
    ({ q with min := b.min, max? := b.max? } : Quantifier).Writable :=
  ⟨⟨hb.proper.min_le, hq.proper.separator⟩, hb.min_lt, hb.max_lt⟩

theorem Writable.fromZero (hq : q.Writable) : ({ q with min := 0 } : Quantifier).Writable :=
  ⟨⟨fun _ _ => Nat.zero_le _, hq.proper.separator⟩, Nat.zero_lt_of_lt hq.min_lt, hq.max_lt⟩

end Quantifier

/-! ## Trees that are read -/

namespace Tree

/-- The tree with another quantifier. -/
def requantified (q : Quantifier) : Tree → Tree
  | literal text _ => literal text q
  | dataType name _ => dataType name q
  | reference name _ => reference name q
  | function name arguments _ => function name arguments q
  | group g children _ => group g children q

@[simp] theorem quantifier_requantified (q : Quantifier) (t : Tree) :
    (t.requantified q).quantifier = q := by
  cases t <;> rfl

/-- The trees that texts are read as. -/
inductive Parsed : Tree → Prop
  | literal (text : String) {q : Quantifier} (hq : q.Writable) : Parsed (.literal text q)
  | dataType {name : String} {q : Quantifier} (hprimitive : DataType.isPrimitive name = true)
      (hq : q.Writable) : Parsed (.dataType name q)
  | reference {name : String} {q : Quantifier} (hne : name ≠ "")
      (hprimitive : DataType.isPrimitive name = false)
      (hchars : ∀ c ∈ name.toList, Blank c = false ∧ c ≠ '[' ∧ c ≠ '>')
      (hsuffix : ['(', ')'].isSuffixOf name.toList = false) (hq : q.Writable) :
      Parsed (.reference name q)
  | function (name : String) {arguments : List Tree} {q : Quantifier}
      (hlength : arguments.length ≤ 1) (hq : q.Writable) (harguments : ∀ t ∈ arguments, Parsed t) :
      Parsed (.function name arguments q)
  | group {g : Grouping} {children : List Tree} {q : Quantifier} (hlength : 2 ≤ children.length)
      (hq : q.Writable) (hchildren : ∀ t ∈ children, Parsed t) : Parsed (.group g children q)
  | wrapper {t : Tree} {q : Quantifier} (hquantified : t.quantifier ≠ .one) (hq : q.Writable)
      (ht : Parsed t) : Parsed (.group .sequence [t] q)

theorem Parsed.writable {t : Tree} (ht : t.Parsed) : t.quantifier.Writable := by
  cases ht <;> assumption

theorem Parsed.requantified {t : Tree} (ht : t.Parsed) {q : Quantifier} (hq : q.Writable) :
    (t.requantified q).Parsed := by
  cases ht with
  | literal text _ => exact .literal text hq
  | dataType hprimitive _ => exact .dataType hprimitive hq
  | reference hne hprimitive hchars hsuffix _ => exact .reference hne hprimitive hchars hsuffix hq
  | function name hlength _ harguments => exact .function name hlength hq harguments
  | group hlength _ hchildren => exact .group hlength hq hchildren
  | wrapper hquantified _ ht => exact .wrapper hquantified hq ht

/-- The tree with a mark that something is required, if it is to have one. -/
def marked (required : Bool) (t : Tree) : Tree :=
  t.requantified { t.quantifier with required := t.quantifier.required || required }

theorem marked_false (t : Tree) : t.marked false = t := by
  unfold marked
  rw [Bool.or_false]
  cases t <;> rfl

theorem quantifier_marked_ne_one {required : Bool} {t : Tree} (h : t.quantifier ≠ .one) :
    (t.marked required).quantifier ≠ .one := by
  rw [marked, quantifier_requantified]
  generalize t.quantifier = q at h
  intro heq
  rcases q with ⟨min, max?, separator?, marked⟩
  cases marked
  · cases required
    · exact h heq
    · simp [Quantifier.one] at heq
  · simp [Quantifier.one] at heq

/-- A group, unless it repeats a single child exactly once. -/
def grouped (g : Grouping) (children : List Tree) (q : Quantifier) : Tree :=
  match children with
  | [t] => if q.Plain then t.marked q.required else group g [t] q
  | ts => group g ts q

theorem grouped_of_two {g : Grouping} {children : List Tree} (hlength : 2 ≤ children.length)
    (q : Quantifier) : grouped g children q = group g children q := by
  rcases children with _ | ⟨t, _ | ⟨u, ts⟩⟩
  · rfl
  · simp at hlength
  · rfl

mutual

/-- The tree without the groups that repeat a single child exactly once. -/
def unwrapped : Tree → Tree
  | literal text q => literal text q
  | dataType name q => dataType name q
  | reference name q => reference name q
  | function name arguments q => function name (unwrappedAll arguments) q
  | group g children q => grouped g (unwrappedAll children) q

def unwrappedAll : List Tree → List Tree
  | [] => []
  | t :: ts => t.unwrapped :: unwrappedAll ts

end

theorem unwrappedAll_eq_map (ts : List Tree) : unwrappedAll ts = ts.map unwrapped := by
  induction ts with
  | nil => rfl
  | cons t ts ih => rw [unwrappedAll, ih, map_cons]

mutual

/-- The texts of the literals, in their order. -/
def literals : Tree → List String
  | literal text _ => [text]
  | dataType _ _ | reference _ _ => []
  | function _ ts _ | group _ ts _ => literalsOf ts

def literalsOf : List Tree → List String
  | [] => []
  | t :: ts => t.literals ++ literalsOf ts

end

mutual

/-- The names of the functions, in their order. -/
def functions : Tree → List String
  | literal _ _ | dataType _ _ | reference _ _ => []
  | function name ts _ => name :: functionsOf ts
  | group _ ts _ => functionsOf ts

def functionsOf : List Tree → List String
  | [] => []
  | t :: ts => t.functions ++ functionsOf ts

end

theorem literalsOf_eq_flatMap (ts : List Tree) : literalsOf ts = ts.flatMap literals := by
  induction ts with
  | nil => rfl
  | cons t ts ih => rw [literalsOf, ih, flatMap_cons]

theorem functionsOf_eq_flatMap (ts : List Tree) : functionsOf ts = ts.flatMap functions := by
  induction ts with
  | nil => rfl
  | cons t ts ih => rw [functionsOf, ih, flatMap_cons]

theorem literals_marked (required : Bool) (t : Tree) :
    (t.marked required).literals = t.literals := by
  cases t <;> rfl

theorem literals_grouped (g : Grouping) (ts : List Tree) (q : Quantifier) :
    (grouped g ts q).literals = literalsOf ts := by
  unfold grouped
  split
  next t =>
    split
    · rw [literals_marked, literalsOf, literalsOf, append_nil]
    · rfl
  next => rfl

theorem literals_unwrapped (t : Tree) : t.unwrapped.literals = t.literals := by
  have hall {ts : List Tree} (ih : ∀ t ∈ ts, t.unwrapped.literals = t.literals) :
      literalsOf (unwrappedAll ts) = literalsOf ts := by
    rw [unwrappedAll_eq_map, literalsOf_eq_flatMap, literalsOf_eq_flatMap, flatMap_map]
    exact flatMap_congr ih
  induction t with
  | literal text q => rfl
  | dataType name q => rfl
  | reference name q => rfl
  | function name arguments q ih => exact hall ih
  | group g children q ih => rw [unwrapped, literals_grouped, hall ih, literals]

theorem Parsed.quantifier_unwrapped {t : Tree} (ht : t.Parsed) (h : t.quantifier ≠ .one) :
    t.unwrapped.quantifier ≠ .one := by
  induction ht with
  | literal text hq => exact h
  | dataType hprimitive hq => exact h
  | reference hne hprimitive hchars hsuffix hq => exact h
  | function name hlength hq harguments ih => exact h
  | @group g children q hlength hq hchildren ih =>
    rw [unwrapped, grouped_of_two (by rwa [unwrappedAll_eq_map, length_map])]
    exact h
  | @wrapper t q hquantified hq ht ih =>
    rw [unwrapped, unwrappedAll, unwrappedAll, grouped]
    split
    · exact quantifier_marked_ne_one (ih hquantified)
    · exact h

/-- Whether a text can stand between single quotes, and is not left out for being empty. -/
def Quotable (text : String) : Prop := text ≠ "" ∧ '\'' ∉ text.toList

/-- Whether a text can stand in front of the arguments of a function. -/
def Callable (name : String) : Prop := name ≠ "" ∧ ∀ c ∈ name.toList, Definition.isNameChar c = true

/-- Whether the literals of a tree can be quoted and its functions called. -/
structure Sayable (t : Tree) : Prop where
  literals : ∀ text ∈ t.literals, Quotable text
  functions : ∀ name ∈ t.functions, Callable name

theorem Sayable.child {g : Grouping} {children : List Tree} {q : Quantifier}
    (h : (group g children q).Sayable) {t : Tree} (ht : t ∈ children) : t.Sayable where
  literals text hmem := h.literals text (by
    rw [Tree.literals, literalsOf_eq_flatMap]
    exact mem_flatMap.mpr ⟨t, ht, hmem⟩)
  functions name hmem := h.functions name (by
    rw [Tree.functions, functionsOf_eq_flatMap]
    exact mem_flatMap.mpr ⟨t, ht, hmem⟩)

theorem Sayable.argument {name : String} {arguments : List Tree} {q : Quantifier}
    (h : (function name arguments q).Sayable) {t : Tree} (ht : t ∈ arguments) : t.Sayable where
  literals text hmem := h.literals text (by
    rw [Tree.literals, literalsOf_eq_flatMap]
    exact mem_flatMap.mpr ⟨t, ht, hmem⟩)
  functions name' hmem := h.functions name' (by
    rw [Tree.functions, functionsOf_eq_flatMap]
    exact mem_cons_of_mem name (mem_flatMap.mpr ⟨t, ht, hmem⟩))

/-! Trees that can be written are trees that texts are read as, and nothing is unwrapped in them. -/

theorem WellFormed.parsed {t : Tree} (ht : t.WellFormed) : t.Parsed := by
  induction ht with
  | literal hne hquote hq => exact .literal _ hq
  | dataType hprimitive hq => exact .dataType hprimitive hq
  | reference hne hprimitive hchars hsuffix hq => exact .reference hne hprimitive hchars hsuffix hq
  | function hne hchars hlength hq _ ih => exact .function _ hlength hq ih
  | group hlength hq _ ih => exact .group hlength hq ih
  | wrapper hquantified hplain hq _ ih => exact .wrapper hquantified hq ih

theorem WellFormed.sayable {t : Tree} (ht : t.WellFormed) : t.Sayable := by
  have hliterals {ts : List Tree} (ih : ∀ t ∈ ts, t.Sayable) :
      ∀ text ∈ literalsOf ts, Quotable text := by
    intro text hmem
    rw [literalsOf_eq_flatMap] at hmem
    obtain ⟨t, ht, hmem⟩ := mem_flatMap.mp hmem
    exact (ih t ht).literals text hmem
  have hfunctions {ts : List Tree} (ih : ∀ t ∈ ts, t.Sayable) :
      ∀ name ∈ functionsOf ts, Callable name := by
    intro name hmem
    rw [functionsOf_eq_flatMap] at hmem
    obtain ⟨t, ht, hmem⟩ := mem_flatMap.mp hmem
    exact (ih t ht).functions name hmem
  induction ht with
  | literal hne hquote hq => exact ⟨by simpa [literals] using ⟨hne, hquote⟩, by simp [functions]⟩
  | dataType hprimitive hq => exact ⟨by simp [literals], by simp [functions]⟩
  | reference hne hprimitive hchars hsuffix hq => exact ⟨by simp [literals], by simp [functions]⟩
  | function hne hchars hlength hq _ ih =>
    exact ⟨hliterals ih, forall_mem_cons.mpr ⟨⟨hne, hchars⟩, hfunctions ih⟩⟩
  | group hlength hq _ ih => exact ⟨hliterals ih, hfunctions ih⟩
  | wrapper hquantified hplain hq _ ih =>
    have ih := forall_mem_singleton.mpr ih
    exact ⟨hliterals ih, hfunctions ih⟩

theorem WellFormed.unwrapped_eq {t : Tree} (ht : t.WellFormed) : t.unwrapped = t := by
  have hall {ts : List Tree} (ih : ∀ t ∈ ts, t.unwrapped = t) : unwrappedAll ts = ts := by
    rw [unwrappedAll_eq_map, map_congr_left ih]
    exact map_id' ts
  induction ht with
  | literal hne hquote hq => rfl
  | dataType hprimitive hq => rfl
  | reference hne hprimitive hchars hsuffix hq => rfl
  | function hne hchars hlength hq _ ih => rw [unwrapped, hall ih]
  | group hlength hq _ ih => rw [unwrapped, hall ih, grouped_of_two hlength]
  | wrapper hquantified hplain hq _ ih =>
    rw [unwrapped, hall (forall_mem_singleton.mpr ih), grouped, if_neg hplain]

end Tree

namespace Arena

variable {a a' a'' : Arena} {t : Tree} {q : Quantifier} {id : NodeId} {ids : List NodeId}

theorem Stands.requantified {kind : NodeKind} (h : a.Stands kind t) (q : Quantifier) :
    a.Stands kind (t.requantified q) := by
  cases t <;> exact h

theorem Made.mono (h : a.Made a' t q id) (hext : a'.Extends a'') : a.Made a'' t q id := by
  rcases h with ⟨below, hbelow, hbelow', hle, hlt, hstands, hquantifier⟩
  refine ⟨below, hbelow, hbelow'.trans hext, hle, Nat.lt_of_lt_of_le hlt hext.size_le, ?_, ?_⟩
  · rw [hext.node_eq hlt]
    exact hstands
  · rw [hext.node_eq hlt]
    exact hquantifier

theorem Made.requantified (h : a.Made a' t q id) (q' : Quantifier) :
    a.Made a' (t.requantified q') q id := by
  rcases h with ⟨below, hbelow, hbelow', hle, hlt, hstands, hquantifier⟩
  exact ⟨below, hbelow, hbelow', hle, hlt, hstands.requantified q', hquantifier⟩

/-- A node that was made for a tree that texts are read as. -/
def Parses (a a' : Arena) (id : NodeId) : Prop := ∃ t, a.Made a' t t.quantifier id ∧ t.Parsed

/-- Nodes of such trees, and all others as they were. -/
def ParsesAll (a a' : Arena) (ids : List NodeId) : Prop := a.Extends a' ∧ ∀ id ∈ ids, a.Parses a' id

theorem Parses.mono (h : a.Parses a' id) (hext : a'.Extends a'') : a.Parses a'' id := by
  rcases h with ⟨t, hmade, ht⟩
  exact ⟨t, hmade.mono hext, ht⟩

theorem Parses.extends (h : a.Parses a' id) : a.Extends a' := by
  rcases h with ⟨t, hmade, -⟩
  exact hmade.extends

theorem Parses.of_extends (h : a'.Parses a'' id) (hext : a.Extends a') : a.Parses a'' id := by
  rcases h with ⟨t, ⟨below, hbelow, hmade⟩, ht⟩
  exact ⟨t, ⟨below, hext.trans hbelow, hmade⟩, ht⟩

theorem parsesAll_nil (a : Arena) : a.ParsesAll a [] :=
  ⟨.refl a, by simp⟩

theorem Parses.cons (h : a.Parses a' id) (hs : a'.ParsesAll a'' ids) :
    a.ParsesAll a'' (id :: ids) :=
  ⟨h.extends.trans hs.1, forall_mem_cons.mpr
    ⟨h.mono hs.1, fun j hj => (hs.2 j hj).of_extends h.extends⟩⟩

theorem ParsesAll.exists_held (h : a.ParsesAll a' ids) :
    ∃ ts, a'.HoldAll ts ids ∧ ∀ t ∈ ts, t.Parsed := by
  rcases h with ⟨-, h⟩
  induction ids with
  | nil => exact ⟨[], rfl, by simp⟩
  | cons id ids ih =>
    rcases h id mem_cons_self with ⟨t, hmade, ht⟩
    rcases ih fun j hj => h j (mem_cons_of_mem id hj) with ⟨ts, hheld, hts⟩
    exact ⟨t :: ts, ⟨id, ids, rfl, hmade.holds, hheld⟩, forall_mem_cons.mpr ⟨ht, hts⟩⟩

theorem Parses.writable (h : a.Parses a' id) : (a'.node id).quantifier.Writable := by
  rcases h with ⟨t, hmade, ht⟩
  rw [hmade.holds.2]
  exact ht.writable

theorem Parses.quantified (h : a.Parses a' id) (hq : q.Writable) :
    a.Parses (a'.modify id fun n => { n with quantifier := q }) id := by
  rcases h with ⟨t, hmade, ht⟩
  refine ⟨t.requantified q, ?_, ht.requantified hq⟩
  rw [Tree.quantifier_requantified]
  exact (hmade.requantified q).modify q

theorem parses_push {n : Node} (hext : a.Extends a') (hstands : a'.Stands n.kind t)
    (hquantifier : n.quantifier = t.quantifier) (ht : t.Parsed) : a.Parses (a'.push n) a'.size := by
  refine ⟨t, ?_, ht⟩
  rw [← hquantifier]
  exact made_push hext hstands

/-- A component that has a quantifier becomes the only child of a sequence. -/
theorem Parses.wrapped (h : a.Parses a' id) (hone : (a'.node id).quantifier.isOne = false)
    (hq : q.Writable) (text : List Char) :
    a.Parses ((a'.push (Definition.newNode (.sequence [id]) text)).modify a'.size
      fun n => { n with quantifier := q }) a'.size := by
  rcases h with ⟨t, hmade, ht⟩
  rw [hmade.holds.2] at hone
  have hquantified : t.quantifier ≠ .one := by simpa [Quantifier.isOne] using hone
  have hstands : a'.Stands (.sequence [id]) (.group .sequence [t] q) :=
    ⟨[id], rfl, id, [], rfl, hmade.holds, rfl⟩
  have hpush : a.Made (a'.push (Definition.newNode (.sequence [id]) text)) _ .one a'.size :=
    made_push hmade.extends hstands
  exact ⟨.group .sequence [t] q, hpush.modify q, .wrapper hquantified hq ht⟩

end Arena

namespace Definition

/-! ## Readers -/

/-- What holds of the arena and the result of a reader that meets no fault. -/
def Gives {α : Type} (a : Arena) (post : Arena → α → Prop) (p : Parser α) : Prop :=
  ∀ ⦃source r x s⦄, p.run ⟨source, r, a⟩ = (.ok x, s) → post s.arena x

section Gives

variable {α β : Type} {a : Arena} {post : Arena → α → Prop} {post' : Arena → β → Prop}
variable {p : Parser α} {f : α → Parser β} {id : NodeId} {q : Quantifier}

theorem Gives.bind (hp : Gives a post p) (hf : ∀ a' x, post a' x → Gives a' post' (f x)) :
    Gives a post' (p >>= f) := by
  intro source r y s h
  rw [run_bind] at h
  rcases hrun : p.run ⟨source, r, a⟩ with ⟨out, s'⟩
  rw [hrun] at h
  cases out with
  | error e => cases h
  | ok x => exact hf s'.arena x (hp hrun) h

theorem gives_pure {x : α} (h : post a x) : Gives a post (pure x) := by
  rintro source r _ _ ⟨⟩
  exact h

theorem gives_fail (cause : GrammarCause) : Gives a post (fail cause) := by
  rintro source r x s ⟨⟩

theorem gives_fail_bind (cause : GrammarCause) : Gives a post' (fail cause >>= f) :=
  Gives.bind (show Gives a (fun _ _ => False) _ from gives_fail cause) fun _ _ h => h.elim

theorem gives_rest_bind {f : List Char → Parser β} (hf : ∀ r, Gives a post' (f r)) :
    Gives a post' (rest >>= f) :=
  fun _ r _ _ h => hf r h

theorem gives_setRest_bind {r : List Char} {f : Unit → Parser β} (hf : Gives a post' (f ())) :
    Gives a post' (setRest r >>= f) :=
  fun _ _ _ _ h => hf h

theorem gives_throw {halt : Halt} : Gives a post (throw halt : Parser α) := by
  rintro source r x s ⟨⟩

theorem gives_checked_bind {slice : Option α} (hf : ∀ x, slice = some x → Gives a post' (f x)) :
    Gives a post' (checked slice >>= f) := by
  cases slice with
  | none => rintro source r x s ⟨⟩
  | some x => exact hf x rfl

theorem gives_advance_bind {count : Nat} {f : Unit → Parser β} (hf : Gives a post' (f ())) :
    Gives a post' (advance count >>= f) := by
  rw [advance, bind_assoc]
  refine gives_rest_bind fun r => ?_
  rw [bind_assoc]
  exact gives_checked_bind fun _ _ => gives_setRest_bind hf

theorem gives_skipBlanks_bind {f : List Char → Parser β} (hf : ∀ r, Gives a post' (f r)) :
    Gives a post' (skipBlanks >>= fun _ => rest >>= f) :=
  fun _ r _ _ h => hf (r.dropWhile Blank) h

theorem gives_quantifierOf_bind {f : Quantifier → Parser β}
    (hf : Gives a post' (f (a.node id).quantifier)) : Gives a post' (quantifierOf id >>= f) :=
  fun _ _ _ _ h => hf h

theorem gives_setQuantifier_bind {f : Unit → Parser β}
    (hf : Gives (a.modify id fun n => { n with quantifier := q }) post' (f ())) :
    Gives a post' (setQuantifier id q >>= f) :=
  fun _ _ _ _ h => hf h

theorem gives_slot_bind {name : String} {f : NodeId → Parser β}
    (hf : Gives (a.slot name).2 post' (f (a.slot name).1)) : Gives a post' (slot name >>= f) := by
  intro source r y s h
  rw [run_bind, run_slot] at h
  exact hf h

theorem gives_push {post : Arena → NodeId → Prop} {kind : NodeKind} {start : List Char}
    (h : ∀ text, post (a.push (newNode kind text)) a.size) : Gives a post (push kind start) := by
  intro source r id s hrun
  obtain ⟨text, -, rfl, rfl⟩ := run_push_eq_ok hrun
  exact h text

theorem gives_peekCombinator (a : Arena) : Gives a (fun a' _ => a' = a) peekCombinator := by
  intro source r x s h
  have hkeeps : Keeps (· = a) (fun _ => True) peekCombinator := keeps_peekCombinator
  have hsame := (hkeeps ⟨source, r, a⟩ rfl).1
  rwa [h] at hsame

theorem gives_range (a : Arena) : Gives a (fun a' q => a' = a ∧ q.Writable) range := by
  unfold range
  apply gives_rest_bind
  intro r
  split
  · exact gives_fail _
  · apply gives_checked_bind
    intro text _
    apply gives_checked_bind
    intro body _
    split
    next q hbounds => exact gives_advance_bind (gives_pure ⟨rfl, writable_of_bounds? hbounds⟩)
    next => exact gives_fail _

end Gives

section Readers

open Arena

variable {a a₀ : Arena} {inner operand reader : Parser NodeId} {start : List Char} {id : NodeId}

theorem gives_cons {a₁ : Arena} {p : Parser (List NodeId)} (h : a.Parses a₁ id)
    (hp : Gives a₁ (ParsesAll a₁) p) : Gives a₁ (ParsesAll a) (do return id :: (← p)) := by
  refine hp.bind ?_
  intro a₂ ids hids
  exact gives_pure (h.cons hids)

theorem gives_moreOperands (c : Combinator) (hoperand : ∀ a, Gives a (Parses a) operand)
    (count : Nat) : Gives a (ParsesAll a) (moreOperands c operand count) := by
  induction count generalizing a with
  | zero => exact gives_throw
  | succ n ih =>
    unfold moreOperands
    refine Gives.bind (gives_peekCombinator a) ?_
    rintro _ next rfl
    split
    · split
      · apply gives_advance_bind
        refine Gives.bind (hoperand _) ?_
        intro a₁ id hid
        exact gives_cons hid ih
      · exact gives_pure (parsesAll_nil _)
    · exact gives_pure (parsesAll_nil _)

/-- A group of what was read. -/
theorem parses_group {a₁ : Arena} (g : Grouping) {ids : List NodeId} (hlength : 2 ≤ ids.length)
    (h : a.ParsesAll a₁ ids) (text : List Char) :
    a.Parses (a₁.push (newNode (g.kind ids) text)) a₁.size := by
  rcases h.exists_held with ⟨ts, hheld, hts⟩
  rw [← (holdAll_iff.mp hheld).length_eq] at hlength
  exact parses_push (t := .group g ts .one) h.1 ⟨ids, rfl, hheld⟩ rfl
    (.group hlength writable_one hts)

theorem gives_combined (c : Combinator) (hoperand : ∀ a, Gives a (Parses a) operand) :
    Gives a (Parses a) (combined c operand) := by
  unfold combined
  apply gives_skipBlanks_bind
  intro start
  refine Gives.bind (hoperand a) ?_
  intro a₁ first hfirst
  refine Gives.bind (gives_moreOperands c hoperand _) ?_
  intro a₂ others hothers
  split
  · exact gives_pure (hfirst.mono hothers.1)
  next hnil =>
    refine gives_push fun text => ?_
    rw [c.kind_eq]
    refine parses_group _ ?_ (hfirst.cons hothers) text
    exact Nat.succ_le_succ (length_pos_iff.mpr hnil)

theorem gives_components (hreader : ∀ a, Gives a (Parses a) reader) (count : Nat) :
    Gives a (ParsesAll a) (components reader count) := by
  induction count generalizing a with
  | zero => exact gives_throw
  | succ n ih =>
    unfold components
    apply gives_skipBlanks_bind
    intro r
    split
    · exact gives_pure (parsesAll_nil a)
    · refine Gives.bind (hreader a) ?_
      intro a₁ id hid
      exact gives_cons hid ih

theorem gives_juxtaposition (hreader : ∀ a, Gives a (Parses a) reader) :
    Gives a (Parses a) (juxtaposition reader) := by
  unfold juxtaposition
  apply gives_skipBlanks_bind
  intro start
  refine Gives.bind (gives_components hreader _) ?_
  intro a₁ ids hids
  split
  · apply gives_rest_bind
    intro r
    split <;> exact gives_fail _
  · exact gives_pure (hids.2 _ mem_cons_self)
  next hnil hone =>
    refine gives_push fun text => parses_group .sequence ?_ hids text
    rcases ids with _ | ⟨id, _ | ⟨id', ids⟩⟩
    · exact absurd rfl hnil
    · exact absurd rfl (hone id)
    · exact Nat.le_add_left _ _

theorem parses_leaf {kind : NodeKind} {t : Tree} (hstands : a.Stands kind t)
    (hquantifier : t.quantifier = .one) (ht : t.Parsed) :
    Gives a (Parses a) (push kind start) :=
  gives_push fun _ => parses_push (.refl a) hstands hquantifier.symm ht

/-- The name in angle brackets, without what stands behind it. -/
theorem chars_of_mem_name {r inner : List Char} {stop : Nat} {c : Char}
    (hfound : seek? (· = '>') r = some stop) (hinner : slice? 1 stop r = some inner)
    (hc : c ∈ (trimmed Blank inner).takeWhile fun c => !Blank c && c != '[') :
    Blank c = false ∧ c ≠ '[' ∧ c ≠ '>' := by
  have hplain := mem_takeWhile_imp hc
  simp only [Bool.and_eq_true, Bool.not_eq_true', bne_iff_ne] at hplain
  have htrimmed := List.IsPrefix.subset ( takeWhile_prefix _) hc
  unfold trimmed at htrimmed
  have hmem := (dropWhile_suffix _).subset
    (mem_reverse.mp ((dropWhile_suffix _).subset (mem_reverse.mp htrimmed)))
  have hangle := forall_of_slice? hfound hinner c hmem
  exact ⟨hplain.1, hplain.2, of_decide_eq_false hangle⟩

theorem gives_dataType : Gives a (Parses a) (dataType start) := by
  unfold dataType
  apply gives_rest_bind
  intro r
  split
  · exact gives_fail _
  next stop hfound =>
    apply gives_checked_bind
    intro inner hinner
    apply gives_advance_bind
    apply gives_checked_bind
    intro name hname
    rw [before?_takeWhile, Option.some.injEq] at hname
    dsimp only
    split
    · exact gives_fail_bind _
    next hempty =>
      split
      · exact parses_leaf (t := .function _ [] .one) ⟨[], rfl, rfl⟩ rfl
          (.function _ (Nat.zero_le 1) writable_one (by simp))
      next hsuffix =>
        split
        next hprimitive =>
          exact parses_leaf (t := .dataType _ .one) rfl rfl (.dataType hprimitive writable_one)
        next hprimitive =>
          apply gives_slot_bind
          refine gives_push fun _ => parses_push (t := .reference _ .one) (a.extends_slot _)
            ⟨_, rfl⟩ rfl (.reference ?_ ?_ ?_ ?_ writable_one)
          · simpa using hempty
          · simpa using hprimitive
          · intro c hc
            rw [String.toList_ofList, ← hname] at hc
            exact chars_of_mem_name hfound hinner hc
          · rw [String.toList_ofList]
            exact Bool.eq_false_iff.mpr hsuffix

theorem gives_function (name : String) (hinner : ∀ a, Gives a (Parses a) inner) :
    Gives a (Parses a) (function inner name start) := by
  -- What is behind the arguments, which are none or one.
  have hbehind {a₁ : Arena} {ids : List NodeId} (hlength : ids.length ≤ 1)
      (hids : a.ParsesAll a₁ ids)
      (text : List Char) : a.Parses (a₁.push (newNode (.function name ids) text)) a₁.size := by
    rcases hids.exists_held with ⟨ts, hheld, hts⟩
    rw [← (holdAll_iff.mp hheld).length_eq] at hlength
    exact parses_push (t := .function name ts .one) hids.1 ⟨ids, rfl, hheld⟩ rfl
      (.function name hlength writable_one hts)
  have harguments {a₁ : Arena} {ids : List NodeId} (hids : ids.length ≤ 1 ∧ a.ParsesAll a₁ ids) :
      Gives a₁ (fun a₂ ids => ids.length ≤ 1 ∧ a.ParsesAll a₂ ids) (pure ids) := gives_pure hids
  unfold function
  apply gives_advance_bind
  apply gives_skipBlanks_bind
  intro r
  split
  case' isTrue => refine Gives.bind (harguments ⟨Nat.zero_le 1, parsesAll_nil a⟩) ?_
  case' isFalse =>
    refine Gives.bind (hinner a) ?_
    intro a₁ id hid
    refine Gives.bind (harguments ⟨Nat.le_refl 1, hid.cons (parsesAll_nil a₁)⟩) ?_
  all_goals
    rintro a₂ ids ⟨hlength, hids⟩
    apply gives_skipBlanks_bind
    intro r
    split
    · exact gives_advance_bind (gives_push fun text => hbehind hlength hids text)
    · exact gives_fail _

theorem gives_quantify (h : a₀.Parses a id) {q : Quantifier} (hq : q.Writable) :
    Gives a (Parses a₀) (quantify id q start) := by
  unfold quantify
  apply gives_quantifierOf_bind
  split
  · exact gives_setQuantifier_bind (gives_pure (h.quantified hq))
  next hone =>
    intro source r id' s hrun
    rw [run_bind] at hrun
    rcases hpush : (push (.sequence [id]) start).run ⟨source, r, a⟩ with ⟨halt | wrapper, s₁⟩
    · rw [hpush] at hrun
      cases hrun
    · rw [hpush] at hrun
      obtain ⟨text, -, rfl, rfl⟩ := run_push_eq_ok hpush
      cases hrun
      exact h.wrapped (Bool.eq_false_iff.mpr hone) hq text

theorem gives_multipliers (count : Nat) (afterHash : Bool) (h : a₀.Parses a id) :
    Gives a (Parses a₀) (multipliers start count afterHash id) := by
  induction count generalizing a id afterHash with
  | zero => exact gives_throw
  | succ n ih =>
    have hquantify (afterHash : Bool) {q : Quantifier} (hq : q.Writable) : Gives a (Parses a₀)
        (do multipliers start n afterHash (← quantify id q start)) :=
      Gives.bind (gives_quantify h hq) fun _ _ h => ih afterHash h
    unfold multipliers
    apply gives_rest_bind
    intro r
    split
    · exact gives_pure h
    · apply gives_advance_bind
      apply gives_quantifierOf_bind
      exact gives_setQuantifier_bind (ih false (h.quantified h.writable.required))
    · refine Gives.bind (gives_range a) ?_
      rintro _ b ⟨rfl, hb⟩
      split
      · apply gives_quantifierOf_bind
        exact gives_setQuantifier_bind (ih false (h.quantified (h.writable.refined hb)))
      · exact hquantify false hb
    · split
      · exact gives_pure h
      next q hq =>
        apply gives_advance_bind
        split
        · apply gives_quantifierOf_bind
          exact gives_setQuantifier_bind (ih false (h.quantified h.writable.fromZero))
        · exact hquantify _ (writable_of_quantifier? hq)

theorem gives_group (hinner : ∀ a, Gives a (Parses a) inner) :
    Gives a (Parses a) (group inner) := by
  unfold group
  apply gives_skipBlanks_bind
  intro r
  dsimp only
  split
  · exact gives_fail_bind _
  · refine Gives.bind (hinner a) ?_
    intro a₁ id hid
    apply gives_skipBlanks_bind
    intro r
    split
    · exact gives_advance_bind (gives_pure hid)
    · exact gives_fail _

theorem gives_unquantified (hinner : ∀ a, Gives a (Parses a) inner) :
    Gives a (Parses a) (unquantified inner) := by
  have hliteral (text : String) {start : List Char} :
      Gives a (Parses a) (push (.literal text) start) :=
    parses_leaf (t := .literal text .one) rfl rfl (.literal text writable_one)
  unfold unquantified
  apply gives_rest_bind
  intro start
  split
  · exact gives_fail _
  · exact gives_advance_bind (gives_group hinner)
  · exact gives_dataType
  · split
    · apply gives_checked_bind
      intro r _
      split
      · exact gives_fail _
      · apply gives_checked_bind
        intro text _
        apply gives_checked_bind
        intro behind _
        exact gives_setRest_bind (hliteral _)
    · split
      · exact gives_advance_bind (hliteral _)
      · split
        · apply gives_checked_bind
          intro name _
          apply gives_advance_bind
          apply gives_rest_bind
          intro r
          split
          · exact gives_function _ hinner
          · exact hliteral _
        · exact gives_fail _

theorem gives_component (hinner : ∀ a, Gives a (Parses a) inner) :
    Gives a (Parses a) (component inner) := by
  unfold component
  apply gives_rest_bind
  intro start
  exact Gives.bind (gives_unquantified hinner) fun _ _ h => gives_multipliers _ _ h

theorem gives_grammarWithin (depth : Nat) (a : Arena) :
    Gives a (Parses a) (grammarWithin depth) := by
  induction depth generalizing a with
  | zero => exact gives_throw
  | succ n ih =>
    exact gives_combined _ fun a => gives_combined _ fun a => gives_combined _ fun a =>
      gives_juxtaposition fun a => gives_component ih

theorem gives_wholeGrammar (depth : Nat) (a : Arena) : Gives a (Parses a) (wholeGrammar depth) := by
  unfold wholeGrammar
  refine Gives.bind (gives_grammarWithin depth a) ?_
  intro a₁ root hroot
  apply gives_skipBlanks_bind
  intro r
  split
  · exact gives_pure hroot
  · exact gives_fail _

end Readers

end Definition

namespace Arena

/-- What a text defines is a tree. -/
theorem parses_define {a a' : Arena} {text : String} {root : NodeId}
    (h : a.define text = (.ok root, a')) : a.Parses a' root := by
  obtain ⟨s, hrun, harena⟩ := Definition.run_of_define (congrArg Prod.fst h)
  have hparses := Definition.gives_wholeGrammar _ a hrun
  rw [h] at harena
  rwa [harena] at hparses

end Arena

end StyleGrammar
