import StyleGrammar.Grammar.Arena
import StyleGrammar.Grammar.DataType

/-!
# Matching values

Values are matched against a grammar one at a time.  A `Progress` says how far the values so far
have come: how many repetitions of a node are complete, and which one is being matched.  Matching
commits to the first alternative that takes a value and never goes back.

Grammars are recursive through references, so every function counts the levels that it may still
descend; with none left, values are rejected and nothing is open.  One level of a grammar takes two
of these levels: one for the node and one for the repetition of it.
-/

namespace StyleGrammar

mutual

/-- A node that is being matched, with the number of repetitions that are complete.  They
are counted in 32 bits, but a match of 2 ^ 32 repetitions, which would use these up, is left out:
here the number has no bound. -/
inductive Progress
  | mk (node : NodeId) (count : Nat) (phase : Phase)

/-- What is between the complete repetitions and the next value: nothing, a separator, or a
repetition that has taken values and may take more. -/
inductive Phase
  | between
  | separated
  | within (repetition : Repeat)

/-- A repetition that has taken a value.  A sequence and an alternation are at one of their
children; the children before it in a sequence are complete.  A group knows which children have
begun, and only the active one may go on. -/
inductive Repeat
  | sequence (index : Nat) (child : Progress)
  | choice (index : Nat) (child : Progress)
  | group (begun : List (Option Progress)) (active : Nat)
  | reference (target : Progress)

end

namespace Progress

instance : Inhabited Progress := ⟨mk 0 0 .between⟩

def node : Progress → NodeId
  | mk node _ _ => node

def count : Progress → Nat
  | mk _ count _ => count

def phase : Progress → Phase
  | mk _ _ phase => phase

/-- A node before any value. -/
def start (node : NodeId) : Progress := mk node 0 .between

end Progress

/-- What a value does to a match: it is rejected, it is the last one that can be taken, or more may
follow. -/
inductive Outcome
  | rejected
  | exhausted (next : Progress)
  | continued (next : Progress)

/-- The match after a value, unless it was rejected. -/
def Outcome.next? : Outcome → Option Progress
  | rejected => none
  | exhausted next | continued next => some next

/-- The grammars to match against, and the identifiers that are no custom ones. -/
structure Matcher where
  arena : Arena
  forbidden : List String

namespace Matcher

/-- How many levels a match may descend. -/
def nestingLimit : Nat := 256

/-- The levels at the root of a grammar.  The root is a level of its own. -/
def fullDepth : Nat := nestingLimit + 1

variable (m : Matcher)

def kind (id : NodeId) : NodeKind := (m.arena.node id).kind

def quantifier (id : NodeId) : Quantifier := (m.arena.node id).quantifier

def children (id : NodeId) : List NodeId := (m.arena.node id).children

/-- Whether one repetition of a node may match no values. -/
def contentNullable : (levels : Nat) → NodeId → Bool
  | 0, _ => false
  | n + 1, id =>
    let nullable (child : NodeId) := (m.quantifier child).min = 0 || contentNullable n child
    !(m.quantifier id).required &&
      match m.kind id with
      | .sequence children | .unordered children => children.all nullable
      | .subset children | .alternation children => children.any nullable
      | .reference _ target => nullable target
      | _ => false

/-- Whether a node with its quantifier may match no values. -/
def nullable (levels : Nat) (id : NodeId) : Bool :=
  (m.quantifier id).min = 0 || m.contentNullable levels id

/-- Whether a number of repetitions is enough.  If one may match nothing, the missing ones do. -/
def isEnough (levels : Nat) (id : NodeId) (count : Nat) : Bool :=
  (m.quantifier id).min ≤ count || m.contentNullable levels id

/-- Whether all children of a group have to be matched. -/
def isUnordered (id : NodeId) : Bool :=
  match m.kind id with
  | .unordered _ => true
  | _ => false

mutual

/-- Whether the values so far match the node. -/
def satisfied : (levels : Nat) → Progress → Bool
  | 0, .mk node count phase =>
    match phase with
    | .between => m.isEnough 0 node count
    | _ => false
  | n + 1, .mk node count phase =>
    match phase with
    | .between => m.isEnough n node count
    | .separated => false
    | .within r => repeatSatisfied n node r && m.isEnough n node (count + 1)

/-- Whether a repetition may end here. -/
def repeatSatisfied : (levels : Nat) → NodeId → Repeat → Bool
  | 0, _, _ => false
  | n + 1, id, r =>
    match r with
    | .sequence index child =>
      satisfied n child && ((m.children id).drop (index + 1)).all (m.nullable n)
    | .choice _ child | .reference child => satisfied n child
    | .group begun _ =>
      (begun.zip (m.children id)).all fun (state?, child) =>
        match state? with
        | some state => satisfied n state
        | none => !m.isUnordered id || m.nullable n child

end

mutual

/-- Whether a match may take more values. -/
def isOpenWithin : (levels : Nat) → Progress → Bool
  | 0, _ => false
  | n + 1, .mk node count phase =>
    match phase with
    | .within r => repeatOpen n node r || (m.quantifier node).allows (count + 1)
    | _ => (m.quantifier node).allows count

/-- Whether a repetition may take more values. -/
def repeatOpen : (levels : Nat) → NodeId → Repeat → Bool
  | 0, _, _ => false
  | n + 1, id, r =>
    match r with
    | .sequence index child => index + 1 < (m.children id).length || isOpenWithin n child
    | .choice _ child | .reference child => isOpenWithin n child
    | .group begun active =>
      begun.any Option.isNone ||
        match begun[active]? with
        | some (some state) => isOpenWithin n state
        | _ => false

end

/-- A match inside a repetition, which is counted as complete if it can take nothing more. -/
def settled (node : NodeId) (count : Nat) (r : Repeat) : Progress :=
  if m.repeatOpen fullDepth node r then .mk node count (.within r)
  else .mk node (count + 1) .between

section Step

variable {V : Type} (v : Form V)

/-- Whether a value is a literal: a delimiter exactly, a keyword in any case of its letters. -/
def isLiteral (text : String) : Bool :=
  match v with
  | .leaf (.delimiter c) => text = String.singleton c
  | v => v.ident?.any (Reader.sameName text)

/-- Whether a function of a grammar takes a value. -/
def isFunction (name : String) : Bool := v.matchesFunction name || v.isSubstitution

/-- Whether a value is the whole of a composite data type. -/
def isComposite (name : String) : Bool :=
  (DataType.compositeKinds? name).any (·.contains v.kind)

variable (take : Progress → Option Progress) (levels : Nat)

/-- The first child from an index that takes the value.  Only children that may match nothing are
passed over. -/
def beginSequence : (index : Nat) → List NodeId → Option Repeat
  | _, [] => none
  | index, child :: rest =>
    match take (.start child) with
    | some state => some (.sequence index state)
    | none => if m.nullable levels child then beginSequence (index + 1) rest else none

/-- The first child of a group that has not begun and takes the value.  `passed` are the states
of the children in front, the last one first. -/
def beginGroup (passed : List (Option Progress)) :
    List (Option Progress) → List NodeId → Option Repeat
  | none :: begun, child :: rest =>
    match take (.start child) with
    | some state => some (.group (passed.reverse ++ some state :: begun) passed.length)
    | none => beginGroup (none :: passed) begun rest
  | some state :: begun, _ :: rest => beginGroup (some state :: passed) begun rest
  | _, _ => none

/-- The first child of an alternation that takes the value. -/
def beginChoice : (index : Nat) → List NodeId → Option Repeat
  | _, [] => none
  | index, child :: rest =>
    match take (.start child) with
    | some state => some (.choice index state)
    | none => beginChoice (index + 1) rest

/-- A new repetition of a node.  A repetition of a leaf is complete with its only value. -/
def beginRepeat (id : NodeId) : Option (Option Repeat) :=
  match m.kind id with
  | .literal text => if isLiteral v text then some none else none
  | .dataType name => if DataType.accepts name m.forbidden v then some none else none
  | .function name _ => if isFunction v name then some none else none
  | .placeholder => none
  | .reference name target =>
    if isComposite v name then some none
    else (take (.start target)).map fun state => some (.reference state)
  | .sequence children => (m.beginSequence take levels 0 children).map some
  | .alternation children => (beginChoice take 0 children).map some
  | .unordered children | .subset children =>
    (beginGroup take [] (children.map fun _ => none) children).map some

/-- A repetition that takes the value itself. -/
def continueRepeat (id : NodeId) : Repeat → Option Repeat
  | .sequence index child =>
    match take child with
    | some child => some (.sequence index child)
    | none =>
      if m.satisfied levels child then
        m.beginSequence take levels (index + 1) ((m.children id).drop (index + 1))
      else none
  | .choice index child => (take child).map (.choice index)
  | .group begun active =>
    let others := beginGroup take [] begun (m.children id)
    match begun[active]? with
    | some (some state) =>
      match take state with
      | some state => some (.group (begun.set active (some state)) active)
      | none => if m.satisfied levels state then others else none
    | _ => others
  | .reference target => (take target).map .reference

/-- The match after a value that starts a repetition behind `count` others.  A separator has to
stand in front of it, unless one was taken already. -/
def takeFresh (id : NodeId) (count : Nat) (separated : Bool) : Option Progress :=
  let q := m.quantifier id
  if !q.allows count then none
  else
    match q.separator? with
    | some c =>
      if 0 < count && !separated then
        match v with
        | .leaf (.delimiter d) => if d = c then some (.mk id count .separated) else none
        | _ => none
      else begun
    | none => begun
where
  begun : Option Progress :=
    match m.beginRepeat v take levels id with
    | some (some r) => some (m.settled id count r)
    | some none => some (.mk id (count + 1) .between)
    | none => none

/-- The match after a value, where `take` is the same for the children and `levels` are left for
the repetition of the node. -/
def takeWith : Progress → Option Progress
  | .mk id count phase =>
    match phase with
    | .between => m.takeFresh v take (levels - 1) id count false
    | .separated => m.takeFresh v take (levels - 1) id count true
    | .within r =>
      match m.continueRepeat take (levels - 1) id r with
      | some r => some (m.settled id count r)
      | none =>
        if m.repeatSatisfied levels id r then
          m.takeFresh v take (levels - 1) id (count + 1) false
        else none

end Step

variable {V : Type}

/-- The match after a value, unless the value is rejected. -/
def takeWithin (v : Form V) : (levels : Nat) → Progress → Option Progress
  | 0, _ => none
  | 1, p => m.takeWith v (fun _ => none) 0 p
  | n + 2, p => m.takeWith v (takeWithin v n) (n + 1) p

/-- Whether the values so far match the whole grammar. -/
def isSatisfied (p : Progress) : Bool := m.satisfied fullDepth p

/-- Whether more values may follow. -/
def isOpen (p : Progress) : Bool := m.isOpenWithin fullDepth p

/-- Takes one value. -/
def take (p : Progress) (v : Form V) : Outcome :=
  match m.takeWithin v fullDepth p with
  | none => .rejected
  | some next => if m.isOpen next then .continued next else .exhausted next

/-- Takes values up to the first one that is rejected, whose index is reported. -/
def takeAll (root : NodeId) (vs : List (Form V)) : Except Nat Progress :=
  go 0 (.start root) vs
where
  go (index : Nat) (p : Progress) : List (Form V) → Except Nat Progress
    | [] => .ok p
    | v :: rest =>
      match (m.take p v).next? with
      | some next => go (index + 1) next rest
      | none => .error index

end Matcher

end StyleGrammar
