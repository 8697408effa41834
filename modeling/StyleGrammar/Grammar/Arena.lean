import StyleGrammar.Text.Alphanumeric

/-!
# Grammars

A grammar is a tree of nodes, each with a quantifier.  The nodes of all grammars live in one arena
and refer to each other by their index.  A named grammar has a slot, a node that others refer to;
a slot that was not filled yet is a placeholder.
-/

namespace StyleGrammar

abbrev NodeId := Nat

/-- How often a node is repeated: at least `min` and at most `max?` times, with a separator between
the repetitions.  A required node cannot match nothing. -/
structure Quantifier where
  min : Nat
  max? : Option Nat
  separator? : Option Char
  required : Bool
  deriving DecidableEq, Repr, Inhabited

namespace Quantifier

/-- Exactly once. -/
def one : Quantifier := ⟨1, some 1, none, false⟩

/-- Between two bounds, without a separator. -/
def between (min : Nat) (max? : Option Nat) : Quantifier := ⟨min, max?, none, false⟩

def isOne (q : Quantifier) : Bool := q = one

/-- Whether one more repetition may follow a number of them. -/
def allows (q : Quantifier) (count : Nat) : Bool :=
  match q.max? with
  | some max => count < max
  | none => true

end Quantifier

/-- What a node stands for. -/
inductive NodeKind
  | literal (text : String)
  | dataType (name : String)
  | function (name : String) (children : List NodeId)
  | sequence (children : List NodeId)
  | unordered (children : List NodeId)
  | subset (children : List NodeId)
  | alternation (children : List NodeId)
  | reference (name : String) (target : NodeId)
  | placeholder
  deriving DecidableEq, Repr, Inhabited

/-- The nodes that a node is made of.  The target of a reference is not among them. -/
def NodeKind.children : NodeKind → List NodeId
  | function _ cs | sequence cs | unordered cs | subset cs | alternation cs => cs
  | _ => []

/-- A node of a grammar: `raw` is the text that it was read from, and a slot has a name. -/
structure Node where
  kind : NodeKind
  quantifier : Quantifier
  raw : String
  name? : Option String
  deriving DecidableEq, Repr, Inhabited

def Node.children (n : Node) : List NodeId := n.kind.children

/-- The nodes of some grammars, and the slots by their names, in the order in which they came up. -/
structure Arena where
  nodes : Array Node
  names : List (String × NodeId)
  deriving Repr, Inhabited

namespace Arena

def empty : Arena := ⟨#[], []⟩

def size (a : Arena) : Nat := a.nodes.size

/-- An arena without nodes yields a node that matches nothing for every index. -/
def blank : Node := ⟨.placeholder, .one, "", none⟩

def node (a : Arena) (id : NodeId) : Node := a.nodes.getD id blank

def push (a : Arena) (n : Node) : Arena := { a with nodes := a.nodes.push n }

/-- Changes a node in place. -/
def modify (a : Arena) (id : NodeId) (f : Node → Node) : Arena :=
  { a with nodes := a.nodes.modify id f }

def lookup? (a : Arena) (name : String) : Option NodeId := a.names.lookup name

/-- The slot of a name, which is made when the name first comes up. -/
def slot (a : Arena) (name : String) : NodeId × Arena :=
  match a.lookup? name with
  | some id => (id, a)
  | none =>
    let id := a.size
    (id, { a.push ⟨.placeholder, .one, "", some name⟩ with names := a.names ++ [(name, id)] })

/-- Puts a grammar into a slot, which keeps its name. -/
def fill (a : Arena) (slot root : NodeId) : Arena :=
  a.modify slot fun n => { a.node root with name? := n.name? }

def isFilled (a : Arena) (slot : NodeId) : Bool := (a.node slot).kind ≠ .placeholder

def resolveWithin (a : Arena) : (steps : Nat) → NodeId → NodeId
  | 0, id => id
  | n + 1, id =>
    match (a.node id).kind with
    | .reference _ target => a.resolveWithin n target
    | _ => id

/-- The end of a chain of references.  A chain of more steps than there are nodes is a cycle. -/
def resolve (a : Arena) (id : NodeId) : NodeId := a.resolveWithin a.size id

end Arena

end StyleGrammar
