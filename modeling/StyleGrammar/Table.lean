/-!
# Tables

A table maps names to entries and keeps the names in the order in which they first came up.
-/

namespace StyleGrammar

structure Table (α : Type) where
  rows : List (String × α)
  deriving Repr, Inhabited

namespace Table

variable {α : Type}

def empty : Table α := ⟨[]⟩

def names (t : Table α) : List String := t.rows.map Prod.fst

def entries (t : Table α) : List α := t.rows.map Prod.snd

def get? (t : Table α) (name : String) : Option α := t.rows.lookup name

def contains (t : Table α) (name : String) : Bool := (t.get? name).isSome

/-- Replaces the entry of a name where it is, or adds a row. -/
def insert (t : Table α) (name : String) (a : α) : Table α :=
  if t.contains name then ⟨t.rows.map fun r => if r.1 = name then (name, a) else r⟩
  else ⟨t.rows ++ [(name, a)]⟩

def ofList (rows : List (String × α)) : Table α :=
  rows.foldl (fun t r => t.insert r.1 r.2) empty

end Table

end StyleGrammar
