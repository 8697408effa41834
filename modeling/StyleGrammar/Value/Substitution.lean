import StyleGrammar.Value.Sequence

/-!
# Substitution functions

Functions that stand for values known only later: of a variable, of the environment, or of an
attribute.  Each may have a fallback, which is any sequence of values.
-/

namespace StyleGrammar

open Reader

/-- The value of an attribute, perhaps read as a given type or unit. -/
structure Attr (V : Type) where
  name : String
  type? : Option String
  fallback? : Option (List V)
  deriving BEq, Repr, Inhabited

/-- A value of the environment, perhaps with indices into it. -/
structure Env (V : Type) where
  name : String
  indices : List Int
  fallback? : Option (List V)
  deriving BEq, Repr, Inhabited

/-- The value of a variable. -/
structure Var (V : Type) where
  name : DashedIdent
  fallback? : Option (List V)
  deriving BEq, Repr, Inhabited

variable {V : Type}

/-- The name of a type or unit, or the percent sign. -/
def Attr.typeOf? : Token → Option String
  | .ident n => some n
  | .delim '%' => some "%"
  | _ => none

instance [Term V] : Readable (Attr V) where
  read := do
    functionNamed "attr"
    block do
      let name ← ident
      let type? ← attempt (expect Attr.typeOf?)
      return ⟨name, type?, ← Sequence.readFallback⟩

instance [Term V] : Printable (Attr V) where
  print compact a :=
    let type :=
      match a.type? with
      | some "%" => Output.text " %"
      | some t => Output.char ' ' ++ Output.identifier t
      | none => []
    Output.call "attr"
      (Output.identifier a.name ++ type ++ Sequence.printFallback compact a.fallback?)

instance [Term V] : Readable (Env V) where
  read := do
    functionNamed "env"
    block do
      let name ← ident
      let indices ← many integer
      return ⟨name, indices, ← Sequence.readFallback⟩

instance [Term V] : Printable (Env V) where
  print compact e :=
    Output.call "env"
      (Output.identifier e.name ++
        e.indices.flatMap (fun i => Output.char ' ' ++ Printable.print compact i) ++
        Sequence.printFallback compact e.fallback?)

instance [Term V] : Readable (Var V) where
  read := do
    functionNamed "var"
    block do
      let name ← read
      return ⟨name, ← Sequence.readFallback⟩

instance [Term V] : Printable (Var V) where
  print compact v :=
    Output.call "var"
      (Printable.print compact v.name ++ Sequence.printFallback compact v.fallback?)

end StyleGrammar
