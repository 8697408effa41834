import StyleGrammar.Value.Leaf

/-!
# Sequences of values

A declaration is a sequence of values.  Commas and slashes are values of it, and square brackets
are flattened into a delimiter at either end.  The written form has one space between values, none
inside brackets, and optional ones around commas and slashes.
-/

namespace StyleGrammar

namespace Sequence

variable {V : Type}

open Reader

def delimiter [Term V] (c : Char) : V := Term.ofLeaf (.delimiter c)

/-- A value, or what stands between brackets along with them. -/
def readItem [Term V] (inner : Reader (List V)) : Reader (List V) := do
  if ← succeeds square then
    let vs ← nested (block inner)
    return delimiter '[' :: vs ++ [delimiter ']']
  else return [← read]

/-- All values of the text, with brackets at most `depth` deep. -/
def readWithin [Term V] : (depth : Nat) → Reader (List V)
  | 0 => fail .invalidValue
  | n + 1 => List.flatten <$> untilEnd (readItem (readWithin n))

/-- Reading stops at the limit on nesting before this depth is used up. -/
def maxDepth : Nat := nestingLimit + 1

/-- All values of the text. -/
def read [Term V] : Reader (List V) := readWithin maxDepth

/-- The delimiter that a value is. -/
def delimiter? [Term V] (v : V) : Option Char :=
  match Term.leaf? v with
  | some (.delimiter c) => some c
  | _ => none

/-- Values behind some others; `spaced` says whether a space has to come before the next one. -/
def printFrom [Term V] (compact : Bool) : (spaced : Bool) → List V → Output
  | _, [] => []
  | spaced, v :: vs =>
    let gap := if spaced then Output.char ' ' else []
    match delimiter? v with
    | some ',' => Output.comma compact ++ printFrom compact false vs
    | some '/' => Output.delim compact '/' true ++ printFrom compact false vs
    | some '[' => gap ++ Output.char '[' ++ printFrom compact false vs
    | some ']' => Output.char ']' ++ printFrom compact true vs
    | _ => gap ++ Printable.print compact v ++ printFrom compact true vs

def print [Term V] (compact : Bool) (vs : List V) : Output := printFrom compact false vs

/-- The values behind a comma, if there is one; then they may also be none. -/
def readFallback [Term V] : Reader (Option (List V)) := do
  if ← succeeds comma then some <$> read else return none

/-- Behind the comma of an empty fallback there is no space. -/
def printFallback [Term V] (compact : Bool) : Option (List V) → Output
  | none => []
  | some [] => Output.char ','
  | some vs => Output.comma compact ++ print compact vs

end Sequence

end StyleGrammar
