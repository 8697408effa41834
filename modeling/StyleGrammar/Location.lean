/-!
# Places in a text

A place is a line, counted from zero, and a column, counted from one in UTF-16 code units.
`Location.advance` is the only way a place moves: over the characters that were read.  A carriage
return followed by a line feed ends one line, not two.
-/

namespace StyleGrammar

/-- A place in a text, between two characters. -/
structure Location where
  line : Nat
  column : Nat
  deriving DecidableEq, Repr, Inhabited

/-- Line feed, form feed and carriage return end a line. -/
def Newline (c : Char) : Bool := c = '\n' || c = '\x0c' || c = '\r'

/-- The blanks of a style sheet: newlines, tabs and spaces, and no other character. -/
def Blank (c : Char) : Bool := c = ' ' || c = '\t' || Newline c

namespace Location

/-- The place before the first character of a text. -/
def start : Location := ⟨0, 1⟩

/-- The first column of the line below. -/
def nextLine (l : Location) : Location := ⟨l.line + 1, 1⟩

/-- The UTF-16 code units of a character. -/
def units (c : Char) : Nat := if c.val < 0x10000 then 1 else 2

/-- Where reading the characters leads from a place. -/
def advance : Location → List Char → Location
  | l, [] => l
  | l, '\r' :: '\n' :: r => advance l.nextLine r
  | l, c :: r => advance (if Newline c then l.nextLine else ⟨l.line, l.column + units c⟩) r

@[simp] theorem advance_nil (l : Location) : l.advance [] = l := by
  simp [advance]

end Location

end StyleGrammar
