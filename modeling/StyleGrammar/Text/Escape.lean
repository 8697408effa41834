/-!
# Escaping of names, strings and addresses

A name may hold any character: the ones that would end it are written behind a backslash, either
as they are or, for controls, by their hexadecimal number and a blank.  A string is quoted and
escapes less, and an address without quotes escapes what would end it.
-/

namespace StyleGrammar

namespace Escape

/-- `\1f ` and the like. -/
def byNumber (c : Char) : List Char := '\\' :: (Nat.toDigits 16 c.toNat ++ [' '])

/-- The controls that no written name or string holds as they are. -/
def isControl (c : Char) : Bool := (0 < c.val && c.val < 0x20) || c.val = 0x7f

/-- Written in a name as it is. -/
def isPlain (c : Char) : Bool := c.isAlphanum || c = '_' || c = '-' || 0x80 ≤ c.val

/-- A character that stands for text that cannot be represented. -/
def replacement : Char := '\ufffd'

/-- One character of a name, at any place but the first. -/
def nameChar (c : Char) : List Char :=
  if isPlain c then [c]
  else if c.val = 0 then [replacement]
  else if isControl c then byNumber c
  else ['\\', c]

/-- The characters of a name, where it cannot be mistaken for a number. -/
def name (s : List Char) : List Char := s.flatMap nameChar

/-- A name that is to be read as an identifier: a leading digit, also one after a hyphen, is
escaped by its number, and a lone hyphen is escaped. -/
def identifier : List Char → List Char
  | [] => []
  | '-' :: '-' :: r => '-' :: '-' :: name r
  | ['-'] => ['\\', '-']
  | '-' :: c :: r => '-' :: (if c.isDigit then byNumber c else nameChar c) ++ name r
  | c :: r => (if c.isDigit then byNumber c else nameChar c) ++ name r

def stringChar (c : Char) : List Char :=
  if c = '"' || c = '\\' then ['\\', c]
  else if c.val = 0 then [replacement]
  else if isControl c then byNumber c
  else [c]

/-- A string in double quotes. -/
def quoted (s : List Char) : List Char := '"' :: s.flatMap stringChar ++ ['"']

def addressChar (c : Char) : List Char :=
  if c.val ≤ 0x20 || c.val = 0x7f then byNumber c
  else if c = '(' || c = ')' || c = '"' || c = '\'' || c = '\\' then ['\\', c]
  else [c]

/-- An address that stands without quotes. -/
def address (s : List Char) : List Char := s.flatMap addressChar

end Escape

/-- The text of an identifier. -/
def identifierText (s : String) : String := String.ofList (Escape.identifier s.toList)

/-- The text of a quoted string. -/
def quotedText (s : String) : String := String.ofList (Escape.quoted s.toList)

/-- The text of an address without quotes. -/
def addressText (s : String) : String := String.ofList (Escape.address s.toList)

end StyleGrammar
