import StyleGrammar.Json.Basic

/-!
# Reading JSON

A text is read by recursive descent.  Every level of nesting takes a character, so the length of the
text bounds the depth.
-/

namespace StyleGrammar

namespace Json

/-- Reads something from the front of a text, and returns the rest of it. -/
abbrev Scanner (α : Type) := StateT (List Char) Option α

namespace Scanner

def isBlank (c : Char) : Bool := c = ' ' || c = '\n' || c = '\t' || c = '\r'

def skipBlanks : Scanner Unit := modify fun s => s.dropWhile isBlank

/-- The next character. -/
def next : Scanner Char := fun s =>
  match s with
  | c :: rest => some (c, rest)
  | [] => none

def peek? : Scanner (Option Char) := do return (← get).head?

/-- The longest prefix of characters of a class. -/
def span (p : Char → Bool) : Scanner (List Char) := fun s => some (s.takeWhile p, s.dropWhile p)

def literally (word : List Char) : Scanner Unit := fun s =>
  if word.isPrefixOf s then some ((), s.drop word.length) else none

def guarded (b : Bool) : Scanner Unit := if b then pure () else failure

def hexDigit? (c : Char) : Option Nat :=
  if c.isDigit then some (c.toNat - '0'.toNat)
  else if 'a' ≤ c ∧ c ≤ 'f' then some (c.toNat - 'a'.toNat + 10)
  else if 'A' ≤ c ∧ c ≤ 'F' then some (c.toNat - 'A'.toNat + 10)
  else none

def hexDigit : Scanner Nat := do hexDigit? (← next)

/-- The code point or surrogate that an escape names, behind its backslash. -/
def escape : Scanner Nat := do
  match ← next with
  | '"' => return '"'.toNat
  | '\\' => return '\\'.toNat
  | '/' => return '/'.toNat
  | 'b' => return 0x08
  | 'f' => return 0x0c
  | 'n' => return '\n'.toNat
  | 'r' => return '\r'.toNat
  | 't' => return '\t'.toNat
  | 'u' =>
    let a ← hexDigit
    let b ← hexDigit
    let c ← hexDigit
    let d ← hexDigit
    return ((a * 16 + b) * 16 + c) * 16 + d
  | _ => failure

/-- The code points and surrogates of a string, behind its opening quote, at most `count`. -/
def unitsWithin : (count : Nat) → Scanner (List Nat)
  | 0 => failure
  | n + 1 => do
    match ← next with
    | '"' => return []
    | '\\' =>
      let u ← escape
      return u :: (← unitsWithin n)
    | c =>
      guarded (0x20 ≤ c.val)
      return c.toNat :: (← unitsWithin n)

/-- The text of units, in which surrogates must stand in pairs. -/
def textOfUnits? : List Nat → Option (List Char)
  | [] => some []
  | high :: low :: rest =>
    if 0xd800 ≤ high && high < 0xdc00 && 0xdc00 ≤ low && low < 0xe000 then
      (Char.ofNat (0x10000 + (high - 0xd800) * 0x400 + (low - 0xdc00)) :: ·) <$> textOfUnits? rest
    else if 0xd800 ≤ high && high < 0xe000 then none
    else (Char.ofNat high :: ·) <$> textOfUnits? (low :: rest)
  | [u] => if 0xd800 ≤ u && u < 0xe000 then none else some [Char.ofNat u]

/-- A string behind its opening quote. -/
def stringBody : Scanner (Option String) := do
  let units ← unitsWithin ((← get).length + 1)
  return String.ofList <$> textOfUnits? units

def digits : Scanner (List Char) := do
  let ds ← span Char.isDigit
  guarded !ds.isEmpty
  return ds

/-- Digits of a whole number, without a needless zero in front. -/
def whole : Scanner (List Char) := do
  let ds ← digits
  guarded (ds.head? ≠ some '0' || ds.length = 1)
  return ds

/-- A part of a number that one of some characters announces. -/
def announced (p : Char → Bool) (part : Scanner (List Char)) : Scanner (List Char) := do
  match ← peek? with
  | some c =>
    if p c then
      let _ ← next
      return c :: (← part)
    else return []
  | none => return []

def exponent : Scanner (List Char) := do
  let sign ← announced (fun c => c = '+' || c = '-') (pure [])
  return sign ++ (← digits)

def number : Scanner Json := do
  let sign ← announced (· = '-') (pure [])
  let integer ← whole
  let fraction ← announced (· = '.') digits
  let exponent ← announced (fun c => c = 'e' || c = 'E') exponent
  return .number (String.ofList (sign ++ integer ++ fraction ++ exponent))

/-- Parts with commas between them, up to a closing character, at most `count`. -/
def listWithin {α : Type} (close : Char) (part : Scanner α) : (count : Nat) → Scanner (List α)
  | 0 => failure
  | n + 1 => do
    let a ← part
    skipBlanks
    let c ← next
    if c = close then return [a]
    guarded (c = ',')
    return a :: (← listWithin close part n)

/-- Parts with commas between them, perhaps none, behind the opening character. -/
def listOf {α : Type} (close : Char) (part : Scanner α) : Scanner (List α) := do
  skipBlanks
  if (← peek?) = some close then
    let _ ← next
    return []
  listWithin close part (← get).length

def member (value : Scanner Json) : Scanner (Option String × Json) := do
  skipBlanks
  literally ['"']
  let name? ← stringBody
  skipBlanks
  literally [':']
  return (name?, ← value)

/-- A value with at most `depth` levels of nesting. -/
def valueWithin : (depth : Nat) → Scanner Json
  | 0 => failure
  | n + 1 => do
    skipBlanks
    match ← peek? with
    | some '\x7b' =>
      let _ ← next
      return .object (← listOf '\x7d' (member (valueWithin n)))
    | some '[' =>
      let _ ← next
      return .array (← listOf ']' (valueWithin n))
    | some '"' =>
      let _ ← next
      return .string (← stringBody)
    | some 'n' =>
      literally ['n', 'u', 'l', 'l']
      return .null
    | some 't' =>
      literally ['t', 'r', 'u', 'e']
      return .bool true
    | some 'f' =>
      literally ['f', 'a', 'l', 's', 'e']
      return .bool false
    | _ => number

end Scanner

/-- The value that a whole text stands for. -/
def ofText? (s : String) : Option Json := do
  let source := s.toList
  let (value, rest) ← (Scanner.valueWithin (source.length + 1)).run source
  if rest.all Scanner.isBlank then return value else none

end Json

end StyleGrammar
