import StyleGrammar.Fault
import StyleGrammar.Token.Component

/-!
# Readers

A reader takes something off the front of a sequence of components.  Its state is a `Cursor`: what
is left, and the place reached.  Having read the opening token of a block, the cursor keeps the
content of the block, which the next reader may enter; otherwise the block is passed over.

A reader that fails leaves no state, so `p <|> q` reads with `q` from where `p` began.  A place of
a fault is either the cursor's place when the reader began, before any blanks, or the place it has
reached.
-/

namespace StyleGrammar

/-- The content of a block whose opening token was read last, and the place after the block. -/
structure Entered where
  content : List Component
  stop : Location
  deriving Repr, Inhabited

/-- The state of a reader.  `nesting` counts the functions and brackets around the cursor. -/
structure Cursor where
  rest : List Component
  here : Location
  entered : Option Entered
  nesting : Nat
  deriving Repr, Inhabited

abbrev Reader := StateT Cursor (Except Fault)

namespace Cursor

def ofText (s : String) : Cursor := ⟨Component.ofText s.toList, .start, none, 0⟩

/-- Passes over the block that was just opened, if any. -/
def leave (c : Cursor) : Cursor :=
  match c.entered with
  | some e => { c with here := e.stop, entered := none }
  | none => c

/-- The place and the components behind leading blanks and comments. -/
def dropSpace : Location → List Component → Location × List Component
  | _, .blanks l :: r => dropSpace l r
  | _, .comment l :: r => dropSpace l r
  | here, r => (here, r)

def skipSpace (c : Cursor) : Cursor :=
  let c := c.leave
  let (here, rest) := dropSpace c.here c.rest
  { c with here, rest }

/-- The first token of a sequence, behind blanks and comments.  At the end of the sequence the fault
is placed behind them too. -/
def nextOf (nesting : Nat) : Location → List Component → Except Fault (Token × Cursor)
  | here, [] => .error ⟨.endOfInput, here⟩
  | _, .blanks l :: r => nextOf nesting l r
  | _, .comment l :: r => nextOf nesting l r
  | _, .token t l :: r => .ok (t, ⟨r, l, none, nesting⟩)
  | _, .block t inside content stop :: r => .ok (t, ⟨r, inside, some ⟨content, stop⟩, nesting⟩)

def next (c : Cursor) : Except Fault (Token × Cursor) :=
  nextOf c.nesting c.leave.here c.leave.rest

/-- The first token or run of blanks, behind comments. -/
def nextRawOf (nesting : Nat) : Location → List Component → Except Fault (Option Token × Cursor)
  | here, [] => .error ⟨.endOfInput, here⟩
  | _, .blanks l :: r => .ok (none, ⟨r, l, none, nesting⟩)
  | _, .comment l :: r => nextRawOf nesting l r
  | _, .token t l :: r => .ok (some t, ⟨r, l, none, nesting⟩)
  | _, .block t inside content stop :: r =>
    .ok (some t, ⟨r, inside, some ⟨content, stop⟩, nesting⟩)

def nextRaw (c : Cursor) : Except Fault (Option Token × Cursor) :=
  nextRawOf c.nesting c.leave.here c.leave.rest

/-- Whether only blanks and comments are left. -/
def atEnd (c : Cursor) : Bool := c.rest.all Component.isSpace

end Cursor

namespace Reader

variable {α β : Type}

/-- The place reached. -/
def place : Reader Location := do return (← get).here

def failAt (l : Location) (cause : Cause) : Reader α := throw ⟨cause, l⟩

/-- Fails at the place reached. -/
def fail (cause : Cause) : Reader α := do failAt (← place) cause

def next : Reader Token := fun c => c.next

/-- A token, or `none` for a run of blanks. -/
def nextRaw : Reader (Option Token) := fun c => c.nextRaw

def skipSpace : Reader Unit := modify Cursor.skipSpace

def atEnd : Reader Bool := do return (← get).atEnd

/-- Fails with the next token, at the place behind it. -/
def failNext : Reader α := do
  let t ← next
  fail (.unexpectedToken t)

/-- The value that the next token stands for.  A token that stands for none is unexpected, at the
place where the reader began. -/
def expect (f : Token → Option α) : Reader α := do
  let l ← place
  let t ← next
  match f t with
  | some a => return a
  | none => failAt l (.unexpectedToken t)

/-- What a reader makes of the text, or `none` with nothing read. -/
def attempt (p : Reader α) : Reader (Option α) := fun c =>
  match p c with
  | .ok (a, c') => .ok (some a, c')
  | .error _ => .ok (none, c)

/-- Whether a reader succeeds; if not, nothing is read. -/
def succeeds (p : Reader α) : Reader Bool := do return (← attempt p).isSome

/-- Fails unless nothing is left. -/
def finish : Reader Unit := fun c =>
  match c.next with
  | .ok (t, _) => .error ⟨.unexpectedToken t, c.here⟩
  | .error _ => .ok ((), c)

/-- Reads something that nothing may follow. -/
def entirely (p : Reader α) : Reader α := do
  let a ← p
  finish
  return a

/-- Reads the whole content of the block that was just opened. -/
def block (p : Reader α) : Reader α := fun c =>
  match c.entered with
  | some e => do
    let (a, _) ← entirely p ⟨e.content, c.here, none, c.nesting⟩
    return (a, { c with here := e.stop, entered := none })
  | none => .error ⟨.invalidValue, c.here⟩

/-- Where a sequence of components that begins at a place ends. -/
def endOf (here : Location) (cs : List Component) : Location :=
  (cs.getLast?.map Component.stop).getD here

/-- Reads the whole text up to a comma, or to the end. -/
def untilComma (p : Reader α) : Reader α := fun c => do
  let c := c.leave
  let (piece, tail) := c.rest.span fun k => !k.isComma
  let (a, _) ← entirely p { c with rest := piece }
  return (a, { c with rest := tail, here := endOf c.here piece })

/-- Takes a comma, if one comes next. -/
def takeComma : Reader Bool := succeeds (expect fun t => if t = .comma then some () else none)

/-- At most `count + 1` items between commas. -/
def itemsWithin (p : Reader α) : (count : Nat) → Reader (List α)
  | 0 => do
    skipSpace
    return [← untilComma p]
  | n + 1 => do
    skipSpace
    let a ← untilComma p
    if ← takeComma then return a :: (← itemsWithin p n) else return [a]

/-- One or more items between commas, which take the whole text. -/
def commaSeparated (p : Reader α) : Reader (List α) := do
  itemsWithin p ((← get).rest.countP Component.isComma)

/-- Items for as long as the reader succeeds, at most `count`. -/
def manyWithin (p : Reader α) : (count : Nat) → Reader (List α)
  | 0 => return []
  | n + 1 => do
    match ← attempt p with
    | some a => return a :: (← manyWithin p n)
    | none => return []

/-- Items for as long as the reader succeeds.  Each takes at least one component, so the number of
components bounds them. -/
def many (p : Reader α) : Reader (List α) := do
  manyWithin p (← get).rest.length

def untilEndWithin (p : Reader α) : (count : Nat) → Reader (List α)
  | 0 => return []
  | n + 1 => do
    if ← atEnd then return []
    let a ← p
    return a :: (← untilEndWithin p n)

/-- Items until nothing is left; each takes at least one component. -/
def untilEnd (p : Reader α) : Reader (List α) := do
  untilEndWithin p (← get).rest.length

/-- How deep functions, brackets and the parentheses of a calculation may nest. -/
def nestingLimit : Nat := 128

/-- Reads one level deeper, which must not pass the limit. -/
def nested (p : Reader α) : Reader α := fun c =>
  if c.nesting < nestingLimit then do
    let (a, c') ← p { c with nesting := c.nesting + 1 }
    return (a, { c' with nesting := c.nesting })
  else .error ⟨.invalidValue, c.here⟩

/-- Reads a whole text. -/
def run (p : Reader α) (s : String) : Except Fault α := do
  let (a, _) ← entirely p (Cursor.ofText s)
  return a

/-! Tokens by kind. -/

def ident : Reader String := expect fun | .ident n => some n | _ => none

def number : Reader Single := expect fun | .number _ v _ => some v | _ => none

def integer : Reader Int := expect fun | .number _ _ i => i | _ => none

def percentage : Reader Single := expect fun | .percentage _ v _ => some v | _ => none

def string : Reader String := expect fun | .quotedString s => some s | _ => none

def function : Reader String := expect fun | .function n => some n | _ => none

/-- Names are compared without regard to the case of ASCII letters. -/
def sameName (a b : String) : Bool := a.toLower == b.toLower

def keyword (name : String) : Reader Unit :=
  expect fun | .ident n => if sameName n name then some () else none | _ => none

def functionNamed (name : String) : Reader Unit :=
  expect fun | .function n => if sameName n name then some () else none | _ => none

def comma : Reader Unit := expect fun t => if t = .comma then some () else none

def delim (c : Char) : Reader Unit := expect fun t => if t = .delim c then some () else none

def parenthesis : Reader Unit := expect fun t => if t = .openParenthesis then some () else none

def square : Reader Unit := expect fun t => if t = .openSquare then some () else none

/-- An address: without quotes, or the string that is the whole content of `url()`. -/
def url : Reader String := do
  let l ← place
  match ← next with
  | .unquotedUrl a => return a
  | .function n =>
    if sameName n "url" then block string else failAt l (.unexpectedToken (.function n))
  | t => failAt l (.unexpectedToken t)

end Reader

/-- Types with a text of their own. -/
class Readable (α : Type) where
  read : Reader α

export Readable (read)

/-- The value that a whole text stands for. -/
def readText (α : Type) [Readable α] (s : String) : Except Fault α := (read : Reader α).run s

end StyleGrammar
