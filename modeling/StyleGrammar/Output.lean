import StyleGrammar.Location
import StyleGrammar.Text.Escape

/-!
# Output

What a value prints is a list of steps, taken one after another on a destination until one of them
fails.  A step is a program of its own: it may write texts, and what becomes of a refusal is up to
it.  The destination is a `Sink`, which may refuse a text that would exceed its limit.
`Output.render` is the text of an output: what its steps write where nothing is refused.
-/

namespace StyleGrammar

/-- Something that is written in one go. -/
inductive Piece
  | text (s : String)
  | char (c : Char)
  deriving DecidableEq, Repr, Inhabited

def Piece.render : Piece → String
  | text s => s
  | char c => String.singleton c

/-- What a piece adds to the column: the bytes of a text, while a character counts as one. -/
def Piece.width : Piece → UInt32
  | text s => s.utf8ByteSize.toUInt32
  | char _ => 1

/-- Why printing ends before everything is written. -/
inductive PrintCause
  | fmtError
  deriving DecidableEq, Repr, Inhabited

def PrintCause.message : PrintCause → String
  | fmtError => "Printer error"

structure PrintFault where
  cause : PrintCause
  place? : Option Location
  deriving DecidableEq, Repr, Inhabited

/-- The fault of a printer whose destination refuses a text.  It has no place in a source. -/
def PrintFault.refused : PrintFault := ⟨.fmtError, none⟩

/-- A destination and the column reached in it.  With a limit it takes at most that many bytes.  The
column has 32 bits and counts what was refused too. -/
structure Sink where
  limit? : Option Nat
  written : String
  col : UInt32
  deriving Repr, Inhabited

/-- A sink as a fault leaves it. -/
structure Refusal extends Sink where
  fault : PrintFault
  deriving Repr, Inhabited

instance : Coe Refusal Sink := ⟨Refusal.toSink⟩

namespace Sink

def unlimited : Sink := ⟨none, "", 0⟩

def limited (bytes : Nat) : Sink := ⟨some bytes, "", 0⟩

def column (k : Sink) : Nat := k.col.toNat

/-- Whether a text can still be written. -/
def admits (k : Sink) (s : String) : Bool :=
  match k.limit? with
  | none => true
  | some n => k.written.utf8ByteSize + s.utf8ByteSize ≤ n

end Sink

abbrev Step := EStateM PrintFault Sink Unit

namespace Step

/-- Writes a piece, or fails if it is refused. -/
def write (p : Piece) : Step := fun k =>
  if k.admits p.render then
    .ok () { k with written := k.written ++ p.render, col := k.col + p.width }
  else .error .refused { k with col := k.col + p.width }

/-- What a step writes where nothing is refused. -/
def text (p : Step) : String :=
  match p.run .unlimited with
  | .ok _ k | .error _ k => k.written

@[simp] theorem text_write (p : Piece) : (write p).text = p.render := by
  change "" ++ p.render = p.render
  exact String.empty_append

end Step

abbrev Output := List Step

namespace Output

/-- The text of an output. -/
def render (o : Output) : String := String.join (o.map Step.text)

/-- Takes the steps in order until one fails. -/
def run : Output → Step
  | [] => pure ()
  | p :: ps => do
    p
    run ps

def text (s : String) : Output := [.write (.text s)]

def char (c : Char) : Output := [.write (.char c)]

/-- A space that is left out of compact output. -/
def space (compact : Bool) : Output := if compact then [] else char ' '

/-- A delimiter and the optional space behind it, and before it if wanted. -/
def delim (compact : Bool) (c : Char) (before : Bool) : Output :=
  (if before then space compact else []) ++ char c ++ space compact

/-- A comma between items. -/
def comma (compact : Bool) : Output := delim compact ',' false

/-- Characters of which some are escaped.  Those between two escapes are written in one go; `kept`
are the last of them, from the last to the first. -/
def escaped (escape : Char → List Char) (kept : List Char) : List Char → Output
  | [] => text (String.ofList kept.reverse)
  | c :: r =>
    if escape c = [c] then escaped escape (c :: kept) r
    else
      text (String.ofList kept.reverse) ++ text (String.ofList (escape c)) ++ escaped escape [] r

/-- A name, where it cannot be mistaken for a number. -/
def escapedName (s : List Char) : Output := escaped Escape.nameChar [] s

/-- A name at whose front a digit is escaped by its number. -/
def leading : List Char → Output
  | [] => []
  | c :: r =>
    if c.isDigit then text (String.ofList (Escape.byNumber c)) ++ escapedName r
    else escapedName (c :: r)

/-- A name that is to be read as an identifier. -/
def identifier (s : String) : Output := hyphened s.toList
where
  hyphened : List Char → Output
    | '-' :: '-' :: r => text "--" ++ escapedName r
    | ['-'] => text "\\-"
    | '-' :: r => text "-" ++ leading r
    | r => leading r

/-- A name with two leading hyphens, which are written as they are. -/
def dashedIdentifier (s : String) : Output :=
  text "--" ++ escapedName (dashless s.toList)
where
  dashless : List Char → List Char
    | '-' :: '-' :: r => r
    | r => r

def quoted (s : String) : Output := text "\"" ++ escaped Escape.stringChar [] s.toList ++ text "\""

/-- Outputs with a separator between them. -/
def separated (separator : Output) : List Output → Output
  | [] => []
  | [o] => o
  | o :: os => o ++ separator ++ separated separator os

/-- A function: its name and its arguments in parentheses. -/
def call (name : String) (arguments : Output) : Output :=
  text name ++ char '(' ++ arguments ++ char ')'

end Output

/-- Takes the steps of an output, from the column and the texts so far. -/
def Sink.writeAll (k : Sink) (o : Output) : Except Refusal Sink :=
  match o.run k with
  | .ok _ k => .ok k
  | .error fault k => .error { k with fault }

/-- Types whose values can be written, spaced or compact. -/
class Printable (α : Type) where
  print : (compact : Bool) → α → Output

export Printable (print)

/-- The text of a value. -/
def textOf {α : Type} [Printable α] (compact : Bool) (a : α) : String := (print compact a).render

end StyleGrammar
