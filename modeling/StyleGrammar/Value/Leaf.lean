import StyleGrammar.Value.Color.Plain
import StyleGrammar.Value.Dimension
import StyleGrammar.Value.Kind
import StyleGrammar.Value.Name

/-!
# Leaves

The values that hold no other values: those of a single token, and the composite ratio.  `Term` is
what the functions that do hold values have to know of them: how to read and write one, its kind,
and whether it is a leaf.
-/

namespace StyleGrammar

/-- A value without parts. -/
inductive Leaf
  | percentage (p : Percentage)
  | integer (n : Int)
  | number (v : Single)
  | flex (d : Flex)
  | length (d : Length)
  | angle (d : Angle)
  | time (d : Time)
  | frequency (d : Frequency)
  | resolution (d : Resolution)
  | string (s : Quotation)
  | keyword (i : Ident)
  | dashedIdent (i : DashedIdent)
  | url (u : Url)
  | color (c : PlainColor)
  | ratio (r : Ratio)
  | delimiter (c : Char)
  deriving BEq, DecidableEq, Repr, Inhabited

namespace Leaf

def kind : Leaf → Kind
  | percentage _ => .percentage
  | integer _ => .integer
  | number _ => .number
  | flex _ => .flex
  | length _ => .length
  | angle _ => .angle
  | time _ => .time
  | frequency _ => .frequency
  | resolution _ => .resolution
  | string _ => .string
  | keyword _ => .keyword
  | dashedIdent _ => .dashedIdent
  | url _ => .url
  | color _ => .color
  | ratio _ => .ratio
  | delimiter _ => .delimiter

/-- A dimension of the kind that its unit belongs to. -/
def ofDimension? (t : Token) : Option Leaf :=
  length <$> Length.ofToken? t <|> angle <$> Dimension.ofToken? t <|>
    time <$> Dimension.ofToken? t <|> frequency <$> Dimension.ofToken? t <|>
    resolution <$> Dimension.ofToken? t <|> flex <$> Dimension.ofToken? t

/-- The leaf that a token is. -/
def ofToken (t : Token) : Except Cause Leaf :=
  match t with
  | .number _ _ (some n) => .ok (integer n)
  | .number _ v none => .ok (number v)
  | .percentage _ v _ => .ok (percentage ⟨v⟩)
  | .dimension _ _ _ unit =>
    match ofDimension? t with
    | some l => .ok l
    | none => .error (.unknownUnit unit)
  | .quotedString s => .ok (string ⟨s⟩)
  | .unquotedUrl a => .ok (url ⟨a⟩)
  | .hash _ | .idHash _ =>
    match PlainColor.ofToken? t with
    | some c => .ok (color c)
    | none => .error (.unexpectedToken t)
  | .ident n =>
    if isDashed n then .ok (dashedIdent ⟨n⟩)
    else
      match PlainColor.ofName? n with
      | some c => .ok (color c)
      | none => .ok (keyword ⟨n⟩)
  | .comma => .ok (delimiter ',')
  | .delim '/' => .ok (delimiter '/')
  | t => .error (.unexpectedToken t)

end Leaf

/-- A delimiter that stands alone is written without spaces. -/
instance : Printable Leaf where
  print compact
    | .percentage p => print compact p
    | .integer n => print compact n
    | .number v => print compact v
    | .flex d => print compact d
    | .length d => print compact d
    | .angle d => print compact d
    | .time d => print compact d
    | .frequency d => print compact d
    | .resolution d => print compact d
    | .string s => print compact s
    | .keyword i => print compact i
    | .dashedIdent i => print compact i
    | .url u => print compact u
    | .color c => print compact c
    | .ratio r => print compact r
    | .delimiter c => Output.char c

/-- Types of values. -/
class Term (V : Type) extends Readable V, Printable V, BEq V where
  ofLeaf : Leaf → V
  leaf? : V → Option Leaf
  kind : V → Kind

end StyleGrammar
