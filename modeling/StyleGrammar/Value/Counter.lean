import StyleGrammar.Value.Image
import StyleGrammar.Value.Substitution

/-!
# Counters and generated content

Counters and the styles they are written in, leaders, and references to other places.
-/

namespace StyleGrammar

open Reader

/-- How the symbols of a counter are used. -/
inductive SymbolsType
  | cyclic | numeric | alphabetic | symbolic | fixed
  deriving DecidableEq, Repr, Inhabited

instance : Keyword SymbolsType where
  all := [.cyclic, .numeric, .alphabetic, .symbolic, .fixed]
  name
    | .cyclic => "cyclic" | .numeric => "numeric" | .alphabetic => "alphabetic"
    | .symbolic => "symbolic" | .fixed => "fixed"

/-- A symbol that a counter shows. -/
inductive CounterSymbol (V : Type)
  | string (s : Quotation)
  | image (i : Image V)
  deriving BEq

/-- A counter style given by its symbols. -/
structure Symbols (V : Type) where
  type? : Option SymbolsType
  symbols : List (CounterSymbol V)
  deriving BEq

/-- The style of a counter. -/
inductive CounterStyle (V : Type)
  | name (n : CustomIdent)
  | symbols (s : Symbols V)
  deriving BEq

/-- The innermost counter of a name. -/
structure Counter (V : Type) where
  name : CustomIdent
  style? : Option (CounterStyle V)
  deriving BEq

/-- All counters of a name. -/
structure Counters (V : Type) where
  name : CustomIdent
  separator : Quotation
  style? : Option (CounterStyle V)
  deriving BEq

variable {V : Type}

instance [Term V] : Readable (CounterSymbol V) where
  read := .string <$> read <|> .image <$> read

instance [Term V] : Printable (CounterSymbol V) where
  print compact
    | .string s => Printable.print compact s
    | .image i => Printable.print compact i

instance [Term V] : Readable (Symbols V) where
  read := do
    functionNamed "symbols"
    block do
      let type? ← attempt read
      let symbols ← many read
      if symbols.isEmpty then fail .invalidValue
      return ⟨type?, symbols⟩

instance [Term V] : Printable (Symbols V) where
  print compact s :=
    Output.call "symbols"
      (Color.words (s.type?.toList.map (Printable.print compact) ++
        s.symbols.map (Printable.print compact)))

namespace CounterStyle

instance [Term V] : Readable (CounterStyle V) where
  read := symbols <$> read <|> name <$> read

instance [Term V] : Printable (CounterStyle V) where
  print compact
    | name n => Printable.print compact n
    | symbols s => Printable.print compact s

/-- A style behind a comma. -/
def read? [Term V] : Reader (Option (CounterStyle V)) := do
  if ← succeeds comma then some <$> read else return none

def print? [Term V] (compact : Bool) : Option (CounterStyle V) → Output
  | some s => Output.comma compact ++ Printable.print compact s
  | none => []

end CounterStyle

instance [Term V] : Readable (Counter V) where
  read := do
    functionNamed "counter"
    block do
      let name ← read
      return ⟨name, ← CounterStyle.read?⟩

instance [Term V] : Printable (Counter V) where
  print compact c :=
    Output.call "counter" (Printable.print compact c.name ++ CounterStyle.print? compact c.style?)

instance [Term V] : Readable (Counters V) where
  read := do
    functionNamed "counters"
    block do
      let name ← read
      comma
      let separator ← read
      return ⟨name, separator, ← CounterStyle.read?⟩

instance [Term V] : Printable (Counters V) where
  print compact c :=
    Output.call "counters"
      (Printable.print compact c.name ++ Output.comma compact ++
        Printable.print compact c.separator ++ CounterStyle.print? compact c.style?)

/-- What fills the line up to the text behind it. -/
inductive Leader
  | dotted
  | solid
  | space
  | string (s : Quotation)
  deriving BEq, DecidableEq, Repr, Inhabited

namespace Leader

def ofName? (s : String) : Option Leader :=
  if sameName s "dotted" then some dotted
  else if sameName s "solid" then some solid
  else if sameName s "space" then some space
  else none

instance : Readable Leader where
  read := do
    functionNamed "leader"
    block (string <$> read <|> expect fun | .ident n => ofName? n | _ => none)

instance : Printable Leader where
  print compact l :=
    Output.call "leader" <|
      match l with
      | dotted => Output.text "dotted"
      | solid => Output.text "solid"
      | space => Output.text "space"
      | string s => Printable.print compact s

end Leader

/-- The place that a reference is to. -/
inductive TargetUrl (V : Type)
  | url (u : Url)
  | string (s : Quotation)
  | attr (a : Attr V)
  deriving BEq, Repr, Inhabited

instance [Term V] : Readable (TargetUrl V) where
  read := .string <$> read <|> .attr <$> read <|> .url <$> read

instance [Term V] : Printable (TargetUrl V) where
  print compact
    | .url u => Printable.print compact u
    | .string s => Printable.print compact s
    | .attr a => Printable.print compact a

/-- The innermost counter of a name at another place. -/
structure TargetCounter (V : Type) where
  url : TargetUrl V
  name : CustomIdent
  style? : Option (CounterStyle V)
  deriving BEq

instance [Term V] : Readable (TargetCounter V) where
  read := do
    functionNamed "target-counter"
    block do
      let url ← read
      comma
      let name ← read
      return ⟨url, name, ← CounterStyle.read?⟩

instance [Term V] : Printable (TargetCounter V) where
  print compact c :=
    Output.call "target-counter"
      (Printable.print compact c.url ++ Output.comma compact ++ Printable.print compact c.name ++
        CounterStyle.print? compact c.style?)

/-- All counters of a name at another place. -/
structure TargetCounters (V : Type) where
  url : TargetUrl V
  name : CustomIdent
  separator : Quotation
  style? : Option (CounterStyle V)
  deriving BEq

instance [Term V] : Readable (TargetCounters V) where
  read := do
    functionNamed "target-counters"
    block do
      let url ← read
      comma
      let name ← read
      comma
      let separator ← read
      return ⟨url, name, separator, ← CounterStyle.read?⟩

instance [Term V] : Printable (TargetCounters V) where
  print compact c :=
    Output.call "target-counters"
      (Printable.print compact c.url ++ Output.comma compact ++ Printable.print compact c.name ++
        Output.comma compact ++ Printable.print compact c.separator ++
        CounterStyle.print? compact c.style?)

/-- The part of an element whose text is meant. -/
inductive TargetTextPart
  | content | before | after | firstLetter
  deriving DecidableEq, Repr, Inhabited

instance : Keyword TargetTextPart where
  all := [.content, .before, .after, .firstLetter]
  name
    | .content => "content" | .before => "before" | .after => "after"
    | .firstLetter => "first-letter"

/-- The text at another place. -/
structure TargetText (V : Type) where
  url : TargetUrl V
  part? : Option TargetTextPart
  deriving BEq, Repr, Inhabited

instance [Term V] : Readable (TargetText V) where
  read := do
    functionNamed "target-text"
    block do
      let url ← read
      let part? ← if ← succeeds comma then some <$> read else pure none
      return ⟨url, part?⟩

instance [Term V] : Printable (TargetText V) where
  print compact t :=
    Output.call "target-text"
      (Printable.print compact t.url ++
        match t.part? with
        | some p => Output.comma compact ++ Printable.print compact p
        | none => [])

end StyleGrammar
