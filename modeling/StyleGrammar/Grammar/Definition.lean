import StyleGrammar.Grammar.Arena
import StyleGrammar.Grammar.DataType

/-!
# Definitions of grammars

Reading the value definition notation: components with multipliers behind them, juxtaposed or
combined by `&&`, `||` and `|`, which bind ever more loosely.  The nodes that are read are added to
an arena, where they stay also when a fault is met later in the text.
-/

namespace StyleGrammar

/-- Why a text defines no grammar. -/
inductive GrammarCause
  | unexpectedChar (c : Char)
  | unexpectedEnd
  | invalidQuantifier (text : String)
  | unclosedGroup
  | unknownCombinator (text : String)
  | emptyGroup
  deriving DecidableEq, Repr, Inhabited

def GrammarCause.message : GrammarCause → String
  | unexpectedChar c => "Unexpected character '" ++ String.singleton c ++ "'"
  | unexpectedEnd => "Unexpected end of syntax"
  | invalidQuantifier t => "Invalid multiplier '" ++ t ++ "'"
  | unclosedGroup => "Unclosed group"
  | unknownCombinator t => "Unknown combinator '" ++ t ++ "'"
  | emptyGroup => "Empty group"

/-- A cause and its column: the number of bytes in front of it plus one, counted in 32 bits. -/
structure GrammarFault where
  cause : GrammarCause
  column : UInt32
  deriving DecidableEq, Repr, Inhabited

def GrammarFault.message (f : GrammarFault) : String :=
  f.cause.message ++ " at 0:" ++ toString f.column

namespace Definition

/-! ## Texts and their bytes -/

def bytes : List Char → Nat
  | [] => 0
  | c :: rest => c.utf8Size + bytes rest

/-- A text cut behind so many bytes, unless it has fewer or a character would be cut in two. -/
def split? : (count : Nat) → List Char → Option (List Char × List Char)
  | 0, text => some ([], text)
  | _ + 1, [] => none
  | n + 1, c :: text =>
    if c.utf8Size ≤ n + 1 then
      (split? (n + 1 - c.utf8Size) text).map fun (front, back) => (c :: front, back)
    else none

/-- The slice of a text up to a byte. -/
def before? (stop : Nat) (text : List Char) : Option (List Char) := (split? stop text).map (·.1)

/-- The slice of a text from a byte on. -/
def behind? (start : Nat) (text : List Char) : Option (List Char) := (split? start text).map (·.2)

/-- The slice of a text from a byte up to another. -/
def slice? (start stop : Nat) (text : List Char) : Option (List Char) :=
  (before? stop text).bind (behind? start)

/-- The byte at which the first character of a kind starts. -/
def seek? (p : Char → Bool) : List Char → Option Nat
  | [] => none
  | c :: text => if p c then some 0 else (seek? p text).map (c.utf8Size + ·)

/-! ## The state of a reading -/

/-- Why a reading is broken off: for a fault of the text, or else for a slice that is out of range
or a bound on the passes that is used up.  The last two never happen. -/
inductive Halt
  | fault (f : GrammarFault)
  | outOfRange
  | unfinished
  deriving DecidableEq, Repr

/-- The arena so far, and the text that is left.  `source` is the whole text. -/
structure State where
  source : List Char
  rest : List Char
  arena : Arena

abbrev Parser := ExceptT Halt (StateM State)

/-- The bytes that were read. -/
def State.offset (s : State) : Nat := bytes s.source - bytes s.rest

def State.column (s : State) : UInt32 := s.offset.toUInt32 + 1

def fail {α : Type} (cause : GrammarCause) : Parser α := do
  throw (.fault ⟨cause, (← get).column⟩)

/-- The value of a slice. -/
def checked {α : Type} : Option α → Parser α
  | some a => return a
  | none => throw .outOfRange

def rest : Parser (List Char) := do return (← get).rest

def setRest (r : List Char) : Parser Unit := modify fun s => { s with rest := r }

/-- Passes over so many bytes. -/
def advance (count : Nat) : Parser Unit := do setRest (← checked (behind? count (← rest)))

def skipBlanks : Parser Unit := modify fun s => { s with rest := s.rest.dropWhile Blank }

/-- The slice from where `start` was left up to where `stop` is. -/
def between? (start stop : List Char) : Option (List Char) :=
  if bytes stop ≤ bytes start then before? (bytes start - bytes stop) start else none

/-- Adds a node that was read from `start` up to here. -/
def push (kind : NodeKind) (start : List Char) : Parser NodeId := do
  let raw := trimmed whiteSpace (← checked (between? start (← rest)))
  let s ← get
  set { s with arena := s.arena.push ⟨kind, .one, String.ofList raw, none⟩ }
  return s.arena.size

def slot (name : String) : Parser NodeId := do
  let s ← get
  let (id, arena) := s.arena.slot name
  set { s with arena }
  return id

def quantifierOf (id : NodeId) : Parser Quantifier := do
  return ((← get).arena.node id).quantifier

def setQuantifier (id : NodeId) (q : Quantifier) : Parser Unit :=
  modify fun s => { s with arena := s.arena.modify id fun n => { n with quantifier := q } }

/-- The ways to combine components, from the loosest. -/
inductive Combinator
  | alternation | subset | unordered
  deriving DecidableEq, Repr

def Combinator.kind : Combinator → List NodeId → NodeKind
  | alternation => .alternation
  | subset => .subset
  | unordered => .unordered

/-- The combinator that comes next, and its length.  Any other run of its characters is a fault. -/
def peekCombinator : Parser (Option (Combinator × Nat)) := do
  skipBlanks
  let r ← rest
  match r with
  | c :: _ =>
    if c = '|' || c = '&' then
      let length := bytes (r.takeWhile (· = c))
      match c, length with
      | '|', 1 => return some (.alternation, 1)
      | '|', 2 => return some (.subset, 2)
      | '&', 2 => return some (.unordered, 2)
      | _, _ => fail (.unknownCombinator (String.ofList (← checked (before? length r))))
    else return none
  | [] => return none

/-- The operands behind a first one, at most `count`. -/
def moreOperands (c : Combinator) (operand : Parser NodeId) : (count : Nat) → Parser (List NodeId)
  | 0 => throw .unfinished
  | n + 1 => do
    match ← peekCombinator with
    | some (c', length) =>
      if c' = c then
        advance length
        let id ← operand
        return id :: (← moreOperands c operand n)
      else return []
    | none => return []

/-- Operands with a combinator between them.  A single one is not combined. -/
def combined (c : Combinator) (operand : Parser NodeId) : Parser NodeId := do
  skipBlanks
  let start ← rest
  let first ← operand
  match ← moreOperands c operand start.length with
  | [] => return first
  | others => push (c.kind (first :: others)) start

/-- What ends a run of components. -/
def endsComponents : List Char → Bool
  | [] => true
  | c :: _ => c = ']' || c = ')' || c = '|' || c = '&'

def components (component : Parser NodeId) : (count : Nat) → Parser (List NodeId)
  | 0 => throw .unfinished
  | n + 1 => do
    skipBlanks
    if endsComponents (← rest) then return []
    let id ← component
    return id :: (← components component n)

/-- Components next to each other.  A single one is no sequence. -/
def juxtaposition (component : Parser NodeId) : Parser NodeId := do
  skipBlanks
  let start ← rest
  match ← components component (start.length + 1) with
  | [] => if (← rest).isEmpty then fail .unexpectedEnd else fail .emptyGroup
  | [id] => return id
  | ids => push (.sequence ids) start

/-- The characters of a word. -/
def isNameChar (c : Char) : Bool := c.isAlphanum || c = '_' || c = '-' || 0x80 ≤ c.val

/-- A data type between angle brackets: a function if it ends in parentheses, a leaf if it is
primitive, and else a reference.  The range of a numeric type is passed over. -/
def dataType (start : List Char) : Parser NodeId := do
  let r ← rest
  match seek? (· = '>') r with
  | none => fail .unclosedGroup
  | some stop =>
    let inner := trimmed Blank (← checked (slice? 1 stop r))
    advance (stop + 1)
    let name ← checked (before? (bytes (inner.takeWhile fun c => !Blank c && c != '[')) inner)
    if name.isEmpty then fail .emptyGroup
    let text := String.ofList name
    if ['(', ')'].isSuffixOf name then
      push (.function (String.ofList (name.take (name.length - 2))) []) start
    else if DataType.isPrimitive text then push (.dataType text) start
    else
      let target ← slot text
      push (.reference text target) start

/-- The arguments of a function, behind its name. -/
def function (inner : Parser NodeId) (name : String) (start : List Char) : Parser NodeId := do
  advance 1
  skipBlanks
  let children ← if (← rest).head? = some ')' then pure [] else do pure [← inner]
  skipBlanks
  match ← rest with
  | ')' :: _ =>
    advance 1
    push (.function name children) start
  | _ => fail .unclosedGroup

/-- A natural of 32 bits, perhaps with a plus sign. -/
def natural? (s : List Char) : Option Nat :=
  let digits :=
    match trimmed Blank s with
    | '+' :: ds => ds
    | ds => ds
  let n := Scan.natural digits
  if digits.isEmpty || digits.any (!·.isDigit) || 1 <<< 32 ≤ n then none else some n

/-- The bounds between braces: one number, or two with a comma, of which the second may be left
out. -/
def bounds? (body : List Char) : Option Quantifier :=
  match body.dropWhile (· != ',') with
  | [] => (natural? body).map fun n => .between n (some n)
  | _ :: max => do
    let min ← natural? (body.takeWhile (· != ','))
    if (trimmed Blank max).isEmpty then return .between min none
    let max ← natural? max
    if min ≤ max then return .between min (some max) else none

/-- Bounds in braces. -/
def range : Parser Quantifier := do
  let r ← rest
  match seek? (· = '\x7d') r with
  | none => fail (.invalidQuantifier (String.ofList r))
  | some stop =>
    let text ← checked (before? (stop + 1) r)
    let body ← checked (slice? 1 (bytes text - 1) text)
    match bounds? body with
    | some q =>
      advance (stop + 1)
      return q
    | none => fail (.invalidQuantifier (String.ofList text))

/-- The quantifier of a multiplier that is one character. -/
def quantifier? : Char → Option Quantifier
  | '?' => some (.between 0 (some 1))
  | '*' => some (.between 0 none)
  | '+' => some (.between 1 none)
  | '#' => some ⟨1, none, some ',', false⟩
  | _ => none

/-- Quantifies a component.  One that already is quantified is repeated as a whole. -/
def quantify (id : NodeId) (q : Quantifier) (start : List Char) : Parser NodeId := do
  if (← quantifierOf id).isOne then
    setQuantifier id q
    return id
  else
    let wrapper ← push (.sequence [id]) start
    setQuantifier wrapper q
    return wrapper

/-- The multipliers behind a component, at most `count`.  Behind a bare `#`, bounds or a `?` refine
it; `afterHash` says whether one was just read. -/
def multipliers (start : List Char) : (count : Nat) → (afterHash : Bool) → NodeId → Parser NodeId
  | 0, _, _ => throw .unfinished
  | n + 1, afterHash, id => do
    match ← rest with
    | [] => return id
    | '!' :: _ =>
      advance 1
      setQuantifier id { ← quantifierOf id with required := true }
      multipliers start n false id
    | '\x7b' :: _ =>
      let q ← range
      if afterHash then
        setQuantifier id { ← quantifierOf id with min := q.min, max? := q.max? }
        multipliers start n false id
      else multipliers start n false (← quantify id q start)
    | c :: _ =>
      match quantifier? c with
      | none => return id
      | some q =>
        advance 1
        if afterHash && c = '?' then
          setQuantifier id { ← quantifierOf id with min := 0 }
          multipliers start n false id
        else multipliers start n (c = '#') (← quantify id q start)

/-- A group in brackets, behind the opening one. -/
def group (inner : Parser NodeId) : Parser NodeId := do
  skipBlanks
  if (← rest).head? = some ']' then fail .emptyGroup
  let id ← inner
  skipBlanks
  match ← rest with
  | ']' :: _ =>
    advance 1
    return id
  | _ => fail .unclosedGroup

/-- A component without its multipliers. -/
def unquantified (inner : Parser NodeId) : Parser NodeId := do
  let start ← rest
  match start with
  | [] => fail .unexpectedEnd
  | '[' :: _ =>
    advance 1
    group inner
  | '<' :: _ => dataType start
  | c :: _ =>
    if c = '\'' || c = '"' then
      let r ← checked (behind? 1 start)
      match seek? (· = c) r with
      | none => fail .unexpectedEnd
      | some stop =>
        let text ← checked (before? stop r)
        setRest (← checked (behind? (stop + 1) r))
        push (.literal (String.ofList text)) start
    else if c = ',' || c = '/' then
      advance 1
      push (.literal (String.singleton c)) start
    else if isNameChar c then
      let stop := bytes (start.takeWhile isNameChar)
      let name := String.ofList (← checked (before? stop start))
      advance stop
      if (← rest).head? = some '(' then function inner name start else push (.literal name) start
    else fail (.unexpectedChar c)

/-- A component and its multipliers. -/
def component (inner : Parser NodeId) : Parser NodeId := do
  let start ← rest
  let id ← unquantified inner
  multipliers start start.length false id

/-- A grammar, with the grammars in its brackets read by `inner`. -/
def grammarWith (inner : Parser NodeId) : Parser NodeId :=
  combined .alternation (combined .subset (combined .unordered (juxtaposition (component inner))))

/-- A grammar with at most `depth` levels of brackets. -/
def grammarWithin : (depth : Nat) → Parser NodeId
  | 0 => throw .unfinished
  | n + 1 => grammarWith (grammarWithin n)

/-- A grammar that nothing may follow. -/
def wholeGrammar (depth : Nat) : Parser NodeId := do
  let root ← grammarWithin depth
  skipBlanks
  match ← rest with
  | [] => return root
  | c :: _ => fail (.unexpectedChar c)

/-- The fault that is reported. -/
def Halt.reported : Halt → GrammarFault
  | fault f => f
  | outOfRange | unfinished => default

end Definition

namespace Arena

/-- Reads a definition into the arena.  Every level of brackets takes a character. -/
def define (a : Arena) (text : String) : Except GrammarFault NodeId × Arena :=
  let source := text.toList
  let (r, s) := (Definition.wholeGrammar (source.length + 1)).run ⟨source, source, a⟩
  (r.mapError (·.reported), s.arena)

/-- Reads the definition of a name and fills its slot. -/
def defineNamed (a : Arena) (name text : String) : Except GrammarFault NodeId × Arena :=
  let (slot, a) := a.slot name
  match a.define text with
  | (.ok root, a) => (.ok slot, a.fill slot root)
  | (.error e, a) => (.error e, a)

end Arena

end StyleGrammar
