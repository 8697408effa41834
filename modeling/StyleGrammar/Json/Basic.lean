/-!
# JSON

Values of JSON and their compact text.  A string that was read may have no text, if its escapes name
half of a surrogate pair; a number is kept as it was written.
-/

namespace StyleGrammar

inductive Json
  | null
  | bool (b : Bool)
  | number (digits : String)
  | string (text? : Option String)
  | array (items : List Json)
  | object (members : List (Option String × Json))
  deriving Inhabited

namespace Json

def text (s : String) : Json := string (some s)

def nat (n : Nat) : Json := number (toString n)

def texts (l : List String) : Json := array (l.map text)

/-- An object with the given members, in their order. -/
def record (members : List (String × Json)) : Json :=
  object (members.map fun m => (some m.1, m.2))

/-- A member for a value that is there. -/
def optional {α : Type} (name : String) (f : α → Json) : Option α → List (String × Json)
  | some a => [(name, f a)]
  | none => []

/-- A member for a list that is not empty. -/
def nonempty (name : String) : List String → List (String × Json)
  | [] => []
  | l => [(name, texts l)]

/-- A code point below 0x20 as four hexadecimal digits. -/
def escapeByNumber (c : Char) : List Char :=
  let digits := Nat.toDigits 16 c.toNat
  ['\\', 'u'] ++ List.replicate (4 - digits.length) '0' ++ digits

def escaped : Char → List Char
  | '"' => ['\\', '"']
  | '\\' => ['\\', '\\']
  | '\x08' => ['\\', 'b']
  | '\x0c' => ['\\', 'f']
  | '\n' => ['\\', 'n']
  | '\r' => ['\\', 'r']
  | '\t' => ['\\', 't']
  | c => if c.val < 0x20 then escapeByNumber c else [c]

def renderText (s : String) : String :=
  String.ofList ('"' :: s.toList.flatMap escaped ++ ['"'])

def renderText? (s? : Option String) : String := renderText (s?.getD "")

mutual

/-- The text without any white space. -/
def render : Json → String
  | null => "null"
  | bool b => if b then "true" else "false"
  | number digits => digits
  | string text? => renderText? text?
  | array items => "[" ++ ",".intercalate (renderItems items) ++ "]"
  | object members => "\x7b" ++ ",".intercalate (renderMembers members) ++ "\x7d"

def renderItems : List Json → List String
  | [] => []
  | j :: rest => render j :: renderItems rest

def renderMembers : List (Option String × Json) → List String
  | [] => []
  | (name?, j) :: rest => (renderText? name? ++ ":" ++ render j) :: renderMembers rest

end

end Json

end StyleGrammar
