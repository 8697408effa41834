import StyleGrammar.Value.Leaf

/-!
# Calculations

A calculation is a tree of sums, products, functions and operands.  Operators bind to the left, and
`+` and `-` need blanks around them.  The tree is written with as few parentheses as that allows:
an operand on the left needs them if it binds more loosely than the operator around it, an operand
on the right also if it binds equally.
-/

namespace StyleGrammar

/-- The names of mathematical functions. -/
inductive MathName
  | calc | min | max | clamp | round | mod | rem | sin | cos | tan | asin | acos | atan | atan2
  | pow | sqrt | hypot | log | exp | abs | sign | calcSize | anchor
  deriving DecidableEq, Repr, Inhabited

instance : Keyword MathName where
  all := [.calc, .min, .max, .clamp, .round, .mod, .rem, .sin, .cos, .tan, .asin, .acos, .atan,
    .atan2, .pow, .sqrt, .hypot, .log, .exp, .abs, .sign, .calcSize, .anchor]
  name
    | .calc => "calc" | .min => "min" | .max => "max" | .clamp => "clamp" | .round => "round"
    | .mod => "mod" | .rem => "rem" | .sin => "sin" | .cos => "cos" | .tan => "tan"
    | .asin => "asin" | .acos => "acos" | .atan => "atan" | .atan2 => "atan2" | .pow => "pow"
    | .sqrt => "sqrt" | .hypot => "hypot" | .log => "log" | .exp => "exp" | .abs => "abs"
    | .sign => "sign" | .calcSize => "calc-size" | .anchor => "anchor"

/-- How `round()` rounds. -/
inductive RoundingStrategy
  | nearest | up | down | toZero
  deriving DecidableEq, Repr, Inhabited

instance : Keyword RoundingStrategy where
  all := [.nearest, .up, .down, .toZero]
  name | .nearest => "nearest" | .up => "up" | .down => "down" | .toZero => "to-zero"

/-- A calculation over operands that are values. -/
inductive Calc (V : Type)
  | sum (a b : Calc V)
  | difference (a b : Calc V)
  | product (a b : Calc V)
  | quotient (a b : Calc V)
  | value (v : V)
  | keyword (name : String)
  | function (name : MathName) (arguments : List (Calc V))
  deriving Repr, Inhabited

/-- A mathematical function and its arguments. -/
structure MathFunction (V : Type) where
  name : MathName
  arguments : List (Calc V)
  deriving Repr, Inhabited

namespace Calc

variable {V : Type}

mutual

def same [BEq V] : Calc V → Calc V → Bool
  | sum a b, sum a' b' => same a a' && same b b'
  | difference a b, difference a' b' => same a a' && same b b'
  | product a b, product a' b' => same a a' && same b b'
  | quotient a b, quotient a' b' => same a a' && same b b'
  | value v, value v' => v == v'
  | keyword k, keyword k' => k == k'
  | function f xs, function f' xs' => f == f' && sameAll xs xs'
  | _, _ => false

def sameAll [BEq V] : List (Calc V) → List (Calc V) → Bool
  | [], [] => true
  | a :: as, b :: bs => same a b && sameAll as bs
  | _, _ => false

end

instance [BEq V] : BEq (Calc V) := ⟨same⟩

/-- How tightly the root of a calculation binds. -/
inductive Level
  | sum | product | operand
  deriving DecidableEq, Repr

def level : Calc V → Level
  | sum _ _ | difference _ _ => .sum
  | product _ _ | quotient _ _ => .product
  | _ => .operand

/-- The kinds of values that can be calculated with, or stand for values that can. -/
def isOperand : Kind → Bool
  | .number | .integer | .percentage | .length | .angle | .time | .frequency | .resolution | .flex
  | .var | .env | .attr | .anchorSize => true
  | _ => false

def parenthesized (wanted : Bool) (o : Output) : Output :=
  if wanted then Output.char '(' ++ o ++ Output.char ')' else o

/-- A sign between operands keeps its blanks in compact output too. -/
def additive (c : Char) : Output := Output.delim false c true

mutual

def print [Printable V] (compact : Bool) : Calc V → Output
  | sum a b =>
    print compact a ++ additive '+' ++ parenthesized (b.level = .sum) (print compact b)
  | difference a b =>
    print compact a ++ additive '-' ++ parenthesized (b.level = .sum) (print compact b)
  | product a b =>
    parenthesized (a.level = .sum) (print compact a) ++ Output.delim compact '*' true ++
      parenthesized (b.level != .operand) (print compact b)
  | quotient a b =>
    parenthesized (a.level = .sum) (print compact a) ++ Output.delim compact '/' true ++
      parenthesized (b.level != .operand) (print compact b)
  | value v => Printable.print compact v
  | keyword k => Output.identifier k
  | function f xs => Output.call (Keyword.name f) (printAll compact xs)

def printAll [Printable V] (compact : Bool) : List (Calc V) → Output
  | [] => []
  | [a] => print compact a
  | a :: as => print compact a ++ Output.comma compact ++ printAll compact as

end

instance [Printable V] : Printable (Calc V) := ⟨print⟩

open Reader

/-- An operand that is neither a function nor in parentheses. -/
def readOperand [Term V] : Reader (Calc V) := do
  let l ← place
  let v : V ← read
  match Term.leaf? v with
  | some (.keyword i) => return keyword i.name.toLower
  | _ => if isOperand (Term.kind v) then return value v else failAt l .invalidValue

/-- Whether a mathematical function comes next. -/
def atFunction (c : Cursor) : Bool :=
  match c.next with
  | .ok (.function n, _) => (Keyword.ofName? MathName n).isSome
  | _ => false

/-- A mathematical function whose arguments are read by `inner`. -/
def readFunction (inner : Reader (Calc V)) : Reader (MathFunction V) := do
  let name ← expect fun | .function n => Keyword.ofName? MathName n | _ => none
  let arguments ← nested (block (commaSeparated inner))
  return ⟨name, arguments⟩

/-- A function, a calculation in parentheses, or an operand. -/
def readFactor [Term V] (inner : Reader (Calc V)) : Reader (Calc V) := do
  if atFunction (← get) then
    let f ← readFunction inner
    return function f.name f.arguments
  else if ← succeeds parenthesis then nested (block inner)
  else readOperand

inductive Operator
  | times | over

def operator? : Token → Option Operator
  | .delim '*' => some .times
  | .delim '/' => some .over
  | _ => none

/-- The factors that follow a first one, at most `count`. -/
def readFactors [Term V] (inner : Reader (Calc V)) : (count : Nat) → Calc V → Reader (Calc V)
  | 0, a => return a
  | n + 1, a => do
    match ← attempt (expect operator?) with
    | some .times => readFactors inner n (product a (← readFactor inner))
    | some .over => readFactors inner n (quotient a (← readFactor inner))
    | none => return a

def readProduct [Term V] (inner : Reader (Calc V)) : Reader (Calc V) := do
  let a ← readFactor inner
  readFactors inner (← get).rest.length a

/-- The terms that follow a first one, at most `count`.  Each begins with a blank and a sign. -/
def readTerms [Term V] (inner : Reader (Calc V)) : (count : Nat) → Calc V → Reader (Calc V)
  | 0, a => return a
  | n + 1, a => do
    match (← get).nextRaw with
    | .ok (none, c) =>
      set c
      if ← atEnd then return a
      match ← next with
      | .delim '+' => readTerms inner n (sum a (← readProduct inner))
      | .delim '-' => readTerms inner n (difference a (← readProduct inner))
      | t => fail (.unexpectedToken t)
    | _ => return a

def readTermsOf [Term V] (inner : Reader (Calc V)) : Reader (Calc V) := do
  let a ← readProduct inner
  readTerms inner (← get).rest.length a

/-- A calculation with at most `depth` levels of functions and parentheses in it. -/
def readWithin [Term V] : (depth : Nat) → Reader (Calc V)
  | 0 => fail .invalidValue
  | n + 1 => readTermsOf (readWithin n)

/-- Reading stops at the limit on nesting before this depth is used up. -/
def maxDepth : Nat := nestingLimit + 1

instance [Term V] : Readable (Calc V) := ⟨readWithin maxDepth⟩

end Calc

namespace MathFunction

variable {V : Type}

instance [BEq V] : BEq (MathFunction V) :=
  ⟨fun f g => f.name == g.name && Calc.sameAll f.arguments g.arguments⟩

instance [Term V] : Readable (MathFunction V) := ⟨Calc.readFunction (Calc.readWithin Calc.maxDepth)⟩

instance [Printable V] : Printable (MathFunction V) where
  print compact f := Calc.print compact (.function f.name f.arguments)

def isCalc (f : MathFunction V) : Bool := f.name = .calc

end MathFunction

/-- A dimension, a percentage, or a calculation of either. -/
inductive Measure (D V : Type)
  | dimension (d : D)
  | percentage (p : Percentage)
  | math (f : MathFunction V)
  deriving BEq, Repr, Inhabited

namespace Measure

variable {D V : Type}

open Reader

instance [Readable D] [Term V] : Readable (Measure D V) where
  read := math <$> read <|> dimension <$> read <|> percentage <$> read <|> failNext

instance [Printable D] [Printable V] : Printable (Measure D V) where
  print compact
    | dimension d => Printable.print compact d
    | percentage p => Printable.print compact p
    | math f => Printable.print compact f

end Measure

abbrev LengthPercentage (V : Type) := Measure Length V

abbrev AnglePercentage (V : Type) := Measure Angle V

/-- A length or percentage, or the choice of the layout. -/
inductive LengthPercentageOrAuto (V : Type)
  | auto
  | measure (m : LengthPercentage V)
  deriving BEq, Repr, Inhabited

namespace LengthPercentageOrAuto

variable {V : Type}

open Reader

instance [Term V] : Readable (LengthPercentageOrAuto V) where
  read := (fun _ => auto) <$> keyword "auto" <|> measure <$> read <|> failNext

instance [Printable V] : Printable (LengthPercentageOrAuto V) where
  print compact
    | auto => Output.text "auto"
    | measure m => Printable.print compact m

end LengthPercentageOrAuto

end StyleGrammar
