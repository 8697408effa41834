import StyleGrammar.Value.Calc

/-!
# Colors

Colors are plain, or written as functions: by their channels in a color space, as a mix of two, as a
choice for light and dark schemes, or by the inks of a printer.  A function may start from another
color.  The older notation of channels with commas is read, and the newer one is written.
-/

namespace StyleGrammar

/-- The color spaces that have a function. -/
inductive ColorSpace
  | rgb | hsl | hwb | lab | lch | oklab | oklch | color
  deriving DecidableEq, Repr, Inhabited

instance : Keyword ColorSpace where
  all := [.rgb, .hsl, .hwb, .lab, .lch, .oklab, .oklch, .color]
  name
    | .rgb => "rgb" | .hsl => "hsl" | .hwb => "hwb" | .lab => "lab" | .lch => "lch"
    | .oklab => "oklab" | .oklch => "oklch" | .color => "color"

/-- The space of a function, two of which have an older name. -/
def ColorSpace.ofFunction? (name : String) : Option ColorSpace :=
  if Reader.sameName name "rgba" then some .rgb
  else if Reader.sameName name "hsla" then some .hsl
  else Keyword.ofName? ColorSpace name

/-- A channel of a color, or its opacity. -/
inductive ColorChannel (V : Type)
  | number (v : Single)
  | percentage (p : Percentage)
  | angle (a : Angle)
  | keyword (name : String)
  | math (f : MathFunction V)
  deriving BEq, Repr, Inhabited

namespace ColorChannel

variable {V : Type}

open Reader

def ofToken? : Token → Option (ColorChannel V)
  | .number _ v _ => some (number v)
  | .percentage _ v _ => some (percentage ⟨v⟩)
  | .ident n => some (keyword n.toLower)
  | _ => none

instance [Term V] : Readable (ColorChannel V) where
  read := math <$> read <|> angle <$> read <|> expect ofToken?

instance [Printable V] : Printable (ColorChannel V) where
  print compact
    | number v => Output.number v v.isWhole
    | percentage p => Printable.print compact p
    | angle a => Printable.print compact a
    | keyword k => Output.identifier k
    | math f => Printable.print compact f

end ColorChannel

mutual

/-- The channels of a color in a space.  `predefined?` names the space of `color()`. -/
structure ColorFunction (V : Type) where
  space : ColorSpace
  predefined? : Option String
  origin? : Option (Color V)
  channels : List (ColorChannel V)
  alpha? : Option (ColorChannel V)

/-- Two colors and how to mix them, each with the share it has. -/
structure ColorMix (V : Type) where
  interpolation : List String
  first : Color V
  firstShare? : Option Percentage
  second : Color V
  secondShare? : Option Percentage

/-- A color for light schemes and one for dark schemes. -/
structure LightDark (V : Type) where
  light : Color V
  dark : Color V

/-- The inks of a color, and a color for devices without them. -/
structure DeviceCmyk (V : Type) where
  cyan : NumberOrPercentage
  magenta : NumberOrPercentage
  yellow : NumberOrPercentage
  black : NumberOrPercentage
  alpha? : Option NumberOrPercentage
  fallback? : Option (Color V)

/-- Any color. -/
inductive Color (V : Type)
  | plain (c : PlainColor)
  | function (f : ColorFunction V)
  | mix (m : ColorMix V)
  | lightDark (l : LightDark V)
  | deviceCmyk (d : DeviceCmyk V)

end

instance {V : Type} : Inhabited (Color V) := ⟨.plain .current⟩

namespace Color

variable {V : Type}

mutual

def same [BEq V] : Color V → Color V → Bool
  | plain c, plain c' => c == c'
  | function f, function f' => sameFunction f f'
  | mix m, mix m' => sameMix m m'
  | lightDark l, lightDark l' => sameLightDark l l'
  | deviceCmyk d, deviceCmyk d' => sameCmyk d d'
  | _, _ => false

def same? [BEq V] : Option (Color V) → Option (Color V) → Bool
  | some c, some c' => same c c'
  | none, none => true
  | _, _ => false

def sameFunction [BEq V] : ColorFunction V → ColorFunction V → Bool
  | ⟨s, p, o, cs, a⟩, ⟨s', p', o', cs', a'⟩ =>
    s == s' && p == p' && same? o o' && cs == cs' && a == a'

def sameMix [BEq V] : ColorMix V → ColorMix V → Bool
  | ⟨i, c, p, d, q⟩, ⟨i', c', p', d', q'⟩ =>
    i == i' && same c c' && p == p' && same d d' && q == q'

def sameLightDark [BEq V] : LightDark V → LightDark V → Bool
  | ⟨l, d⟩, ⟨l', d'⟩ => same l l' && same d d'

def sameCmyk [BEq V] : DeviceCmyk V → DeviceCmyk V → Bool
  | ⟨c, m, y, k, a, f⟩, ⟨c', m', y', k', a', f'⟩ =>
    c == c' && m == m' && y == y' && k == k' && a == a' && same? f f'

end

/-- Spaces between words. -/
def words (os : List Output) : Output := Output.separated (Output.char ' ') os

def printAlpha {α : Type} [Printable α] (compact : Bool) : Option α → Output
  | some a => Output.delim compact '/' true ++ Printable.print compact a
  | none => []

def printShare (compact : Bool) : Option Percentage → Output
  | some p => Output.char ' ' ++ Printable.print compact p
  | none => []

mutual

def print [Printable V] (compact : Bool) : Color V → Output
  | plain c => Printable.print compact c
  | function f => printFunction compact f
  | mix m => printMix compact m
  | lightDark l => printLightDark compact l
  | deviceCmyk d => printCmyk compact d

/-- The start of a function that begins with another color. -/
def printOrigin [Printable V] (compact : Bool) : Option (Color V) → List Output
  | some c => [Output.text "from " ++ print compact c]
  | none => []

def printFunction [Printable V] (compact : Bool) : ColorFunction V → Output
  | ⟨space, predefined?, origin?, channels, alpha?⟩ =>
    Output.call (Keyword.name space)
      (words (printOrigin compact origin? ++ predefined?.toList.map Output.identifier ++
        channels.map (Printable.print compact)) ++ printAlpha compact alpha?)

def printMix [Printable V] (compact : Bool) : ColorMix V → Output
  | ⟨interpolation, first, firstShare?, second, secondShare?⟩ =>
    Output.text "color-mix(in" ++
      interpolation.flatMap (fun n => Output.char ' ' ++ Output.identifier n) ++
      Output.comma compact ++ print compact first ++ printShare compact firstShare? ++
      Output.comma compact ++ print compact second ++ printShare compact secondShare? ++
      Output.char ')'

def printLightDark [Printable V] (compact : Bool) : LightDark V → Output
  | ⟨light, dark⟩ =>
    Output.call "light-dark" (print compact light ++ Output.comma compact ++ print compact dark)

def printFallback [Printable V] (compact : Bool) : Option (Color V) → Output
  | some c => Output.comma compact ++ print compact c
  | none => []

def printCmyk [Printable V] (compact : Bool) : DeviceCmyk V → Output
  | ⟨cyan, magenta, yellow, black, alpha?, fallback?⟩ =>
    Output.call "device-cmyk"
      (words ([cyan, magenta, yellow, black].map (Printable.print compact)) ++
        printAlpha compact alpha? ++ printFallback compact fallback?)

end

open Reader

/-- The channels read so far, whether they stand between commas, and the opacity. -/
structure Channels (V : Type) where
  channels : List (ColorChannel V)
  legacy : Bool
  alpha? : Option (ColorChannel V)

/-- Reads channels until nothing is left or an opacity was read, at most `count`.  Whether commas
are used shows after the first channel; then they have to stand between all, and the fourth is
the opacity. -/
def readChannels [Term V] : (count : Nat) → Channels V → Reader (Channels V)
  | 0, s => return s
  | n + 1, s => do
    if ← atEnd then return s
    let later := !s.channels.isEmpty
    if later then
      if ← succeeds (delim '/') then return { s with alpha? := some (← read) }
    let mut legacy := s.legacy
    if later && (legacy || s.channels.length = 1) then
      if ← succeeds comma then
        legacy := true
        if s.channels.length = 3 then return { s with legacy, alpha? := some (← read) }
      else if legacy then fail .invalidValue
    let c : ColorChannel V ← read
    readChannels n { s with channels := s.channels ++ [c], legacy }

/-- The arguments of a color function; `inner` reads the color it starts from. -/
def readArguments [Term V] (inner : Reader (Color V)) (space : ColorSpace) :
    Reader (ColorFunction V) := do
  let origin? ← if ← succeeds (keyword "from") then some <$> inner else pure none
  let predefined? ← if space = .color then (some ·.toLower) <$> ident else pure none
  let s ← readChannels ((← get).rest.length + 1) ⟨[], false, none⟩
  if s.channels.length < 3 then fail .invalidValue
  return ⟨space, predefined?, origin?, s.channels, s.alpha?⟩

/-- A plain color or a color function. -/
def readSimple [Term V] (inner : Reader (Color V)) : Reader (PlainColor ⊕ ColorFunction V) := do
  let l ← place
  let t ← next
  match t with
  | .function n =>
    match ColorSpace.ofFunction? n with
    | some space => .inr <$> block (readArguments inner space)
    | none => failAt l (.unexpectedToken t)
  | t =>
    match PlainColor.ofToken? t with
    | some c => return .inl c
    | none => failAt l (.unexpectedToken t)

/-- A color and its share, which may stand before or behind it. -/
def readShare (inner : Reader (Color V)) : Reader (Color V × Option Percentage) := do
  let before : Option Percentage ← attempt read
  let c ← inner
  match before with
  | some p => return (c, some p)
  | none => return (c, ← attempt read)

def readMix (inner : Reader (Color V)) : Reader (ColorMix V) := do
  functionNamed "color-mix"
  block do
    Reader.keyword "in"
    let head ← ident
    let tail ← many ident
    comma
    let (first, firstShare?) ← readShare inner
    comma
    let (second, secondShare?) ← readShare inner
    return ⟨(head :: tail).map String.toLower, first, firstShare?, second, secondShare?⟩

def readLightDark (inner : Reader (Color V)) : Reader (LightDark V) := do
  functionNamed "light-dark"
  block do
    let light ← inner
    comma
    let dark ← inner
    return ⟨light, dark⟩

/-- With a comma after the first ink there is one after each, and no opacity. -/
def readCmyk (inner : Reader (Color V)) : Reader (DeviceCmyk V) := do
  functionNamed "device-cmyk"
  block do
    let cyan ← read
    let legacy ← succeeds comma
    let magenta ← read
    if legacy then comma
    let yellow ← read
    if legacy then comma
    let black ← read
    let slash ← if legacy then pure false else succeeds (delim '/')
    let alpha? ← if slash then some <$> read else pure none
    let fallback? ← if ← succeeds comma then some <$> inner else pure none
    return ⟨cyan, magenta, yellow, black, alpha?, fallback?⟩

/-- Any color, with colors inside it read by `inner`. -/
def readWith [Term V] (inner : Reader (Color V)) : Reader (Color V) :=
  nested do
    mix <$> readMix inner <|> lightDark <$> readLightDark inner <|>
      deviceCmyk <$> readCmyk inner <|>
      (fun | .inl c => plain c | .inr f => function f) <$> readSimple inner

/-- A color with at most `depth` levels of colors in it. -/
def readWithin [Term V] : (depth : Nat) → Reader (Color V)
  | 0 => fail .invalidValue
  | n + 1 => readWith (readWithin n)

/-- Reading stops at the limit on nesting before this depth is used up. -/
def maxDepth : Nat := nestingLimit + 1

def readInner [Term V] : Reader (Color V) := readWithin maxDepth

end Color

section Instances

variable {V : Type}

instance [BEq V] : BEq (Color V) := ⟨Color.same⟩
instance [BEq V] : BEq (ColorFunction V) := ⟨Color.sameFunction⟩
instance [BEq V] : BEq (ColorMix V) := ⟨Color.sameMix⟩
instance [BEq V] : BEq (LightDark V) := ⟨Color.sameLightDark⟩
instance [BEq V] : BEq (DeviceCmyk V) := ⟨Color.sameCmyk⟩

instance [Printable V] : Printable (Color V) := ⟨Color.print⟩
instance [Printable V] : Printable (ColorFunction V) := ⟨Color.printFunction⟩
instance [Printable V] : Printable (ColorMix V) := ⟨Color.printMix⟩
instance [Printable V] : Printable (LightDark V) := ⟨Color.printLightDark⟩
instance [Printable V] : Printable (DeviceCmyk V) := ⟨Color.printCmyk⟩

instance [Term V] : Readable (Color V) := ⟨Color.readInner⟩
instance [Term V] : Readable (ColorMix V) := ⟨Color.readMix Color.readInner⟩
instance [Term V] : Readable (LightDark V) := ⟨Color.readLightDark Color.readInner⟩
instance [Term V] : Readable (DeviceCmyk V) := ⟨Color.readCmyk Color.readInner⟩

end Instances

/-- A color that is plain or has channels of its own. -/
inductive SimpleColor (V : Type)
  | plain (c : PlainColor)
  | function (f : ColorFunction V)
  deriving BEq

namespace SimpleColor

variable {V : Type}

open Reader

instance : Inhabited (SimpleColor V) := ⟨plain .current⟩

instance [Term V] : Readable (SimpleColor V) where
  read := (fun | .inl c => plain c | .inr f => function f) <$> Color.readSimple Color.readInner

instance [Printable V] : Printable (SimpleColor V) where
  print compact
    | plain c => Printable.print compact c
    | function f => Printable.print compact f

def keyword? : SimpleColor V → Option String
  | plain c => c.keyword?
  | function _ => none

def functionName? : SimpleColor V → Option String
  | plain _ => none
  | function f => some (Keyword.name f.space)

end SimpleColor

end StyleGrammar
