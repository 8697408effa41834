import StyleGrammar.Value.Keyword

/-!
# Plain colors

Colors that are a single token: names, system colors and hexadecimal notation.
-/

namespace StyleGrammar

/-- The colors of the user's system. -/
def systemColors : List String := [
  "AccentColor", "AccentColorText", "ActiveText", "ButtonBorder", "ButtonFace", "ButtonText",
  "Canvas", "CanvasText", "Field", "FieldText", "GrayText", "Highlight", "HighlightText",
  "LinkText", "Mark", "MarkText", "SelectedItem", "SelectedItemText", "VisitedText"]

/-- System colors of older sheets. -/
def deprecatedSystemColors : List String := [
  "ActiveBorder", "ActiveCaption", "AppWorkspace", "Background", "ButtonHighlight",
  "ButtonShadow", "CaptionText", "InactiveBorder", "InactiveCaption", "InactiveCaptionText",
  "InfoBackground", "InfoText", "Menu", "MenuText", "Scrollbar", "ThreeDDarkShadow",
  "ThreeDFace", "ThreeDHighlight", "ThreeDLightShadow", "ThreeDShadow", "Window", "WindowFrame",
  "WindowText"]

/-- The colors with a fixed name. -/
def namedColors : List String := [
  "aliceblue", "antiquewhite", "aqua", "aquamarine", "azure", "beige", "bisque", "black",
  "blanchedalmond", "blue", "blueviolet", "brown", "burlywood", "cadetblue", "chartreuse",
  "chocolate", "coral", "cornflowerblue", "cornsilk", "crimson", "cyan", "darkblue", "darkcyan",
  "darkgoldenrod", "darkgray", "darkgreen", "darkgrey", "darkkhaki", "darkmagenta",
  "darkolivegreen", "darkorange", "darkorchid", "darkred", "darksalmon", "darkseagreen",
  "darkslateblue", "darkslategray", "darkslategrey", "darkturquoise", "darkviolet", "deeppink",
  "deepskyblue", "dimgray", "dimgrey", "dodgerblue", "firebrick", "floralwhite", "forestgreen",
  "fuchsia", "gainsboro", "ghostwhite", "gold", "goldenrod", "gray", "green", "greenyellow",
  "grey", "honeydew", "hotpink", "indianred", "indigo", "ivory", "khaki", "lavender",
  "lavenderblush", "lawngreen", "lemonchiffon", "lightblue", "lightcoral", "lightcyan",
  "lightgoldenrodyellow", "lightgray", "lightgreen", "lightgrey", "lightpink", "lightsalmon",
  "lightseagreen", "lightskyblue", "lightslategray", "lightslategrey", "lightsteelblue",
  "lightyellow", "lime", "limegreen", "linen", "magenta", "maroon", "mediumaquamarine",
  "mediumblue", "mediumorchid", "mediumpurple", "mediumseagreen", "mediumslateblue",
  "mediumspringgreen", "mediumturquoise", "mediumvioletred", "midnightblue", "mintcream",
  "mistyrose", "moccasin", "navajowhite", "navy", "oldlace", "olive", "olivedrab", "orange",
  "orangered", "orchid", "palegoldenrod", "palegreen", "paleturquoise", "palevioletred",
  "papayawhip", "peachpuff", "peru", "pink", "plum", "powderblue", "purple", "rebeccapurple",
  "red", "rosybrown", "royalblue", "saddlebrown", "salmon", "sandybrown", "seagreen", "seashell",
  "sienna", "silver", "skyblue", "slateblue", "slategray", "slategrey", "snow", "springgreen",
  "steelblue", "tan", "teal", "thistle", "tomato", "turquoise", "violet", "wheat", "white",
  "whitesmoke", "yellow", "yellowgreen"]

/-- Red, green, blue and opacity, each in 256 steps. -/
structure Rgba where
  red : UInt8
  green : UInt8
  blue : UInt8
  alpha : UInt8
  deriving BEq, DecidableEq, Repr, Inhabited

namespace Rgba

def hexDigit? (c : Char) : Option UInt8 :=
  if Scan.isHexDigit c then some (UInt8.ofNat (Scan.hexValue c)) else none

def pair? (high low : Char) : Option UInt8 := do
  return (← hexDigit? high) * 16 + (← hexDigit? low)

/-- A single digit stands for itself twice. -/
def single? (c : Char) : Option UInt8 := pair? c c

/-- Three, four, six or eight hexadecimal digits.  Without an opacity the color is opaque. -/
def ofDigits? : List Char → Option Rgba
  | [r, r', g, g', b, b', a, a'] => do
    return ⟨← pair? r r', ← pair? g g', ← pair? b b', ← pair? a a'⟩
  | [r, r', g, g', b, b'] => do return ⟨← pair? r r', ← pair? g g', ← pair? b b', 255⟩
  | [r, g, b, a] => do return ⟨← single? r, ← single? g, ← single? b, ← single? a⟩
  | [r, g, b] => do return ⟨← single? r, ← single? g, ← single? b, 255⟩
  | _ => none

def digit (n : UInt8) : Char := Nat.digitChar n.toNat

/-- Two digits.  A zero in front is written apart, as padding. -/
def printPair (n : UInt8) : Output :=
  if n < 16 then Output.text "0" ++ Output.text (String.ofList [digit n])
  else Output.text (String.ofList [digit (n / 16), digit (n % 16)])

/-- The channels that have to be written. -/
def written (c : Rgba) : List UInt8 :=
  if c.alpha = 255 then [c.red, c.green, c.blue] else [c.red, c.green, c.blue, c.alpha]

end Rgba

/-- One digit for each channel where that loses nothing, else two. -/
instance : Printable Rgba where
  print _ c :=
    Output.char '#' ++
      if c.written.all (· % 17 = 0) then
        c.written.flatMap fun n => Output.text (String.ofList [Rgba.digit (n / 17)])
      else c.written.flatMap Rgba.printPair

/-- A color that is one token. -/
inductive PlainColor
  | current
  | named (name : String)
  | system (name : String)
  | hex (c : Rgba)
  deriving BEq, DecidableEq, Repr, Inhabited

namespace PlainColor

def namedColor? (s : String) : Option String :=
  ("transparent" :: namedColors).find? (Reader.sameName · s)

def systemColor? (s : String) : Option String :=
  (systemColors ++ deprecatedSystemColors).find? (Reader.sameName · s)

/-- The color with a name, in any case. -/
def ofName? (s : String) : Option PlainColor :=
  if Reader.sameName s "currentcolor" then some current
  else
    match namedColor? s with
    | some n => some (named n)
    | none => (systemColor? s).map system

def ofToken? : Token → Option PlainColor
  | .hash s | .idHash s => (Rgba.ofDigits? s.toList).map hex
  | .ident n => ofName? n
  | _ => none

/-- The name of a color that has one. -/
def keyword? : PlainColor → Option String
  | current => some "currentcolor"
  | named n | system n => some n
  | hex _ => none

/-- Whether a name is that of a color. -/
def isKeyword (s : String) : Bool := (ofName? s).isSome

end PlainColor

instance : Readable PlainColor := ⟨Reader.expect PlainColor.ofToken?⟩

instance : Printable PlainColor where
  print compact
    | .current => Output.text "currentcolor"
    | .named n | .system n => Output.text n
    | .hex c => print compact c

end StyleGrammar
