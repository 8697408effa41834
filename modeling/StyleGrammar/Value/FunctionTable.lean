import StyleGrammar.Value.Kind

/-!
# Functions of values

The functions that values are written with, and the kind of value that each stands for.  Names are
listed in lower case.
-/

namespace StyleGrammar

/-- Each kind that has functions, with their names. -/
def functionTable : List (Kind × List String) := [
  (.url, ["url"]),
  (.color, ["rgb", "rgba", "hsl", "hsla", "hwb", "lab", "lch", "oklab", "oklch", "color"]),
  (.colorMix, ["color-mix"]),
  (.lightDark, ["light-dark"]),
  (.deviceCmyk, ["device-cmyk"]),
  (.linearGradient, ["linear-gradient", "repeating-linear-gradient"]),
  (.radialGradient, ["radial-gradient", "repeating-radial-gradient"]),
  (.conicGradient, ["conic-gradient", "repeating-conic-gradient"]),
  (.imageSet, ["image-set"]),
  (.crossFade, ["cross-fade"]),
  (.element, ["element"]),
  (.paint, ["paint"]),
  (.circle, ["circle"]),
  (.ellipse, ["ellipse"]),
  (.inset, ["inset"]),
  (.rect, ["rect"]),
  (.xywh, ["xywh"]),
  (.polygon, ["polygon"]),
  (.path, ["path"]),
  (.minmax, ["minmax"]),
  (.repetition, ["repeat"]),
  (.fitContent, ["fit-content"]),
  (.cubicBezier, ["cubic-bezier"]),
  (.steps, ["steps"]),
  (.linear, ["linear"]),
  (.counter, ["counter"]),
  (.counters, ["counters"]),
  (.symbols, ["symbols"]),
  (.attr, ["attr"]),
  (.env, ["env"]),
  (.var, ["var"]),
  (.leader, ["leader"]),
  (.targetCounter, ["target-counter"]),
  (.targetCounters, ["target-counters"]),
  (.targetText, ["target-text"]),
  (.transform, [
    "translate", "translatex", "translatey", "translatez", "translate3d", "rotate", "rotatex",
    "rotatey", "rotatez", "rotate3d", "scale", "scalex", "scaley", "scalez", "scale3d", "skew",
    "skewx", "skewy", "matrix", "matrix3d", "perspective"]),
  (.filter, [
    "blur", "brightness", "contrast", "drop-shadow", "grayscale", "hue-rotate", "invert",
    "opacity", "saturate", "sepia"]),
  (.math, [
    "calc", "min", "max", "clamp", "round", "mod", "rem", "sin", "cos", "tan", "asin", "acos",
    "atan", "atan2", "pow", "sqrt", "hypot", "log", "exp", "abs", "sign", "calc-size", "anchor"]),
  (.anchorSize, ["anchor-size"]),
  (.add, ["add"]),
  (.alternateGlyph, [
    "stylistic", "styleset", "character-variant", "swash", "ornament", "annotation"]),
  (.view, ["view"]),
  (.scroll, ["scroll"])]

/-- The names of all functions, in the order of the table. -/
def functionNames : List String := functionTable.flatMap Prod.snd

/-- The kind of value that a function stands for. -/
def functionKind? (name : String) : Option Kind :=
  let name := name.toLower
  (functionTable.find? fun entry => entry.2.contains name).map Prod.fst

end StyleGrammar
