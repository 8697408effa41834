import StyleGrammar.Value.Keyword

/-!
# Kinds of values

Every value has a kind.  Most kinds are those of a token or of a function with a meaning of its own;
positions and ratios are composite, made of several values of a list.
-/

namespace StyleGrammar

/-- What a value is. -/
inductive Kind
  | percentage | integer | number | flex | length | angle | time | frequency | resolution
  | string | keyword | dashedIdent | url | color | colorMix | lightDark | deviceCmyk
  | linearGradient | radialGradient | conicGradient | imageSet | crossFade | element | paint
  | circle | ellipse | inset | rect | xywh | polygon | path | minmax | repetition | fitContent
  | cubicBezier | steps | linear | counter | counters | symbols | attr | env | var | leader
  | targetCounter | targetCounters | targetText | transform | filter | math | anchorSize | add
  | alternateGlyph | view | scroll | position | ratio | delimiter
  deriving DecidableEq, Repr, Inhabited

instance : Keyword Kind where
  all := [
    .percentage, .integer, .number, .flex, .length, .angle, .time, .frequency, .resolution,
    .string, .keyword, .dashedIdent, .url, .color, .colorMix, .lightDark, .deviceCmyk,
    .linearGradient, .radialGradient, .conicGradient, .imageSet, .crossFade, .element, .paint,
    .circle, .ellipse, .inset, .rect, .xywh, .polygon, .path, .minmax, .repetition, .fitContent,
    .cubicBezier, .steps, .linear, .counter, .counters, .symbols, .attr, .env, .var, .leader,
    .targetCounter, .targetCounters, .targetText, .transform, .filter, .math, .anchorSize, .add,
    .alternateGlyph, .view, .scroll, .position, .ratio, .delimiter]
  name
    | .percentage => "percentage" | .integer => "integer" | .number => "number" | .flex => "flex"
    | .length => "length" | .angle => "angle" | .time => "time" | .frequency => "frequency"
    | .resolution => "resolution" | .string => "string" | .keyword => "keyword"
    | .dashedIdent => "dashed-ident" | .url => "url" | .color => "color"
    | .colorMix => "color-mix" | .lightDark => "light-dark" | .deviceCmyk => "device-cmyk"
    | .linearGradient => "linear-gradient" | .radialGradient => "radial-gradient"
    | .conicGradient => "conic-gradient" | .imageSet => "image-set" | .crossFade => "cross-fade"
    | .element => "element" | .paint => "paint" | .circle => "circle" | .ellipse => "ellipse"
    | .inset => "inset" | .rect => "rect" | .xywh => "xywh" | .polygon => "polygon"
    | .path => "path" | .minmax => "minmax" | .repetition => "repeat"
    | .fitContent => "fit-content" | .cubicBezier => "cubic-bezier" | .steps => "steps"
    | .linear => "linear" | .counter => "counter" | .counters => "counters"
    | .symbols => "symbols" | .attr => "attr" | .env => "env" | .var => "var"
    | .leader => "leader" | .targetCounter => "target-counter"
    | .targetCounters => "target-counters" | .targetText => "target-text"
    | .transform => "transform" | .filter => "filter" | .math => "math"
    | .anchorSize => "anchor-size" | .add => "add" | .alternateGlyph => "alternate-glyph"
    | .view => "view" | .scroll => "scroll" | .position => "position" | .ratio => "ratio"
    | .delimiter => "delimiter"

namespace Kind

def all : List Kind := Keyword.all

def name (k : Kind) : String := Keyword.name k

/-- A plain value of the kind, as text.  Keywords have none in common. -/
def defaultText? : Kind → Option String
  | .keyword => none
  | .percentage => some "0%"
  | .integer => some "0"
  | .number => some "0.0"
  | .flex => some "1fr"
  | .length => some "0px"
  | .angle => some "0deg"
  | .time => some "0s"
  | .frequency => some "0hz"
  | .resolution => some "1x"
  | .string => some "\"\""
  | .dashedIdent => some "--name"
  | .url => some "url(\"\")"
  | .color => some "currentcolor"
  | .colorMix => some "color-mix(in srgb, white, black)"
  | .lightDark => some "light-dark(white, black)"
  | .deviceCmyk => some "device-cmyk(0 0 0 1)"
  | .linearGradient => some "linear-gradient(white, black)"
  | .radialGradient => some "radial-gradient(white, black)"
  | .conicGradient => some "conic-gradient(white, black)"
  | .imageSet => some "image-set(url(\"image.png\") 1x)"
  | .crossFade => some "cross-fade(url(\"a.png\"), url(\"b.png\"))"
  | .element => some "element(#id)"
  | .paint => some "paint(worklet)"
  | .circle => some "circle()"
  | .ellipse => some "ellipse()"
  | .inset => some "inset(0px)"
  | .rect => some "rect(auto auto auto auto)"
  | .xywh => some "xywh(0px 0px 100% 100%)"
  | .polygon => some "polygon(0px 0px)"
  | .path => some "path(\"M 0 0\")"
  | .minmax => some "minmax(auto, auto)"
  | .repetition => some "repeat(1, auto)"
  | .fitContent => some "fit-content(100%)"
  | .cubicBezier => some "cubic-bezier(.25, .1, .25, 1.0)"
  | .steps => some "steps(1)"
  | .linear => some "linear(0.0, 1.0)"
  | .counter => some "counter(name)"
  | .counters => some "counters(name, \".\")"
  | .symbols => some "symbols(\"*\")"
  | .attr => some "attr(name)"
  | .env => some "env(safe-area-inset-top)"
  | .var => some "var(--name)"
  | .leader => some "leader(dotted)"
  | .targetCounter => some "target-counter(url(\"#id\"), page)"
  | .targetCounters => some "target-counters(url(\"#id\"), page, \".\")"
  | .targetText => some "target-text(url(\"#id\"))"
  | .transform => some "translate(0px)"
  | .filter => some "blur(0px)"
  | .math => some "calc(0px)"
  | .anchorSize => some "anchor-size()"
  | .add => some "add(1)"
  | .alternateGlyph => some "stylistic(name)"
  | .view => some "view()"
  | .scroll => some "scroll()"
  | .position => some "center"
  | .ratio => some "1 / 1"
  | .delimiter => some ","

/-- Composite kinds stand for several values of a list. -/
def isComposite (k : Kind) : Bool := k = .position || k = .ratio

end Kind

end StyleGrammar
