import StyleGrammar.Table

/-!
# Standard definitions

The named definitions that the standard properties refer to, in alphabetical order.
-/

namespace StyleGrammar

namespace Standard

def definitionsFromAToF : List (String × String) := [
  ("absolute-size",
    "xx-small | x-small | small | medium | large | x-large | xx-large | xxx-large"),
  ("alpha-value", "<number> | <percentage>"),
  ("animateable-feature", "scroll-position | contents | <custom-ident>"),
  ("attachment", "scroll | fixed | local"),
  ("bg-image", "none | <image>"),
  ("bg-position",
    "[ [ left | center | right | top | bottom | <length-percentage> ] | [ left | center | " ++
    "right | <length-percentage> ] [ top | center | bottom | <length-percentage> ] | [ center " ++
    "| [ left | right ] <length-percentage>? ] && [ center | [ top | bottom ] " ++
    "<length-percentage>? ] ]"),
  ("bg-size", "[ <length-percentage [0,∞]> | auto ]\x7b1,2\x7d | cover | contain"),
  ("box", "border-box | padding-box | content-box"),
  ("clip-source", "<url>"),
  ("compositing-operator", "add | subtract | intersect | exclude"),
  ("content-list",
    "[ <string> | contents | <image> | <counter> | <quote> | <target> | <leader()> ]+"),
  ("content-replacement", "<image>"),
  ("coord-box", "<paint-box> | view-box"),
  ("counter", "<counter()> | <counters()>"),
  ("counter-name", "<custom-ident>"),
  ("counter-style", "<counter-style-name> | symbols( <symbols-type>? [ <string> | <image> ]+ )"),
  ("counter-style-name", "<custom-ident>"),
  ("cubic-bezier-timing-function",
    "ease | ease-in | ease-out | ease-in-out | cubic-bezier( <number [0,1]> , <number> , " ++
    "<number [0,1]> , <number> )"),
  ("display-box", "contents | none"),
  ("display-inside", "flow | flow-root | table | flex | grid | ruby"),
  ("display-internal",
    "table-row-group | table-header-group | table-footer-group | table-row | table-cell | " ++
    "table-column-group | table-column | table-caption | ruby-base | ruby-text | " ++
    "ruby-base-container | ruby-text-container"),
  ("display-legacy",
    "inline-block | inline-list-item | inline-table | inline-flex | inline-grid"),
  ("display-listitem", "<display-outside>? && [ flow | flow-root ]? && list-item"),
  ("display-outside", "block | inline | run-in"),
  ("easing-function",
    "linear | <linear-easing-function> | <cubic-bezier-timing-function> | " ++
    "<step-timing-function>"),
  ("family-name", "<string> | <custom-ident>+"),
  ("filter-value-list", "[ <filter-function> | <url> ]+"),
  ("font-weight-absolute", "normal | bold | <number [1,1000]>")]

def definitionsFromGToL : List (String × String) := [
  ("generic-family", "serif | sans-serif | cursive | fantasy | monospace | system-ui"),
  ("geometry-box", "<shape-box> | fill-box | stroke-box | view-box"),
  ("grid-line",
    "auto | <custom-ident> | [ <integer> && <custom-ident>? ] | [ span && [ <integer> || " ++
    "<custom-ident> ] ]"),
  ("inflexible-breadth", "<length-percentage> | min-content | max-content | auto"),
  ("keyframes-name", "<custom-ident> | <string>"),
  ("length-percentage", "<length> | <percentage>"),
  ("line-names", "'[' <custom-ident>* ']'"),
  ("line-style",
    "none | hidden | dotted | dashed | solid | double | groove | ridge | inset | outset"),
  ("line-width", "<length> | thin | medium | thick"),
  ("linear-easing-function", "linear( <linear-stop-list> )"),
  ("linear-stop-list", "[ <linear-stop> ]#"),
  ("linear-stop", "<number> && <linear-stop-length>?"),
  ("linear-stop-length", "<percentage>\x7b1,2\x7d")]

def definitionsFromMToR : List (String × String) := [
  ("mask-layer",
    "<mask-reference> || <position> [ / <bg-size> ]? || <repeat-style> || <geometry-box> || [ " ++
    "<geometry-box> | no-clip ] || <compositing-operator> || <masking-mode>"),
  ("mask-reference", "none | <image> | <mask-source>"),
  ("mask-source", "<url>"),
  ("masking-mode", "alpha | luminance | match-source"),
  ("paint-box", "<visual-box> | fill-box | stroke-box"),
  ("position",
    "[ [ left | center | right ] || [ top | center | bottom ] | [ left | center | right | " ++
    "<length-percentage> ] [ top | center | bottom | <length-percentage> ]? | [ [ left | " ++
    "right ] <length-percentage> ] && [ [ top | bottom ] <length-percentage> ] ]"),
  ("quote", "open-quote | close-quote | no-open-quote | no-close-quote"),
  ("ratio", "<number [0,∞]> [ / <number [0,∞]> ]?"),
  ("relative-size", "larger | smaller"),
  ("repeat-style", "repeat-x | repeat-y | [ repeat | space | round | no-repeat ]\x7b1,2\x7d")]

def definitionsFromSToZ : List (String × String) := [
  ("shadow", "inset? && <length>\x7b2,4\x7d && <color>?"),
  ("shadow-t", "[ <length>\x7b2,3\x7d && <color>? ]"),
  ("shape-box", "<visual-box> | margin-box"),
  ("single-animation",
    "<time> || <easing-function> || <time> || <single-animation-iteration-count> || " ++
    "<single-animation-direction> || <single-animation-fill-mode> || " ++
    "<single-animation-play-state> || [ none | <keyframes-name> ] || " ++
    "<single-animation-timeline>"),
  ("single-animation-direction", "normal | reverse | alternate | alternate-reverse"),
  ("single-animation-fill-mode", "none | forwards | backwards | both"),
  ("single-animation-iteration-count", "infinite | <number>"),
  ("single-animation-play-state", "running | paused"),
  ("single-animation-timeline", "auto | none | <dashed-ident> | <scroll()> | <view()>"),
  ("single-transition",
    "[ none | <single-transition-property> ] || <time> || <easing-function> || <time> || " ++
    "<transition-behavior-value>"),
  ("single-transition-property", "all | <custom-ident>"),
  ("step-position", "jump-start | jump-end | jump-none | jump-both | start | end"),
  ("step-timing-function", "step-start | step-end | steps( <integer> [ , <step-position> ]? )"),
  ("symbols-type", "cyclic | numeric | alphabetic | symbolic | fixed"),
  ("target", "<target-counter()> | <target-counters()> | <target-text()>"),
  ("track-breadth", "<length-percentage> | <flex> | min-content | max-content | auto"),
  ("track-list", "[ <line-names>? [ <track-size> | <track-repeat> ] ]+ <line-names>?"),
  ("track-repeat",
    "repeat( [ <integer [1,∞]> ] , [ <line-names>? <track-size> ]+ <line-names>? )"),
  ("track-size",
    "<track-breadth> | minmax( <inflexible-breadth> , <track-breadth> ) | fit-content( " ++
    "<length-percentage> )"),
  ("transform-list", "<transform-function>+"),
  ("transition-behavior-value", "normal | allow-discrete"),
  ("visual-box", "content-box | padding-box | border-box")]

def definitions : Table String :=
  ⟨definitionsFromAToF ++ definitionsFromGToL ++
    definitionsFromMToR ++ definitionsFromSToZ⟩

end Standard

end StyleGrammar
