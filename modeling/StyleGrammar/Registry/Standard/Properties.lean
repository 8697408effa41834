import StyleGrammar.Registry.Property

/-!
# Standard properties

The properties that are known without a table of one's own, in alphabetical order.
-/

namespace StyleGrammar

namespace Standard

/-- What most properties have in common. -/
def plain (name group definition : String) : Property where
  definition := definition
  media? := some (.value "visual")
  inherited := false
  animationType? := some (.value "discrete")
  percentages? := some (.value "no")
  groups := [group]
  initial? := none
  appliesTo? := some "allElements"
  computed? := some (.value "asSpecified")
  order? := some "uniqueOrder"
  status? := some "standard"
  reference? := some ("https://developer.mozilla.org/docs/Web/CSS/" ++ name)
  stacking? := none
  alsoAppliesTo := []
  forbidden := []

/-- A property and what sets it apart. -/
def row (name group definition : String) (differ : Property → Property) : String × Property :=
  (name, differ (plain name group definition))

def propertiesFromAToC : List (String × Property) := [
  row "accent-color" "CSS Basic User Interface"
    "auto | <color>" fun p => { p with
      inherited := true
      animationType? := some (.value "byComputedValueType")
      initial? := some (.value "auto") },
  row "animation" "CSS Animations"
    "<single-animation>#" fun p => { p with
      initial? := some (.derived ["animation-name", "animation-duration",
        "animation-timing-function", "animation-delay", "animation-iteration-count",
        "animation-direction", "animation-fill-mode", "animation-play-state", "animation-timeline"])
      appliesTo? := some "allElementsAndPseudos"
      computed? := some (.derived ["animation-name", "animation-duration",
        "animation-timing-function"])
      order? := some "orderOfAppearance" },
  row "animation-duration" "CSS Animations"
    "[ auto | <time [0s,∞]> ]#" fun p => { p with
      initial? := some (.value "0s")
      appliesTo? := some "allElementsAndPseudos" },
  row "animation-name" "CSS Animations"
    "[ none | <keyframes-name> ]#" fun p => { p with
      initial? := some (.value "none")
      appliesTo? := some "allElementsAndPseudos"
      order? := some "orderOfAppearance" },
  row "animation-timeline" "CSS Animations"
    "<single-animation-timeline>#" fun p => { p with
      initial? := some (.value "auto") },
  row "animation-timing-function" "CSS Animations"
    "<easing-function>#" fun p => { p with
      initial? := some (.value "ease")
      appliesTo? := some "allElementsAndPseudos" },
  row "aspect-ratio" "CSS Box Sizing"
    "auto || <ratio>" fun p => { p with
      animationType? := some (.value "byComputedValueType")
      initial? := some (.value "auto")
      appliesTo? := some "allElementsExceptInlineBoxesAndInternalRubyOrTableBoxes" },
  row "background-color" "CSS Backgrounds and Borders"
    "<color>" fun p => { p with
      animationType? := some (.value "color")
      initial? := some (.value "transparent")
      computed? := some (.value "computedColor") },
  row "background-image" "CSS Backgrounds and Borders"
    "<bg-image>#" fun p => { p with
      initial? := some (.value "none")
      computed? := some (.value "asSpecifiedURLsAbsolute") },
  row "background-position" "CSS Backgrounds and Borders"
    "<bg-position>#" fun p => { p with
      animationType? := some (.value "repeatableListOfSimpleListOfLpc")
      percentages? := some (.value "referToSizeOfBackgroundPositioningAreaMinusBackgroundImageSize")
      initial? := some (.value "0% 0%")
      computed? := some (.value "listEachItemConsistingOfAbsoluteLengthPercentageAndOrigin") },
  row "background-repeat" "CSS Backgrounds and Borders"
    "<repeat-style>#" fun p => { p with
      initial? := some (.value "repeat") },
  row "background-size" "CSS Backgrounds and Borders"
    "<bg-size>#" fun p => { p with
      animationType? := some (.value "repeatableListOfSimpleListOfLpc")
      percentages? := some (.value "relativeToBackgroundPositioningArea")
      initial? := some (.value "auto auto") },
  row "border" "CSS Backgrounds and Borders"
    "<line-width> || <line-style> || <color>" fun p => { p with
      animationType? := some (.derived ["border-color", "border-style", "border-width"])
      initial? := some (.derived ["border-width", "border-style", "border-color"])
      computed? := some (.derived ["border-width", "border-style", "border-color"])
      order? := some "orderOfAppearance" },
  row "border-color" "CSS Backgrounds and Borders"
    "<color>\x7b1,4\x7d" fun p => { p with
      animationType? := some (.derived ["border-bottom-color", "border-left-color",
        "border-right-color", "border-top-color"])
      initial? := some (.derived ["border-top-color", "border-right-color", "border-bottom-color",
        "border-left-color"]) },
  row "border-style" "CSS Backgrounds and Borders"
    "<line-style>\x7b1,4\x7d" fun p => { p with
      initial? := some (.derived ["border-top-style", "border-right-style", "border-bottom-style",
        "border-left-style"]) },
  row "border-top-style" "CSS Backgrounds and Borders"
    "<line-style>" fun p => { p with
      initial? := some (.value "none") },
  row "border-top-width" "CSS Backgrounds and Borders"
    "<line-width>" fun p => { p with
      animationType? := some (.value "length")
      initial? := some (.value "medium")
      computed? := some (.value "absoluteLengthOr0IfBorderTopStyleNoneOrHidden") },
  row "border-width" "CSS Backgrounds and Borders"
    "<line-width>\x7b1,4\x7d" fun p => { p with
      animationType? := some (.derived ["border-bottom-width", "border-left-width",
        "border-right-width", "border-top-width"])
      initial? := some (.derived ["border-top-width", "border-right-width", "border-bottom-width",
        "border-left-width"]) },
  row "box-shadow" "CSS Backgrounds and Borders"
    "none | <shadow>#" fun p => { p with
      animationType? := some (.value "shadowList")
      initial? := some (.value "none")
      computed? := some (.value "absoluteLengthsSpecifiedColorAsSpecified") },
  row "clip-path" "CSS Masking"
    "<clip-source> | [ <basic-shape> || <geometry-box> ] | none" fun p => { p with
      animationType? := some (.value "basicShapeOtherwiseNo")
      percentages? := some (.value "referToReferenceBoxWhenSpecifiedOtherwiseBorderBox")
      initial? := some (.value "none") },
  row "color" "CSS Color"
    "<color>" fun p => { p with
      inherited := true
      animationType? := some (.value "color")
      initial? := some (.value "canvastext")
      computed? := some (.value "computedColor") },
  row "content" "CSS Generated Content"
    "normal | none | [ <content-replacement> | <content-list> ] [ / [ <string> | <counter> ]+ ]?"
    fun p => { p with
      initial? := some (.value "normal")
      appliesTo? := some "allElementsTreeAbidingPseudoElementsPageMarginBoxes"
      computed? := some (.value "normalOnElementsForPseudosNoneAbsoluteURIStringOrAsSpecified") },
  row "counter-reset" "CSS Counter Styles"
    "[ <counter-name> <integer>? ]+ | none" fun p => { p with
      initial? := some (.value "none") }]

def propertiesFromDToG : List (String × Property) := [
  row "display" "CSS Display"
    ("[ <display-outside> || <display-inside> ] | <display-listitem> | <display-internal> | " ++
      "<display-box> | <display-legacy>") fun p => { p with
      initial? := some (.value "inline")
      computed? := some
        (.value "asSpecifiedExceptPositionedFloatingAndRootElementsKeywordMaybeDifferent") },
  row "filter" "Filter Effects"
    "none | <filter-value-list>" fun p => { p with
      animationType? := some (.value "filterList")
      initial? := some (.value "none") },
  row "font-family" "CSS Fonts"
    "[ <family-name> | <generic-family> ]#" fun p => { p with
      inherited := true
      initial? := some (.value "dependsOnUserAgent") },
  row "font-palette" "CSS Fonts"
    "normal | light | dark | <palette-identifier>" fun p => { p with
      inherited := true
      initial? := some (.value "normal") },
  row "font-size" "CSS Fonts"
    "<absolute-size> | <relative-size> | <length-percentage [0,∞]> | math" fun p => { p with
      inherited := true
      animationType? := some (.value "length")
      percentages? := some (.value "referToParentElementsFontSize")
      initial? := some (.value "medium") },
  row "font-smooth" "CSS Fonts"
    "auto | never | always | <absolute-size> | <length>" fun p => { p with
      inherited := true
      initial? := some (.value "auto")
      status? := some "nonstandard" },
  row "font-weight" "CSS Fonts"
    "<font-weight-absolute> | bolder | lighter" fun p => { p with
      inherited := true
      animationType? := some (.value "fontWeight")
      initial? := some (.value "normal") },
  row "grid-row-start" "CSS Grid Layout"
    "<grid-line>" fun p => { p with
      initial? := some (.value "auto")
      appliesTo? := some "gridItemsAndBoxesWithinGridContainer" },
  row "grid-template-areas" "CSS Grid Layout"
    "none | <string>+" fun p => { p with
      initial? := some (.value "none")
      appliesTo? := some "gridContainers" },
  row "grid-template-columns" "CSS Grid Layout"
    "none | <track-list>" fun p => { p with
      animationType? := some (.value "simpleListOfLpcDifferenceLpc")
      percentages? := some (.value "referToDimensionOfContentArea")
      initial? := some (.value "none")
      appliesTo? := some "gridContainers" }]

def propertiesFromHToO : List (String × Property) := [
  row "height" "CSS Box Model"
    ("auto | <length-percentage [0,∞]> | min-content | max-content | fit-content | " ++
      "fit-content( <length-percentage [0,∞]> ) | <anchor-size()>") fun p => { p with
      animationType? := some (.value "lpc")
      percentages? := some
        (.value "regardingHeightOfGeneratedBoxContainingBlockPercentagesRelativeToContainingBlock")
      initial? := some (.value "auto")
      appliesTo? := some "allElementsButNonReplacedAndTableColumns"
      computed? := some (.value "percentageAutoOrAbsoluteLength") },
  row "image-rendering" "CSS Images"
    "auto | crisp-edges | pixelated | smooth" fun p => { p with
      inherited := true
      initial? := some (.value "auto") },
  row "line-height" "CSS Fonts"
    "normal | <number> | <length> | <percentage>" fun p => { p with
      inherited := true
      animationType? := some (.value "numberOrLength")
      percentages? := some (.value "referToElementFontSize")
      initial? := some (.value "normal") },
  row "list-style-type" "CSS Lists and Counters"
    "<counter-style> | <string> | none" fun p => { p with
      inherited := true
      initial? := some (.value "disc")
      appliesTo? := some "listItems" },
  row "margin" "CSS Box Model"
    "[ <length-percentage> | auto ]\x7b1,4\x7d" fun p => { p with
      animationType? := some (.value "length")
      percentages? := some (.value "referToWidthOfContainingBlock")
      initial? := some (.derived ["margin-bottom", "margin-left", "margin-right", "margin-top"]) },
  row "margin-top" "CSS Box Model"
    "<length-percentage> | auto" fun p => { p with
      animationType? := some (.value "length")
      percentages? := some (.value "referToWidthOfContainingBlock")
      initial? := some (.value "0") },
  row "mask" "CSS Masking"
    "<mask-layer>#" fun p => { p with
      initial? := some (.derived ["mask-image", "mask-mode", "mask-repeat", "mask-position",
        "mask-clip", "mask-origin", "mask-size", "mask-composite"])
      order? := some "perGrammar" },
  row "offset-path" "CSS Motion Path"
    "none | <offset-path> || <coord-box>" fun p => { p with
      initial? := some (.value "none")
      appliesTo? := some "transformableElements" },
  row "opacity" "CSS Color"
    "<alpha-value>" fun p => { p with
      animationType? := some (.value "number")
      initial? := some (.value "1")
      computed? := some (.value "specifiedValueClipped0To1") },
  row "outline-width" "CSS Basic User Interface"
    "<line-width>" fun p => { p with
      animationType? := some (.value "length")
      initial? := some (.value "medium") }]

def propertiesFromPToZ : List (String × Property) := [
  row "padding" "CSS Box Model"
    "[ <length-percentage [0,∞]> ]\x7b1,4\x7d" fun p => { p with
      animationType? := some (.value "length")
      percentages? := some (.value "referToWidthOfContainingBlock")
      initial? := some <| .derived
        ["padding-bottom", "padding-left", "padding-right", "padding-top"] },
  row "padding-top" "CSS Box Model"
    "<length-percentage [0,∞]>" fun p => { p with
      animationType? := some (.value "length")
      percentages? := some (.value "referToWidthOfContainingBlock")
      initial? := some (.value "0") },
  row "rotate" "CSS Transforms"
    "none | <angle> | [ x | y | z | <number>\x7b3\x7d ] && <angle>" fun p => { p with
      animationType? := some (.value "transform")
      initial? := some (.value "none")
      appliesTo? := some "transformableElements"
      stacking? := some true },
  row "scale" "CSS Transforms"
    "none | [ <number> | <percentage> ]\x7b1,3\x7d" fun p => { p with
      animationType? := some (.value "transform")
      initial? := some (.value "none")
      appliesTo? := some "transformableElements"
      stacking? := some true },
  row "text-shadow" "CSS Text Decoration"
    "none | <shadow-t>#" fun p => { p with
      inherited := true
      animationType? := some (.value "shadowList")
      initial? := some (.value "none") },
  row "transform" "CSS Transforms"
    "none | <transform-list>" fun p => { p with
      animationType? := some (.value "transform")
      percentages? := some (.value "referToSizeOfBoundingBox")
      initial? := some (.value "none")
      appliesTo? := some "transformableElements"
      stacking? := some true },
  row "transform-origin" "CSS Transforms"
    ("[ <length-percentage> | left | center | right | top | bottom ] | [ [ " ++
      "<length-percentage> | left | center | right ] && [ <length-percentage> | top | center " ++
      "| bottom ] ] <length>?") fun p => { p with
      animationType? := some (.value "simpleListOfLpc")
      percentages? := some (.value "referToSizeOfBoundingBox")
      initial? := some (.value "50% 50% 0")
      appliesTo? := some "transformableElements"
      order? := some "oneOrTwoValuesLengthAbsoluteKeywordsPercentages" },
  row "transition" "CSS Transitions"
    "<single-transition>#" fun p => { p with
      initial? := some (.derived ["transition-delay", "transition-duration", "transition-property",
        "transition-timing-function", "transition-behavior"])
      appliesTo? := some "allElementsAndPseudos"
      order? := some "orderOfAppearance" },
  row "transition-timing-function" "CSS Transitions"
    "<easing-function>#" fun p => { p with
      initial? := some (.value "ease")
      appliesTo? := some "allElementsAndPseudos" },
  row "translate" "CSS Transforms"
    "none | <length-percentage> [ <length-percentage> <length>? ]?" fun p => { p with
      animationType? := some (.value "transform")
      percentages? := some (.value "referToSizeOfBoundingBox")
      initial? := some (.value "none")
      appliesTo? := some "transformableElements"
      stacking? := some true },
  row "view-transition-name" "CSS View Transitions"
    "none | <custom-ident>" fun p => { p with
      initial? := some (.value "none") },
  row "width" "CSS Box Model"
    ("auto | <length-percentage [0,∞]> | min-content | max-content | fit-content | " ++
      "fit-content( <length-percentage [0,∞]> ) | <anchor-size()>") fun p => { p with
      animationType? := some (.value "lpc")
      percentages? := some (.value "referToWidthOfContainingBlock")
      initial? := some (.value "auto")
      appliesTo? := some "allElementsButNonReplacedAndTableRows"
      computed? := some (.value "percentageAutoOrAbsoluteLength") },
  row "will-change" "CSS Will Change"
    "auto | <animateable-feature>#" fun p => { p with
      initial? := some (.value "auto") },
  row "z-index" "CSS Positioning"
    "auto | <integer>" fun p => { p with
      animationType? := some (.value "integer")
      initial? := some (.value "auto")
      appliesTo? := some "positionedElements"
      stacking? := some true },
  row "zoom" "Microsoft Extensions"
    "normal | reset | <number [0,∞]> || <percentage [0,∞]>" fun p => { p with
      initial? := some (.value "normal")
      status? := some "nonstandard" }]

def properties : Table Property :=
  ⟨propertiesFromAToC ++ propertiesFromDToG ++
    propertiesFromHToO ++ propertiesFromPToZ⟩

end Standard

end StyleGrammar
