import StyleGrammar.Value.Number

/-!
# Dimensions

Lengths, angles, times, frequencies, resolutions and flexible shares.  Each is a number with a
unit of its kind; the unit is recognised in any case and written in one.
-/

namespace StyleGrammar

/-- The units of lengths: absolute, relative to the font, to the viewport and to a container. -/
inductive LengthUnit
  | px | inch | cm | mm | q | pt | pc
  | em | rem | ex | rex | ch | rch | cap | rcap | ic | ric | lh | rlh
  | vw | lvw | svw | dvw | vh | lvh | svh | dvh | vi | svi | lvi | dvi | vb | svb | lvb | dvb
  | vmin | svmin | lvmin | dvmin | vmax | svmax | lvmax | dvmax
  | cqw | cqh | cqi | cqb | cqmin | cqmax
  deriving DecidableEq, Repr, Inhabited

instance : Keyword LengthUnit where
  all := [.px, .inch, .cm, .mm, .q, .pt, .pc, .em, .rem, .ex, .rex, .ch, .rch, .cap, .rcap, .ic,
    .ric, .lh, .rlh, .vw, .lvw, .svw, .dvw, .vh, .lvh, .svh, .dvh, .vi, .svi, .lvi, .dvi, .vb,
    .svb, .lvb, .dvb, .vmin, .svmin, .lvmin, .dvmin, .vmax, .svmax, .lvmax, .dvmax, .cqw, .cqh,
    .cqi, .cqb, .cqmin, .cqmax]
  name
    | .px => "px" | .inch => "in" | .cm => "cm" | .mm => "mm" | .q => "q" | .pt => "pt"
    | .pc => "pc" | .em => "em" | .rem => "rem" | .ex => "ex" | .rex => "rex" | .ch => "ch"
    | .rch => "rch" | .cap => "cap" | .rcap => "rcap" | .ic => "ic" | .ric => "ric"
    | .lh => "lh" | .rlh => "rlh" | .vw => "vw" | .lvw => "lvw" | .svw => "svw"
    | .dvw => "dvw" | .vh => "vh" | .lvh => "lvh" | .svh => "svh" | .dvh => "dvh"
    | .vi => "vi" | .svi => "svi" | .lvi => "lvi" | .dvi => "dvi" | .vb => "vb"
    | .svb => "svb" | .lvb => "lvb" | .dvb => "dvb" | .vmin => "vmin" | .svmin => "svmin"
    | .lvmin => "lvmin" | .dvmin => "dvmin" | .vmax => "vmax" | .svmax => "svmax"
    | .lvmax => "lvmax" | .dvmax => "dvmax" | .cqw => "cqw" | .cqh => "cqh" | .cqi => "cqi"
    | .cqb => "cqb" | .cqmin => "cqmin" | .cqmax => "cqmax"

inductive AngleUnit
  | deg | rad | grad | turn
  deriving DecidableEq, Repr, Inhabited

instance : Keyword AngleUnit where
  all := [.deg, .grad, .turn, .rad]
  name | .deg => "deg" | .rad => "rad" | .grad => "grad" | .turn => "turn"

inductive TimeUnit
  | s | ms
  deriving DecidableEq, Repr, Inhabited

instance : Keyword TimeUnit where
  all := [.s, .ms]
  name | .s => "s" | .ms => "ms"

inductive FrequencyUnit
  | hz | khz
  deriving DecidableEq, Repr, Inhabited

instance : Keyword FrequencyUnit where
  all := [.hz, .khz]
  name | .hz => "Hz" | .khz => "kHz"

inductive ResolutionUnit
  | dpi | dpcm | dppx | x
  deriving DecidableEq, Repr, Inhabited

instance : Keyword ResolutionUnit where
  all := [.dpi, .dpcm, .dppx, .x]
  name | .dpi => "dpi" | .dpcm => "dpcm" | .dppx => "dppx" | .x => "x"

/-- Shares of the free space of a grid. -/
inductive FlexUnit
  | fr
  deriving DecidableEq, Repr, Inhabited

instance : Keyword FlexUnit where
  all := [.fr]
  name | .fr => "fr"

/-- A number with a unit. -/
structure Dimension (U : Type) where
  value : Single
  unit : U
  deriving BEq, DecidableEq, Repr, Inhabited

namespace Dimension

variable {U : Type} [Keyword U]

/-- The dimension that a token writes, if its unit is of the kind. -/
def ofToken? : Token → Option (Dimension U)
  | .dimension _ value _ unit => (Keyword.ofName? U unit).map (⟨value, ·⟩)
  | _ => none

instance (priority := low) : Readable (Dimension U) where
  read := Reader.expect ofToken?

instance : Printable (Dimension U) where
  print _ d := Output.dimension d.value (Keyword.name d.unit)

end Dimension

abbrev Length := Dimension LengthUnit

abbrev Angle := Dimension AngleUnit

abbrev Time := Dimension TimeUnit

abbrev Frequency := Dimension FrequencyUnit

abbrev Resolution := Dimension ResolutionUnit

abbrev Flex := Dimension FlexUnit

namespace Length

/-- A length may also be a zero without a unit. -/
def ofToken? : Token → Option Length
  | .number _ value _ => if value.isZero then some ⟨Single.zero, .px⟩ else none
  | t => Dimension.ofToken? t

instance : Readable Length where
  read := Reader.expect ofToken?

def isUnit (s : String) : Bool := (Keyword.ofName? LengthUnit s).isSome

end Length

namespace Angle

/-- An angle, or a zero without a unit. -/
def readWithZero : Reader Angle :=
  Reader.expect fun
    | .number _ value _ => if value.isZero then some ⟨Single.zero, .deg⟩ else none
    | t => Dimension.ofToken? t

/-- The single-precision value nearest to the ratio of a circle to its diameter. -/
def pi : Single := .finite false 13176795 (-22)

def degrees (a : Angle) : Single :=
  match a.unit with
  | .deg => a.value
  | .rad => a.value.mul ((Single.ofNat 180).div pi)
  | .grad => (a.value.mul (Single.ofNat 180)).div (Single.ofNat 200)
  | .turn => a.value.mul (Single.ofNat 360)

def isZero (a : Angle) : Bool := a.degrees.isZero

end Angle

namespace Time

def milliseconds (t : Time) : Single :=
  match t.unit with
  | .s => t.value.mul (Single.ofNat 1000)
  | .ms => t.value

end Time

end StyleGrammar
