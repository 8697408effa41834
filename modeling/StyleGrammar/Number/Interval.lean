import StyleGrammar.Number.Binary

/-!
# Intervals around a binary number

The decimals that may stand for a binary number lie in an interval around it.  `Interval.rounding`
holds every real that rounds to the number.  `Interval.scaled` is what remains of it at a fixed
precision: it is multiplied by a power of ten and kept to 32 binary digits, and its bounds come in
by as much as rounding may have moved them.  A decimal of the scaled interval reads back too, but
one close to a bound is lost, and then a longer decimal has to stand for the number.
-/

namespace StyleGrammar

/-- A value, and the bounds between which a real may stand for it, in units of `2 ^ exponent`. -/
structure Interval where
  low : Nat
  value : Nat
  high : Nat
  exponent : Int
  /-- Whether the bounds may stand for the value too. -/
  closed : Bool
  deriving DecidableEq, Repr

namespace Interval

/-- The reals that round to a positive single-precision value, in quarters of its last place.  The
gap below a power of two is half the gap above it, and the bounds go to the even mantissa. -/
def rounding (mantissa : Nat) (exponent : Int) : Interval :=
  let narrow := mantissa = 1 <<< 23 && Binary.Format.single.leastExponent < exponent
  ⟨4 * mantissa - (if narrow then 1 else 2), 4 * mantissa, 4 * mantissa + 2, exponent - 2,
    mantissa % 2 = 0⟩

/-- Whether `c * 10 ^ grid` may stand for the value. -/
def contains (i : Interval) (grid : Int) (c : Nat) : Bool :=
  let (t, t') := Binary.tens grid
  let (u, u') := Binary.quotient 1 i.exponent
  let here := c * t * u'
  let low := i.low * u * t'
  let high := i.high * u * t'
  if i.closed then low ≤ here && here ≤ high else low < here && here < high

/-- The exponents of the powers of ten by which an interval is scaled are eight apart. -/
def scales : List Int := (List.range 12).map fun (k : Nat) => 8 * (k : Int) - 36

/-- The least scale that brings a unit of `2 ^ exponent` to `2 ^ (-29)` or more.  A bound that fills
32 binary digits then has a whole part, and at most 29 of its digits are behind the point. -/
def scaleOf (exponent : Int) : Int :=
  let (u, u') := Binary.quotient 1 (exponent + 29)
  (scales.find? fun k => let (t, t') := Binary.tens k; t' * u' ≤ t * u).getD 0

/-- The interval times a power of ten, and the exponent of that power.  The interval is first
shifted so that its upper bound fills 32 binary digits.  Of each product the upper 32 are kept,
rounded; with the rounding of the power itself that moves a bound by at most one unit. -/
def scaled (i : Interval) : Interval × Int :=
  let shift := 31 - Nat.log2 i.high
  let scale := scaleOf (i.exponent - shift)
  let (t, t') := Binary.tens scale
  let (c, q) := Binary.significant 32 t t'
  let times (n : Nat) : Nat := ((n <<< shift) * c + 1 <<< 31) >>> 32
  (⟨times i.low + 1, times i.value, times i.high - 1, i.exponent - shift + q + 32, true⟩, scale)

end Interval

end StyleGrammar
