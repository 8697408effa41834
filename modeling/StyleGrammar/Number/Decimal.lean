import StyleGrammar.Number.Interval

/-!
# Decimal digits of a binary number

`Decimal.shortest` finds the fewest digits that may stand for the value of an interval, and of those
the nearest to it.  A grid of `k` digits is tried for each `k` in turn, and on a grid only the two
neighbours of the value matter: if any point of the grid is in the interval, one of them is.
`Decimal.restrict` cuts digits to a given number of places, a five rounding up.
-/

namespace StyleGrammar

/-- The number `0.d₁d₂… * 10 ^ point`. -/
structure Decimal where
  digits : List Nat
  point : Int
  deriving DecidableEq, Repr, Inhabited

namespace Decimal

/-- The digits of a natural, most significant first; zero has none. -/
def digitsOf (n : Nat) : List Nat :=
  if _ : n = 0 then [] else digitsOf (n / 10) ++ [n % 10]
termination_by n
decreasing_by omega

def dropTrailingZeros (ds : List Nat) : List Nat :=
  (ds.reverse.dropWhile (· = 0)).reverse

/-- The place of the decimal point: the `p` with `10 ^ (p - 1) ≤ num / den < 10 ^ p`. -/
def pointOf (num den : Nat) : Int :=
  let q := num / den
  if 0 < q then (digitsOf q).length
  else
    -- `10 ^ j * num / den` is below one for every `j` up to the number of leading zeros
    let zeros := (List.range 60).takeWhile fun j => num * Nat.pow 10 j < den
    1 - (zeros.length : Int)

/-- The candidate of a grid of `places` digits, if one of the value's two neighbours on it may stand
for the value; of two the nearer. -/
def onGrid? (i : Interval) (point : Int) (places : Nat) : Option Decimal :=
  let grid := point - places
  let (t, t') := Binary.tens grid
  let (n, d) := Binary.quotient i.value i.exponent
  let num := n * t'
  let den := d * t
  let below := num / den
  let pick (c : Nat) : Decimal :=
    ⟨dropTrailingZeros (digitsOf c), (digitsOf c).length + grid⟩
  if i.contains grid below && i.contains grid (below + 1) then
    some (pick (if 2 * (num % den) < den then below else below + 1))
  else if i.contains grid below then some (pick below)
  else if i.contains grid (below + 1) then some (pick (below + 1))
  else none

/-- The fewest digits that may stand for the value of an interval, and of those the nearest to it.
For a single-precision value nine always do. -/
def shortest (i : Interval) : Decimal :=
  if i.value = 0 then ⟨[], 0⟩
  else
    let (n, d) := Binary.quotient i.value i.exponent
    let point := pointOf n d
    ([1, 2, 3, 4, 5, 6, 7, 8, 9].findSome? (onGrid? i point ·)).getD ⟨[], 0⟩

/-- The number times `10 ^ k`. -/
def shift (d : Decimal) (k : Int) : Decimal := ⟨d.digits, d.point + k⟩

/-- One more in the last place; the carry out of the first digit is reported apart. -/
def increment : List Nat → List Nat × Bool
  | [] => ([], true)
  | d :: ds =>
    match increment ds with
    | (ds, false) => (d :: ds, false)
    | (ds, true) => if d = 9 then (0 :: ds, true) else ((d + 1) :: ds, false)

/-- The digits cut to a number of places, rounded by the first one cut.  When the carry runs out of
the first digit, what is left is a single one, a place further left. -/
def restrict (places : Nat) (ds : List Nat) : List Nat × Bool :=
  match ds.drop places with
  | [] => (ds, false)
  | next :: _ =>
    if 5 ≤ next then
      match increment (ds.take places) with
      | (kept, false) => (dropTrailingZeros kept, false)
      | (_, true) => ([1], true)
    else (dropTrailingZeros (ds.take places), false)

end Decimal

end StyleGrammar
