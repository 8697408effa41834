import StyleGrammar.Value.Keyword

/-!
# Numbers

Numbers, integers, percentages and ratios, and how they are written.  A number below one loses the
zero before its point.
-/

namespace StyleGrammar

namespace Output

/-- Strips a repeated sequence of characters from the front of a text. -/
def stripped (strip : List Char) (fuel : Nat) (s : List Char) : List Char :=
  match fuel with
  | 0 => s
  | fuel + 1 =>
    if !strip.isEmpty && strip.isPrefixOf s then stripped strip fuel (s.drop strip.length) else s

/-- The text of a fraction without its leading zero.  The sign of a negative one is written apart,
and is stripped from the text along with the zero. -/
def fraction (negative : Bool) (s : String) : Output :=
  let strip (p : String) := String.ofList (stripped p.toList s.length s.toList)
  if negative then char '-' ++ text (strip "-0") else text (strip "0")

/-- Whether a value lies strictly between minus and plus some bound, and is not zero. -/
def isFraction (v bound : Single) : Bool := !v.isZero && v.abs.below bound

/-- The text of a numeric token. -/
def numericToken (v : Single) (integer : Bool) : Output :=
  text (Written.sheet v) ++ if Written.keepsFraction v integer then text ".0" else []

/-- A number.  An integral one is written without a fraction; any other whole number keeps one. -/
def number (v : Single) (integral : Bool) : Output :=
  match v with
  | .nan => text "0"
  | .infinite negative => text (if negative then "calc(-1/0)" else "calc(1/0)")
  | v =>
    if isFraction v Single.one then fraction v.isNegative (Written.numeric v integral)
    else numericToken v integral

/-- A number with a unit. -/
def dimension (v : Single) (unit : String) : Output :=
  if isFraction v Single.one then
    fraction v.isNegative (Written.numeric v v.isWhole ++ identifierText unit)
  else numericToken v v.isWhole ++ identifier unit

end Output

instance : Readable Single := ⟨Reader.number⟩

instance : Printable Single := ⟨fun _ v => Output.number v false⟩

instance : Readable Int := ⟨Reader.integer⟩

/-- Integers are written by way of their single-precision value. -/
instance : Printable Int := ⟨fun _ n => Output.number (Single.ofInt n) true⟩

/-- A percentage, as the fraction of one that it stands for. -/
structure Percentage where
  fraction : Single
  deriving BEq, DecidableEq, Repr, Inhabited

instance : Readable Percentage where
  read := return ⟨← Reader.percentage⟩

namespace Percentage

def hundred : Single := Single.ofNat 100

/-- One in a hundred. -/
def onePercent : Single := Binary.Format.single.round false 1 100

end Percentage

instance : Printable Percentage where
  print _ p :=
    let v := p.fraction.mul Percentage.hundred
    if Output.isFraction p.fraction Percentage.onePercent then
      Output.fraction p.fraction.isNegative (Written.numeric v v.isWhole ++ "%")
    else Output.numericToken v v.isWhole ++ Output.text "%"

/-- A number or a percentage.  Whole numbers are written as integers. -/
inductive NumberOrPercentage
  | number (v : Single)
  | percentage (p : Percentage)
  deriving BEq, DecidableEq, Repr, Inhabited

instance : Readable NumberOrPercentage where
  read := .number <$> read <|> .percentage <$> read <|> Reader.failNext

instance : Printable NumberOrPercentage where
  print compact
    | .number v => Output.number v v.isWhole
    | .percentage p => print compact p

/-- A quotient of two numbers that are not negative. -/
structure Ratio where
  first : Single
  second : Single
  deriving BEq, DecidableEq, Repr, Inhabited

instance : Readable Ratio where
  read := do
    let first : Single ← read
    let second ← if ← Reader.succeeds (Reader.delim '/') then read else pure Single.one
    if first.isNegative || second.isNegative then Reader.fail .invalidValue
    return ⟨first, second⟩

instance : Printable Ratio where
  print compact r :=
    Output.number r.first r.first.isWhole ++ Output.delim compact '/' true ++
      Output.number r.second r.second.isWhole

end StyleGrammar
