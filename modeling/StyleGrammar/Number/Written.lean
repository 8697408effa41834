import StyleGrammar.Number.Decimal

/-!
# How numbers are written

A number has two written forms.  In a style sheet (`Written.sheet`) its digits are found at a fixed
precision and cut to six.  In a message (`Written.message`) it has all its digits and always shows
that it may have a fraction.  Both put small and large numbers in scientific notation, with bounds
of their own.
-/

namespace StyleGrammar

namespace Written

/-- The character of a decimal digit. -/
def digit (d : Nat) : Char := Char.ofNat (48 + d)

def digitText (ds : List Nat) : String := String.ofList (ds.map digit)

def zeros (n : Nat) : String := String.ofList (List.replicate n '0')

/-- A layout decides where positional notation ends, by the place of the decimal point, and
whether whole numbers keep a fraction. -/
structure Layout where
  leastPoint : Int
  greatestPoint : Int
  fraction : Bool

/-- In a sheet, from a millionth up to and without `10 ^ 21`. -/
def sheetLayout : Layout := ⟨-5, 21, false⟩

/-- In a message, from a ten-thousandth up to and without `10 ^ 16`. -/
def messageLayout : Layout := ⟨-3, 16, true⟩

def Layout.isPositional (l : Layout) (point : Int) : Bool :=
  l.leastPoint ≤ point && point ≤ l.greatestPoint

/-- `0.0012`, `12.5` or `1200`. -/
def positional (ds : List Nat) (point : Int) (fraction : Bool) : String :=
  if point ≤ 0 then "0." ++ zeros (-point).toNat ++ digitText ds
  else
    let whole := point.toNat
    let left := digitText (ds.take whole) ++ zeros (whole - ds.length)
    match ds.drop whole with
    | [] => if fraction then left ++ ".0" else left
    | right => left ++ "." ++ digitText right

/-- `1.2e-7`: the coefficient, then the exponent. -/
def scientific (coefficient : String) (exponent : Int) : String :=
  coefficient ++ "e" ++ toString exponent

def coefficient : List Nat → String
  | [] => "0"
  | [d] => digitText [d]
  | d :: ds => digitText [d] ++ "." ++ digitText ds

/-- Six significant digits.  The notation is chosen before the digits are cut, so a carry out of the
first digit can leave a coefficient of ten. -/
def sheetMagnitude (d : Decimal) : String :=
  let (ds, carry) := Decimal.restrict 6 d.digits
  if sheetLayout.isPositional d.point then
    positional ds (if carry then d.point + 1 else d.point) sheetLayout.fraction
  else scientific (if carry then "10" else coefficient ds) (d.point - 1)

/-- The digits of a positive number in a sheet, found in its scaled interval. -/
def sheetDecimal (mantissa : Nat) (exponent : Int) : Decimal :=
  let (i, scale) := (Interval.rounding mantissa exponent).scaled
  (Decimal.shortest i).shift (-scale)

/-- A number of a style sheet.  An infinity is written as the power of two at which the range ends,
and what is no number as one and a half times that power. -/
def sheet : Single → String
  | .finite s m e =>
    let text := if m = 0 then "0" else sheetMagnitude (sheetDecimal m e)
    if s then "-" ++ text else text
  | .infinite s => if s then "-3.40282e38" else "3.40282e38"
  | .nan => "5.10424e38"

/-- A number inside a message. -/
def message : Single → String
  | .finite s m e =>
    let text :=
      if m = 0 then "0.0"
      else
        let d := Decimal.shortest (Interval.rounding m e)
        if messageLayout.isPositional d.point then
          positional d.digits d.point messageLayout.fraction
        else scientific (coefficient d.digits) (d.point - 1)
    if s then "-" ++ text else text
  | .infinite s => if s then "-inf" else "inf"
  | .nan => "NaN"

/-- Whether the text shows that it need not be a whole number. -/
def showsFraction (text : String) : Bool := text.toList.any fun c => c = '.' || c = 'e'

/-- A whole number that did not come from an integer keeps `.0`, so that it reads back as a number
and not as an integer. -/
def keepsFraction (value : Single) (integer : Bool) : Bool :=
  !integer && value.isWhole && !showsFraction (sheet value)

/-- The text of a numeric token. -/
def numeric (value : Single) (integer : Bool) : String :=
  if keepsFraction value integer then sheet value ++ ".0" else sheet value

end Written

end StyleGrammar
