/-!
# Binary floating-point numbers

Numbers of a style sheet are single precision, and reading them goes through double precision.
Both are values of `Binary`, computed exactly and then rounded to a `Format`: `Format.round` gives
the value of the format that is nearest to a quotient, an exact tie going to the even mantissa.
Every operation below is such a rounding of the exact result; only powers of ten, which are found
from their leading digits, have a rule of their own.
-/

namespace StyleGrammar

/-- A floating-point value: a signed `mantissa * 2 ^ exponent`, an infinity, or not a number. -/
inductive Binary
  | finite (negative : Bool) (mantissa : Nat) (exponent : Int)
  | infinite (negative : Bool)
  | nan
  deriving DecidableEq, Repr, Inhabited

namespace Binary

/-- A format holds the mantissas below `2 ^ precision` at exponents between the two bounds. -/
structure Format where
  precision : Nat
  leastExponent : Int
  greatestExponent : Int

/-- Single precision, 32 bits wide. -/
def Format.single : Format := ⟨24, -149, 104⟩

/-- Double precision, 64 bits wide. -/
def Format.double : Format := ⟨53, -1074, 971⟩

/-- A quotient times `2 ^ (-e)`, as a quotient of naturals. -/
def scaleDown (num den : Nat) (e : Int) : Nat × Nat :=
  if 0 ≤ e then (num, den <<< e.toNat) else (num <<< (-e).toNat, den)

/-- The exponent of the leading binary digit of a positive quotient. -/
def leadingExponent (num den : Nat) : Int :=
  let guess : Int := (Nat.log2 num : Int) - (Nat.log2 den : Int)
  let (n, d) := scaleDown num den guess
  if n < d then guess - 1 else guess

/-- Where a quotient goes that lies halfway between two naturals. -/
inductive Tie
  | even
  | up
  deriving DecidableEq, Repr

/-- The nearest natural to a quotient. -/
def nearest (tie : Tie) (num den : Nat) : Nat :=
  let q := num / den
  let twice := 2 * (num % den)
  if twice < den then q
  else if den < twice then q + 1
  else if tie = .even && q % 2 = 0 then q
  else q + 1

/-- A positive quotient rounded to a mantissa in units of `2 ^ e`.  A carry into one more digit than
`precision` is taken by the exponent. -/
def mantissaAt (precision : Nat) (tie : Tie) (num den : Nat) (e : Int) : Nat × Int :=
  let (n, d) := scaleDown num den e
  let m := nearest tie n d
  if m = 1 <<< precision then (m / 2, e + 1) else (m, e)

/-- The leading `precision` binary digits of a positive quotient, rounded, and their exponent. -/
def significant (precision : Nat) (num den : Nat) : Nat × Int :=
  mantissaAt precision .even num den (leadingExponent num den - (precision - 1 : Nat))

/-- A power of ten as a quotient. -/
def tens (e : Int) : Nat × Nat :=
  if 0 ≤ e then (Nat.pow 10 e.toNat, 1) else (1, Nat.pow 10 (-e).toNat)

/-- The magnitude of a finite value as a quotient. -/
def quotient (mantissa : Nat) (exponent : Int) : Nat × Nat :=
  if 0 ≤ exponent then (mantissa <<< exponent.toNat, 1) else (mantissa, 1 <<< (-exponent).toNat)

namespace Format

/-- The value of the format nearest to `num / den`, which is infinite past the largest one. -/
def roundBy (f : Format) (tie : Tie) (negative : Bool) (num den : Nat) : Binary :=
  if num = 0 then .finite negative 0 f.leastExponent
  else
    let least := leadingExponent num den - (f.precision - 1 : Nat)
    let (m, e) := mantissaAt f.precision tie num den (max f.leastExponent least)
    if f.greatestExponent < e then .infinite negative else .finite negative m e

/-- The nearest value, a tie going to the even mantissa. -/
def round (f : Format) (negative : Bool) (num den : Nat) : Binary :=
  f.roundBy .even negative num den

def zero (f : Format) (negative : Bool) : Binary := .finite negative 0 f.leastExponent

def ofNat (f : Format) (n : Nat) : Binary := f.round false n 1

def ofInt (f : Format) (n : Int) : Binary := f.round (n < 0) n.natAbs 1

/-- The power of ten with the given exponent: a power of `10 ^ 10`, known to 62 binary digits, times
an exact one.  The product is rounded, a tie going up; so `10 ^ 23`, which lies halfway between two
doubles, is the greater of them.  Past every format's range the power is infinite, or zero, and its
digits are not computed. -/
def powerOfTen (f : Format) (e : Int) : Binary :=
  if 400 < e then .infinite false
  else if e < -400 then f.zero false
  else
    let (t, t') := tens (10 * (e / 10))
    let (m, k) := significant 62 t t'
    let (n, d) := quotient (m * Nat.pow 10 (e % 10).toNat) k
    f.roundBy .up false n d

end Format

/-- A finite value as an integer numerator over a positive denominator. -/
def signedQuotient (negative : Bool) (mantissa : Nat) (exponent : Int) : Int × Nat :=
  let (n, d) := quotient mantissa exponent
  (if negative then -(n : Int) else n, d)

def isNaN : Binary → Bool
  | nan => true
  | _ => false

def isZero : Binary → Bool
  | finite _ m _ => m = 0
  | _ => false

/-- Strictly below zero. -/
def isNegative : Binary → Bool
  | finite s m _ => s && m != 0
  | infinite s => s
  | nan => false

/-- Whether the value is a whole number.  Infinities are not. -/
def isWhole : Binary → Bool
  | finite _ m e => 0 ≤ e || m % (1 <<< (-e).toNat) = 0
  | _ => false

def neg : Binary → Binary
  | finite s m e => finite (!s) m e
  | infinite s => infinite (!s)
  | nan => nan

def abs : Binary → Binary
  | finite _ m e => finite false m e
  | infinite _ => infinite false
  | nan => nan

/-- Numeric equality: zeros of both signs are equal and what is no number equals nothing. -/
def same : Binary → Binary → Bool
  | finite s m e, finite s' m' e' =>
    let (n, d) := signedQuotient s m e
    let (n', d') := signedQuotient s' m' e'
    n * d' = n' * d
  | infinite s, infinite s' => s = s'
  | _, _ => false

instance : BEq Binary := ⟨same⟩

/-- Numeric order; what is no number is not below anything. -/
def below : Binary → Binary → Bool
  | finite s m e, finite s' m' e' =>
    let (n, d) := signedQuotient s m e
    let (n', d') := signedQuotient s' m' e'
    n * d' < n' * d
  | finite _ _ _, infinite s => !s
  | infinite s, finite _ _ _ => s
  | infinite s, infinite s' => s && !s'
  | _, _ => false

/-- The same value in another format. -/
def toFormat (f : Format) : Binary → Binary
  | finite s m e => let (n, d) := quotient m e; f.round s n d
  | infinite s => infinite s
  | nan => nan

def mul (f : Format) : Binary → Binary → Binary
  | finite s m e, finite s' m' e' => let (n, d) := quotient (m * m') (e + e'); f.round (s != s') n d
  | finite s m _, infinite s' => if m = 0 then nan else infinite (s != s')
  | infinite s, finite s' m _ => if m = 0 then nan else infinite (s != s')
  | infinite s, infinite s' => infinite (s != s')
  | _, _ => nan

def div (f : Format) : Binary → Binary → Binary
  | finite s m e, finite s' m' e' =>
    if m' = 0 then if m = 0 then nan else infinite (s != s')
    else
      let (n, d) := quotient m e
      let (n', d') := quotient m' e'
      f.round (s != s') (n * d') (d * n')
  | finite s _ _, infinite s' => f.zero (s != s')
  | infinite s, finite s' _ _ => infinite (s != s')
  | _, _ => nan

def add (f : Format) : Binary → Binary → Binary
  | finite s m e, finite s' m' e' =>
    let (n, d) := signedQuotient s m e
    let (n', d') := signedQuotient s' m' e'
    let sum := n * d' + n' * d
    if sum = 0 then f.zero (s && s') else f.round (sum < 0) sum.natAbs (d * d')
  | infinite s, infinite s' => if s = s' then infinite s else nan
  | infinite s, finite _ _ _ => infinite s
  | finite _ _ _, infinite s => infinite s
  | _, _ => nan

/-- The bits that stand for a single-precision value in memory, if it is a number. -/
def singleBits? : Binary → Option Nat
  | finite s m e =>
    let sign := if s then 1 <<< 31 else 0
    let hidden := 1 <<< 23
    if m < hidden then some (sign + m)
    else some (sign + (e + 150).toNat * hidden + (m - hidden))
  | infinite s => some ((if s then 1 <<< 31 else 0) + 255 <<< 23)
  | nan => none

end Binary

/-- The numbers of a style sheet. -/
abbrev Single := Binary

namespace Single

def ofNat (n : Nat) : Single := Binary.Format.single.ofNat n

def ofInt (n : Int) : Single := Binary.Format.single.ofInt n

def zero : Single := Binary.Format.single.zero false

def one : Single := ofNat 1

def mul (a b : Single) : Single := Binary.mul .single a b

def div (a b : Single) : Single := Binary.div .single a b

end Single

end StyleGrammar
