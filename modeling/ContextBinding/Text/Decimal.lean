/-!
# Shortest decimals

A binary floating-point number is written with the fewest decimal digits that still lie nearer to it
than to its neighbours, and always positionally: no exponent, and no point in a whole number.
-/

namespace ContextBinding.Text

/-- A positive number with the interval of reals that round to it. All three are multiples of
`1 / unit`, and `closed` tells whether the ends of the interval belong to it. -/
structure Rounding where
  low : Nat
  value : Nat
  high : Nat
  unit : Nat
  closed : Bool
  deriving DecidableEq, Repr

namespace Rounding

/-- The rounding interval of `mantissa * 2 ^ exponent`. Below a power of two the neighbours stand
twice as close, except below the least normal one. -/
def ofBinary (mantissa : Nat) (exponent : Int) (closeBelow : Bool) : Rounding :=
  let shift := 1 <<< (exponent - 2).toNat
  { low := (4 * mantissa - if closeBelow then 1 else 2) * shift
    value := 4 * mantissa * shift
    high := (4 * mantissa + 2) * shift
    unit := 1 <<< (2 - exponent).toNat
    closed := mantissa % 2 == 0 }

/-- The number of digits ahead of the point; for a number below one tenth, less than zero by the
number of zeros right after the point. -/
def pointPosition (r : Rounding) : Int :=
  if r.unit ≤ r.value then ((Nat.toDigits 10 (r.value / r.unit)).length : Int)
  else 1 - ((Nat.toDigits 10 ((r.unit - 1) / r.value)).length : Int)

/-- Whether a multiple of `1 / unit` lies in the interval scaled by `scale`. -/
def holds (r : Rounding) (scale x : Nat) : Bool :=
  if r.closed then r.low * scale ≤ x && x ≤ r.high * scale
  else r.low * scale < x && x < r.high * scale

/-- The multiple of `10 ^ place` in the interval that is nearest to the number, the greater one of
two that are equally near. The multiplier is returned. -/
def onGrid? (r : Rounding) (place : Int) : Option Nat :=
  let scale := Nat.pow 10 (-place).toNat
  let step := r.unit * Nat.pow 10 place.toNat
  let below := r.value * scale / step
  let rest := r.value * scale - below * step
  let lowFits := r.holds scale (below * step)
  let highFits := r.holds scale ((below + 1) * step)
  if lowFits && (!highFits || rest * 2 < step) then some below
  else if highFits then some (below + 1)
  else none

/-- Try grids of more and more digits, ahead of the place `10 ^ point`. -/
def firstGrid (r : Rounding) (point : Int) : Nat → Nat → Nat × Int
  | 0, digits => (r.value / r.unit, point - digits)
  | fuel + 1, digits =>
    match r.onGrid? (point - digits) with
    | some n => (n, point - digits)
    | none => firstGrid r point fuel (digits + 1)

/-- A multiplier and a power of ten that give the shortest decimal in the interval. Seventeen digits
always suffice. -/
def shortest (r : Rounding) : Nat × Int := r.firstGrid r.pointPosition 17 1

end Rounding

/-- Drop the zeros that end a digit list, which is given backwards. -/
def dropTrailingZeros : List Char → Int → List Char × Int
  | '0' :: rest, place => dropTrailingZeros rest (place + 1)
  | digits, place => (digits, place)

/-- The positional text of `n * 10 ^ place`. -/
def positional (n : Nat) (place : Int) : String :=
  let (backwards, place) := dropTrailingZeros (Nat.toDigits 10 n).reverse place
  let digits := backwards.reverse
  let point := (digits.length : Int) + place
  if point ≤ 0 then
    String.ofList (['0', '.'] ++ List.replicate (-point).toNat '0' ++ digits)
  else if 0 ≤ place then
    String.ofList (digits ++ List.replicate place.toNat '0')
  else
    String.ofList (digits.take point.toNat ++ ['.'] ++ digits.drop point.toNat)

/-- The text of a double-precision number, given by its bits. -/
def doubleText (bits : UInt64) : String :=
  let word := bits.toNat
  let fraction := word % (1 <<< 52)
  let exponent := word / (1 <<< 52) % 2048
  let sign := if 1 <<< 63 ≤ word then "-" else ""
  if exponent = 2047 then
    if fraction = 0 then sign ++ "inf" else "NaN"
  else if exponent = 0 then
    if fraction = 0 then sign ++ "0"
    else
      let (n, place) := (Rounding.ofBinary fraction (-1074) false).shortest
      sign ++ positional n place
  else
    let (n, place) :=
      (Rounding.ofBinary ((1 <<< 52) + fraction) ((exponent : Int) - 1075)
        (fraction == 0 && 1 < exponent)).shortest
    sign ++ positional n place

end ContextBinding.Text
