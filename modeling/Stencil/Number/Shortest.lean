import Stencil.Number.Double

/-!
The shortest decimal that reads back as a given double, and its layout as text.
-/

namespace Stencil.Number

structure Decimal where
  digits : Nat
  place : Int
  deriving DecidableEq, Repr

/-- A double and the ends of the interval that rounds to it, as multiples of `1 / den`. -/
structure Rounding where
  low : Nat
  exact : Nat
  high : Nat
  den : Nat
  closed : Bool
  deriving DecidableEq, Repr

namespace Rounding

/-- The interval around a double: half way to each neighbour, its ends included when the mantissa
is even. -/
def ofMagnitude (x : Magnitude) : Rounding :=
  let below := if x.mantissa = Nat.pow 2 52 ∧ 0 < x.scale then 1 else 2
  { low := (4 * x.mantissa - below) * Nat.pow 2 x.scale
    exact := 4 * x.mantissa * Nat.pow 2 x.scale
    high := (4 * x.mantissa + 2) * Nat.pow 2 x.scale
    den := Nat.pow 2 1076
    closed := x.mantissa % 2 = 0 }

def inPlace (r : Rounding) : Int → Rounding
  | .ofNat n => { r with den := r.den * Nat.pow 10 n }
  | .negSucc n =>
      let factor := Nat.pow 10 (n + 1)
      { r with low := r.low * factor, exact := r.exact * factor, high := r.high * factor }

def contains (r : Rounding) (k : Nat) : Bool :=
  let value := k * r.den
  if r.closed then r.low ≤ value && value ≤ r.high else r.low < value && value < r.high

def whole? (r : Rounding) : Option Nat :=
  let floor := r.exact / r.den
  match r.contains floor, r.contains (floor + 1) with
  | true, true => some (divideToEven r.exact r.den)
  | true, false => some floor
  | false, true => some (floor + 1)
  | false, false => none

def leadingPlace (r : Rounding) : Int :=
  (((Nat.toDigits 10 (r.exact * Nat.pow 10 400 / r.den)).length : Nat) : Int) - 401

end Rounding

/-- The decimal with the fewest digits that rounds to `x`, and of those the nearest. -/
def shortest (x : Magnitude) : Decimal :=
  let rounding := Rounding.ofMagnitude x
  let leading := rounding.leadingPlace
  let found := (List.range 17).findSome? fun (n : Nat) =>
    let place := leading - (n : Int)
    (rounding.inPlace place).whole?.map fun digits => Decimal.mk digits place
  found.getD ⟨0, 0⟩

structure Layout where
  /-- The least decimal exponent that is written positionally. -/
  leastPositional : Int
  /-- The least decimal exponent from there on that is written in scientific form. -/
  leastScientific : Int

namespace Layout

def significant (x : Decimal) : List Char :=
  ((Nat.toDigits 10 x.digits).reverse.dropWhile (· = '0')).reverse

def positional (digits : List Char) : Int → List Char
  | .negSucc n => ['0', '.'] ++ List.replicate n '0' ++ digits
  | .ofNat n =>
      let whole := digits.take (n + 1)
      let fraction := digits.drop (n + 1)
      whole ++ List.replicate (n + 1 - whole.length) '0' ++ ['.'] ++
        (if fraction.isEmpty then ['0'] else fraction)

def scientific (digits : List Char) (exponent : Int) : List Char :=
  let fraction := digits.drop 1
  digits.take 1 ++ (if fraction.isEmpty then [] else '.' :: fraction) ++
    ['e', if exponent < 0 then '-' else '+'] ++ Nat.toDigits 10 exponent.natAbs

def write (layout : Layout) (x : Double) : String :=
  let text :=
    if x.magnitude.mantissa = 0 then ['0', '.', '0']
    else
      let decimal := shortest x.magnitude
      let exponent := decimal.place + (Nat.toDigits 10 decimal.digits).length - 1
      if layout.leastPositional ≤ exponent ∧ exponent < layout.leastScientific then
        positional (significant decimal) exponent
      else scientific (significant decimal) exponent
  String.ofList (if x.negative then '-' :: text else text)

end Layout

end Stencil.Number
