/-!
Finite double-precision numbers in exact arithmetic, rounded to nearest with ties to even.
-/

namespace Stencil.Number

/-- The number `mantissa * 2 ^ (scale - 1074)`, with a mantissa below `2 ^ 53`. -/
structure Magnitude where
  mantissa : Nat
  scale : Nat
  deriving DecidableEq, Repr

structure Double where
  negative : Bool
  magnitude : Magnitude
  deriving DecidableEq, Repr

def divideToEven (num den : Nat) : Nat :=
  let quotient := num / den
  let twice := 2 * (num % den)
  if twice < den ∨ (twice = den ∧ quotient % 2 = 0) then quotient else quotient + 1

namespace Magnitude

def zero : Magnitude := ⟨0, 0⟩

def maxScale : Nat := 2045

/-- The double nearest to `num / den`, unless it lies past the largest finite one. -/
def nearest? (num den : Nat) : Option Magnitude :=
  let units := num * Nat.pow 2 1074
  let scale := (units / den).log2 + 1 - 53
  let mantissa := divideToEven units (den * Nat.pow 2 scale)
  let rounded : Magnitude :=
    if mantissa = Nat.pow 2 53 then ⟨Nat.pow 2 52, scale + 1⟩ else ⟨mantissa, scale⟩
  if rounded.scale ≤ maxScale then some rounded else none

def units (x : Magnitude) : Nat := x.mantissa * Nat.pow 2 x.scale

def powerOfTen (exponent : Nat) : Magnitude := (nearest? (Nat.pow 10 exponent) 1).getD zero

def times? (x y : Magnitude) : Option Magnitude :=
  nearest? (x.units * y.units) (Nat.pow 2 (2 * 1074))

def dividedBy (x y : Magnitude) : Magnitude := (nearest? x.units y.units).getD zero

def overPowerOfTen (x : Magnitude) (exponent : Nat) : Magnitude :=
  if exponent ≤ 308 then x.dividedBy (powerOfTen exponent)
  else if x.mantissa = 0 then x
  else (x.dividedBy (powerOfTen 308)).overPowerOfTen (exponent - 308)
  termination_by exponent

/-- The double for `significand * 10 ^ exponent`, rounding the significand, the power and their
product each on its own; none when it is too large. -/
def ofDecimal? (significand : Nat) (exponent : Int) : Option Magnitude := do
  let x ← nearest? significand 1
  match exponent with
  | .negSucc n => some (x.overPowerOfTen (n + 1))
  | .ofNat n =>
      if n ≤ 308 then x.times? (powerOfTen n)
      else if x.mantissa = 0 then some x
      else none

end Magnitude

end Stencil.Number
