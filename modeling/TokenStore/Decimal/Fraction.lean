/-!
# Fractions

Non-negative fractions of natural numbers, for exact comparison and rounding. Nothing is reduced.
-/

namespace TokenStore.Decimal

/-- The number `num / den`, where `den` is not zero. -/
structure Fraction where
  num : Nat
  den : Nat

namespace Fraction

def ofNat (n : Nat) : Fraction := ⟨n, 1⟩

def mul (x y : Fraction) : Fraction := ⟨x.num * y.num, x.den * y.den⟩

def div (x y : Fraction) : Fraction := ⟨x.num * y.den, x.den * y.num⟩

/-- `x` times the power of `base` with the exponent `e`. -/
def scale (x : Fraction) (base : Nat) (e : Int) : Fraction :=
  if 0 ≤ e then ⟨x.num * Nat.pow base e.toNat, x.den⟩
  else ⟨x.num, x.den * Nat.pow base e.natAbs⟩

def lt (x y : Fraction) : Bool := x.num * y.den < y.num * x.den

def le (x y : Fraction) : Bool := x.num * y.den ≤ y.num * x.den

def floor (x : Fraction) : Nat := x.num / x.den

/-- The nearest natural number; halfway between two, the even one. -/
def round (x : Fraction) : Nat :=
  let below := x.floor
  let twice := 2 * (x.num % x.den)
  if twice < x.den then below
  else if x.den < twice then below + 1
  else below + below % 2

/-- How many decimal digits a number has. -/
def digitCount (n : Nat) : Nat := (Nat.toDigits 10 n).length

/-- The exponent of the greatest power of two that is not above `x`, which is not zero. -/
def log2 (x : Fraction) : Int :=
  let guess : Int := x.num.log2 - x.den.log2
  if ((ofNat 1).scale 2 guess).le x then guess else guess - 1

/-- The exponent of the greatest power of ten that is not above `x`, which is not zero. -/
def log10 (x : Fraction) : Int :=
  if x.den ≤ x.num then digitCount x.floor - 1
  else - digitCount ((x.den - 1) / x.num)

end Fraction

end TokenStore.Decimal
