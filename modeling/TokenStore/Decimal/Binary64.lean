import TokenStore.Decimal.Fraction

/-!
# Finite doubles

A finite number of the 64-bit binary format: a sign, and the other 63 bits as one word. The words
of the magnitudes are ordered like the magnitudes, and those from `infinityWord` on stand for none.

## Main definitions

* `Binary64`, with `Binary64.abs`, the exact magnitude.
* `Binary64.ofFraction`: the nearest double.
* `Binary64.ofScaled`: a number given by its leading digits and a power of ten.
-/

namespace TokenStore.Decimal

/-- The least word of a magnitude above 1. -/
def normalWord : Nat := 0x10000000000000

/-- The word of infinity. -/
def infinityWord : Nat := 0x7ff0000000000000

structure Binary64 where
  negative : Bool
  magnitude : Fin infinityWord
  deriving DecidableEq

namespace Binary64

/-- The integer that is scaled by a power of two. Small numbers have no leading bit of their own. -/
def significand (x : Binary64) : Nat :=
  if x.magnitude.val < normalWord then x.magnitude.val
  else normalWord + x.magnitude.val % normalWord

/-- The power of two that scales the significand. -/
def exponent (x : Binary64) : Int :=
  (max (x.magnitude.val / normalWord) 1 : Nat) - 1075

def isZero (x : Binary64) : Bool := x.magnitude.val = 0

def abs (x : Binary64) : Fraction := (Fraction.ofNat x.significand).scale 2 x.exponent

def zero (negative : Bool) : Binary64 := ⟨negative, ⟨0, by decide⟩⟩

/-- The double nearest to a fraction, the even one of two; none if that is beyond the greatest.
A significand that is rounded up to one more bit carries into the exponent by itself. -/
def ofFraction (negative : Bool) (x : Fraction) : Option Binary64 :=
  if x.num = 0 then some (zero negative)
  else
    let exponent := max (x.log2 - 52) (-1074)
    let word := (exponent + 1074).toNat * normalWord + (x.scale 2 (-exponent)).round
    if h : word < infinityWord then some ⟨negative, ⟨word, h⟩⟩ else none

/-- The double nearest to a power of ten. -/
def tenPow (n : Nat) : Option Binary64 := ofFraction false (Fraction.ofNat (Nat.pow 10 n))

def mulTenPow (x : Binary64) (n : Nat) : Option Binary64 := do
  ofFraction x.negative (x.abs.mul (← tenPow n).abs)

def divTenPow (x : Binary64) (n : Nat) : Option Binary64 := do
  ofFraction x.negative (x.abs.div (← tenPow n).abs)

/-- The greatest power of ten that a double is near to. -/
def maxTenPow : Nat := 308

/-- Divides by the greatest power of ten a number of times, as long as anything is left. -/
def divMaxTenPow (x : Binary64) : Nat → Option Binary64
  | 0 => some x
  | times + 1 =>
    if x.isZero then some x else (x.divTenPow maxTenPow).bind (·.divMaxTenPow times)

/-- Divides by a power of ten, the greatest at first while the rest is beyond it, and rounds after
each division. -/
def shiftDown (x : Binary64) (places : Nat) : Option Binary64 := do
  let times := (places - 1) / maxTenPow
  (← x.divMaxTenPow times).divTenPow (places - times * maxTenPow)

/-- Multiplies by a power of ten, rounding once. Nothing but zero survives a power beyond the
doubles. -/
def shiftUp (x : Binary64) (places : Nat) : Option Binary64 :=
  if maxTenPow < places then
    if x.isZero then some x else none
  else
    x.mulTenPow places

/-- The number `digits * 10 ^ exponent` by way of doubles: the digits become a double first, which
is then scaled by a double. None if it is beyond the greatest double. -/
def ofScaled (negative : Bool) (digits : Nat) (exponent : Int) : Option Binary64 := do
  let x ← ofFraction negative (Fraction.ofNat digits)
  if 0 ≤ exponent then x.shiftUp exponent.toNat else x.shiftDown exponent.natAbs

end Binary64

end TokenStore.Decimal
