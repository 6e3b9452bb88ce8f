import TokenStore.Decimal.Binary64

/-!
# Shortest decimals

The decimal with the fewest digits that lies nearer to a double than to any other, and of several
such the nearest. Decimals with a last digit at a given place form a grid; the grids are tried from
the coarsest on, and on each it is enough to look at the two neighbours of the number.

## Main definitions

* `Decimal.shortest`: digits and exponent of the shortest decimal.
* `Layout`: where positional notation ends, and `Layout.text` to write a decimal.
-/

namespace TokenStore.Decimal

/-- The positive number `digits * 10 ^ exponent`. -/
structure Scaled where
  digits : Nat
  exponent : Int

namespace Binary64

/-- Whether reading the number `y` gives the magnitude of `x` back. The numbers halfway to a
neighbour belong to the even one of the two; the neighbour below a power of two is only half as far
away. -/
def ownsAbs (x : Binary64) (y : Fraction) : Bool :=
  let quarters := 4 * x.significand
  let narrow := x.significand = normalWord ∧ -1074 < x.exponent
  let unit := x.exponent - 2
  let low := (Fraction.ofNat (quarters - if narrow then 1 else 2)).scale 2 unit
  let high := (Fraction.ofNat (quarters + 2)).scale 2 unit
  if x.significand % 2 = 0 then low.le y && y.le high else low.lt y && y.lt high

/-- The better neighbour of `x` with a last digit at place `place` that reads back, if one does. -/
def onGrid? (x : Binary64) (place : Int) : Option Scaled :=
  let scaled := x.abs.scale 10 (-place)
  let nearer := scaled.round
  let other := if nearer = scaled.floor then nearer + 1 else nearer - 1
  [nearer, other].find? (fun n => x.ownsAbs ((Fraction.ofNat n).scale 10 place))
    |>.map (Scaled.mk · place)

/-- The shortest decimal of a magnitude; zero has none. Seventeen digits always suffice. -/
def shortest (x : Binary64) : Option Scaled :=
  if x.isZero then none
  else
    let first := x.abs.log10
    (List.range 18).findSome? fun (n : Nat) => x.onGrid? (first - n)

end Binary64

/-- Numbers whose first digit has an exponent from `least` to `most` are written positionally,
others with an exponent. -/
structure Layout where
  least : Int
  most : Int

namespace Layout

/-- The digits with the point behind the first one, and the exponent. -/
def scientific (digits : List Char) (exponent : Int) : List Char :=
  let mark := if exponent < 0 then ['e', '-'] else ['e', '+']
  digits.take 1 ++ (if digits.length ≤ 1 then [] else '.' :: digits.drop 1) ++ mark
    ++ Nat.toDigits 10 exponent.natAbs

/-- The digits with the point in its place, and at least one digit on either side of it. -/
def positional (digits : List Char) (exponent : Int) : List Char :=
  if exponent < 0 then
    ['0', '.'] ++ List.replicate (exponent.natAbs - 1) '0' ++ digits
  else
    let whole := exponent.toNat + 1
    let behind := digits.drop whole
    digits.take whole ++ List.replicate (whole - digits.length) '0' ++ ['.']
      ++ (if behind.isEmpty then ['0'] else behind)

def digitsText (l : Layout) (d : Scaled) : List Char :=
  let digits := Nat.toDigits 10 d.digits
  let exponent := d.exponent + digits.length - 1
  let digits := (digits.reverse.dropWhile (· = '0')).reverse
  if l.least ≤ exponent ∧ exponent ≤ l.most then positional digits exponent
  else scientific digits exponent

/-- A double as its shortest decimal, the sign of zero included. -/
def text (l : Layout) (x : Binary64) : String :=
  let sign := if x.negative then ['-'] else []
  match x.shortest with
  | some d => String.ofList (sign ++ l.digitsText d)
  | none => String.ofList (sign ++ ['0', '.', '0'])

end Layout

end TokenStore.Decimal
