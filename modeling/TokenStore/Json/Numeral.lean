import TokenStore.Json.Number

/-!
# Numerals of JSON documents

A numeral is a number as it is spelled. Whether it is an integer is decided by the spelling: a
point or an exponent makes a double, and so do a negative zero and what no 64-bit word holds.

Readers of text here answer what they read together with the rest of the text, or nothing.

## Main definitions

* `Numeral.read?`: takes a numeral from the start of a text.
* `Numeral.number?`: the number it spells; none if that is beyond the doubles.
-/

namespace TokenStore

/-- A number as it is spelled. `fraction` is empty if there is no point. -/
structure Numeral where
  negative : Bool := false
  whole : List Char
  fraction : List Char := []
  exponent : Option Int := none

namespace Numeral

/-! ### Spelling -/

/-- All digits at the start of a text, at least one. -/
def readDigits? (cs : List Char) : Option (List Char × List Char) :=
  if (cs.takeWhile Char.isDigit).isEmpty then none
  else some (cs.takeWhile Char.isDigit, cs.dropWhile Char.isDigit)

/-- A minus sign, if there is one. -/
def readMinus : List Char → Bool × List Char
  | '-' :: rest => (true, rest)
  | cs => (false, cs)

/-- The digits before the point. A zero stands alone. -/
def readWhole? : List Char → Option (List Char × List Char)
  | '0' :: rest => some (['0'], rest)
  | cs => readDigits? cs

/-- A point with the digits behind it, if there is one. -/
def readFraction? : List Char → Option (List Char × List Char)
  | '.' :: rest => readDigits? rest
  | cs => some ([], cs)

/-- The sign of an exponent, which may also be left out. -/
def readSign : List Char → Bool × List Char
  | '+' :: rest => (false, rest)
  | cs => readMinus cs

/-- An exponent, if there is one. -/
def readExponent? : List Char → Option (Option Int × List Char)
  | [] => some (none, [])
  | c :: rest =>
    if c = 'e' ∨ c = 'E' then do
      let sign := readSign rest
      let (digits, rest) ← readDigits? sign.2
      let size : Int := Nat.ofDigitChars 10 digits 0
      return (some (if sign.1 then -size else size), rest)
    else
      some (none, c :: rest)

def read? (cs : List Char) : Option (Numeral × List Char) := do
  let sign := readMinus cs
  let (whole, rest) ← readWhole? sign.2
  let (fraction, rest) ← readFraction? rest
  let (exponent, rest) ← readExponent? rest
  return ({ negative := sign.1, whole, fraction, exponent }, rest)

theorem length_of_readDigits? {cs digits rest : List Char}
    (h : readDigits? cs = some (digits, rest)) : rest.length < cs.length := by
  unfold readDigits? at h
  split at h
  next => cases h
  next hsome =>
    cases h
    have hsum := congrArg List.length (@List.takeWhile_append_dropWhile _ Char.isDigit cs)
    rw [List.isEmpty_iff, ← List.length_eq_zero_iff] at hsome
    rw [List.length_append] at hsum
    omega

theorem length_readMinus (cs : List Char) : (readMinus cs).2.length ≤ cs.length := by
  unfold readMinus; split <;> simp

theorem length_readSign (cs : List Char) : (readSign cs).2.length ≤ cs.length := by
  unfold readSign
  split
  next => exact Nat.le_succ _
  next => exact length_readMinus _

theorem length_of_readWhole? {cs digits rest : List Char}
    (h : readWhole? cs = some (digits, rest)) : rest.length < cs.length := by
  unfold readWhole? at h
  split at h
  next =>
    cases h
    exact Nat.lt_succ_self _
  next => exact length_of_readDigits? h

theorem length_of_readFraction? {cs digits rest : List Char}
    (h : readFraction? cs = some (digits, rest)) : rest.length ≤ cs.length := by
  unfold readFraction? at h
  split at h
  next => exact Nat.le_succ_of_le (Nat.le_of_lt (length_of_readDigits? h))
  next =>
    cases h
    exact Nat.le_refl _

theorem length_of_readExponent? {cs rest : List Char} {exponent : Option Int}
    (h : readExponent? cs = some (exponent, rest)) : rest.length ≤ cs.length := by
  unfold readExponent? at h
  split at h
  next =>
    cases h
    exact Nat.le_refl _
  next c tail =>
    split at h
    next =>
      obtain ⟨⟨digits, behind⟩, hdigits, hr⟩ := Option.bind_eq_some_iff.mp h
      cases hr
      have hsign := length_readSign tail
      have hbehind := length_of_readDigits? hdigits
      rw [List.length_cons]
      omega
    next =>
      cases h
      exact Nat.le_refl _

theorem length_of_read? {cs rest : List Char} {n : Numeral} (h : read? cs = some (n, rest)) :
    rest.length < cs.length := by
  obtain ⟨⟨whole, _⟩, hwhole, h⟩ := Option.bind_eq_some_iff.mp h
  obtain ⟨⟨fraction, _⟩, hfraction, h⟩ := Option.bind_eq_some_iff.mp h
  obtain ⟨⟨exponent, _⟩, hexponent, h⟩ := Option.bind_eq_some_iff.mp h
  cases h
  calc
    rest.length ≤ _ := length_of_readExponent? hexponent
    _ ≤ _ := length_of_readFraction? hfraction
    _ < (readMinus cs).2.length := length_of_readWhole? hwhole
    _ ≤ cs.length := length_readMinus cs

/-! ### Value -/

/-- Takes up digits behind a number as long as it stays within a 64-bit word. Answers the number
and the digits that were not taken up. -/
def absorb (n : Nat) : List Char → Nat × List Char
  | [] => (n, [])
  | c :: cs =>
    let next := Nat.ofDigitChars 10 [c] n
    if next ≤ 0xffffffffffffffff then absorb next cs else (n, c :: cs)

/-- The integer that the numeral spells, if it is spelled like one and fits a word. -/
def wideInt? (n : Numeral) : Option WideInt :=
  let size : Int := Nat.ofDigitChars 10 n.whole 0
  if n.fraction.isEmpty && n.exponent.isNone && !(n.negative && size = 0) then
    WideInt.ofInt? (if n.negative then -size else size)
  else
    none

/-- The double that the numeral spells. Digits are taken up while they fit a word; of the others,
those before the point count as zeros. -/
def double? (n : Numeral) : Option Decimal.Binary64 :=
  let (digits, whole) := absorb 0 n.whole
  let (digits, fraction) := absorb digits n.fraction
  let places : Int := n.fraction.length - fraction.length
  Decimal.Binary64.ofScaled n.negative digits (whole.length - places + n.exponent.getD 0)

def number? (n : Numeral) : Option Number :=
  match n.wideInt? with
  | some value => some (.int value)
  | none => n.double?.map .float

end Numeral

end TokenStore
