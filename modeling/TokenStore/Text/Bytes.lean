/-!
# Byte strings in text

Two spellings of a byte string: dotted pairs of hexadecimal digits, and, where every byte is a
printable ASCII character, the characters themselves in quotes.

## Main definitions

* `Text.hex`, `Text.hexByte`, `Text.dotted`.
* `Text.isPrintable`, `Text.quotedAscii`.
-/

namespace TokenStore.Text

/-- A number in lower-case hexadecimal, without leading zeros. -/
def hex (n : Nat) : String := String.ofList (Nat.toDigits 16 n)

/-- A byte as two hexadecimal digits. -/
def hexByte (b : UInt8) : List Char :=
  [(b.toNat / 16).digitChar, (b.toNat % 16).digitChar]

/-- The bytes in angle brackets, with dots between them. -/
def dotted (data : List UInt8) : String :=
  String.ofList ('<' :: ['.'].intercalate (data.map hexByte) ++ ['>'])

/-- A character of ASCII that leaves ink, or the space. -/
def isPrintable (b : UInt8) : Bool := 0x20 ≤ b && b ≤ 0x7e

/-- Quotes and the backslash itself follow a backslash. -/
def escapeAscii (b : UInt8) : List Char :=
  let c := Char.ofNat b.toNat
  if c = '"' ∨ c = '\'' ∨ c = '\\' then ['\\', c] else [c]

/-- Printable bytes in double quotes. -/
def quotedAscii (data : List UInt8) : String :=
  String.ofList ('"' :: data.flatMap escapeAscii ++ ['"'])

end TokenStore.Text
