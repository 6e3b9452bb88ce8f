import TokenStore.Decimal.Shortest

/-!
# Numbers of JSON documents

A number is an integer if a signed or an unsigned 64-bit word can hold it, and a double otherwise.

## Main definitions

* `WideInt`: the integers of signed and of unsigned words together.
* `Number`, and `Number.text` to write it.
-/

namespace TokenStore

/-- An integer that a signed or an unsigned 64-bit word can hold. -/
structure WideInt where
  val : Int
  lower : -9223372036854775808 ≤ val
  upper : val < 18446744073709551616
  deriving DecidableEq

namespace WideInt

def ofInt? (n : Int) : Option WideInt :=
  if h : -9223372036854775808 ≤ n ∧ n < 18446744073709551616 then some ⟨n, h.1, h.2⟩ else none

def ofInt64 (n : Int64) : WideInt where
  val := n.toInt
  lower := by have := Int64.le_toInt n; omega
  upper := by have := Int64.toInt_lt n; omega

def ofUInt64 (n : UInt64) : WideInt where
  val := n.toNat
  lower := by omega
  upper := by have := UInt64.toNat_lt n; omega

def ofByte (n : UInt8) : WideInt where
  val := n.toNat
  lower := by omega
  upper := by have := UInt8.toNat_lt n; omega

def ofTag (n : UInt32) : WideInt where
  val := n.toNat
  lower := by omega
  upper := by have := UInt32.toNat_lt n; omega

def toInt64? (n : WideInt) : Option Int64 :=
  if n.val < 9223372036854775808 then some (Int64.ofInt n.val) else none

def toUInt64? (n : WideInt) : Option UInt64 :=
  if 0 ≤ n.val then some (UInt64.ofNat n.val.toNat) else none

end WideInt

inductive Number where
  | int (value : WideInt)
  | float (value : Decimal.Binary64)
  deriving DecidableEq

namespace Number

/-- Doubles are written positionally while their first digit stands five places behind the point to
sixteen before it. -/
def layout : Decimal.Layout := ⟨-5, 15⟩

def text : Number → String
  | int value => toString value.val
  | float value => layout.text value

def toInt64? : Number → Option Int64
  | int value => value.toInt64?
  | float _ => none

def toUInt64? : Number → Option UInt64
  | int value => value.toUInt64?
  | float _ => none

end Number

end TokenStore
