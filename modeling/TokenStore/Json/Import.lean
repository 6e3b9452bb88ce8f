import TokenStore.Arena.Sequence
import TokenStore.Json.Basic
import TokenStore.Text.Visible

/-!
# Importing documents

A document becomes tokens: an array a sequence, a string its bytes, a number an unsigned integer if
it is not negative and a signed one otherwise. An object is only there to choose the kind of a
number: `sint` and `uint` are its only keys.

Tokens are allocated in the order of the document, a sequence before its elements. A document that
is refused leaves the tokens that were made before the fault was met.

## Main definitions

* `ImportFault`, and `ImportFault.message`.
* `Arena.addJson`.
-/

namespace TokenStore

/-- Why a value cannot be imported. -/
inductive ImportFault where
  | tooDeep
  | notInteger (n : Decimal.Binary64)
  | notSigned (n : Number)
  | notUnsigned (n : Number)
  | unsupportedKey (key : String)
  | keyCount
  | boolean
  | null
  deriving DecidableEq

namespace ImportFault

def message : ImportFault → String
  | tooDeep => s!"nesting deeper than {maxDepth}"
  | notInteger n => "non-integer number " ++ (Number.float n).text
  | notSigned n => n.text ++ " does not fit a signed token"
  | notUnsigned n => n.text ++ " does not fit an unsigned token"
  | unsupportedKey key => "unsupported object key " ++ Text.visible key
  | keyCount => "objects must have exactly one key"
  | boolean => "booleans have no token kind"
  | null => "null has no token kind"

def failure (f : ImportFault) : Failure :=
  .error { direction := .importing, message := f.message }

end ImportFault

namespace Failure

/-- Moves an error about the data below element `index`. Other failures have no path. -/
def below (f : Failure) (index : Nat) : Failure :=
  match f with
  | .error e => .error (e.below index)
  | f => f

end Failure

namespace Arena

/-- Imports an integer: unsigned if it is not negative, signed otherwise. -/
def addNumber (a : Arena) : Number → Except ImportFault Handle × Arena
  | .float value => (.error (.notInteger value), a)
  | .int value =>
    match value.toUInt64? with
    | some n => let (h, a) := a.addUint n; (.ok h, a)
    | none => let (h, a) := a.addSint (Int64.ofInt value.val); (.ok h, a)

/-- Imports an object with one member. -/
def addMember (a : Arena) (key : String) (value : Json) : Except ImportFault Handle × Arena :=
  match value with
  | .num n =>
    if key = "sint" then
      match n.toInt64? with
      | some n => let (h, a) := a.addSint n; (.ok h, a)
      | none => (.error (.notSigned n), a)
    else if key = "uint" then
      match n.toUInt64? with
      | some n => let (h, a) := a.addUint n; (.ok h, a)
      | none => (.error (.notUnsigned n), a)
    else
      (.error (.unsupportedKey key), a)
  | _ => (.error (.unsupportedKey key), a)

/-- Imports a value that is no array. -/
def addScalar (a : Arena) : Json → Except ImportFault Handle × Arena
  | .str s => let (h, a) := a.addBytes s.toUTF8.data.toList; (.ok h, a)
  | .num n => a.addNumber n
  | .obj [(key, value)] => a.addMember key value
  | .bool _ => (.error .boolean, a)
  | .null => (.error .null, a)
  | _ => (.error .keyCount, a)

mutual

/-- Imports a value that stands at `depth`. -/
def addValue (a : Arena) (depth : Nat) (v : Json) : Except Failure Handle × Arena :=
  if maxDepth < depth then
    (.error ImportFault.tooDeep.failure, a)
  else
    match v with
    | .arr items =>
      -- there is room for a handle of each item, since the items themselves take more
      let (seq, a) := a.addList (Elements.withCapacity items.length)
      match addItems a (depth + 1) seq 0 items with
      | (.ok _, a) => (.ok seq, a)
      | (.error e, a) => (.error e, a)
    | v =>
      match a.addScalar v with
      | (.ok h, a) => (.ok h, a)
      | (.error f, a) => (.error f.failure, a)

/-- Imports the items of an array from number `index` on, and adds each to `seq` once it is
complete. -/
def addItems (a : Arena) (depth : Nat) (seq : Handle) (index : Nat) :
    List Json → Except Failure Unit × Arena
  | [] => (.ok (), a)
  | v :: vs =>
    match addValue a depth v with
    | (.ok h, a) =>
      match a.push seq h with
      | (.ok _, a) => addItems a depth seq (index + 1) vs
      | (.error e, a) => (.error e, a)
    | (.error e, a) => (.error (e.below index), a)

end

/-- Imports a document. -/
def addJson (a : Arena) (v : Json) : Except Failure Handle × Arena :=
  a.addValue 0 v

end Arena

end TokenStore
