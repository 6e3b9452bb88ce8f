import TokenStore.Json.Writer
import TokenStore.Tree.Basic

/-!
# Trees as documents

A sequence is an array, an integer a number, a byte string a string if it is UTF-8 and the array of
its bytes if not. Of an application's value only the tag is shown. The text is written from the tree
directly, without a document in between.

## Main definitions

* `Tree.toJson`: the document of a tree.
* `Tree.jsonText`: its compact text.
-/

namespace TokenStore

namespace Tree

/-- The text that a byte string encodes, if it is UTF-8. -/
def utf8? (data : List UInt8) : Option String := String.fromUTF8? ⟨data.toArray⟩

mutual

def toJson : Tree Empty → Json
  | .bytes data =>
    match utf8? data with
    | some s => .str s
    | none => .ofBytes data
  | .sint value => .num (.int (.ofInt64 value))
  | .uint value => .num (.int (.ofUInt64 value))
  | .user tag => .obj [("user", .num (.int (.ofTag tag.code)))]
  | .seq children => .arr (toJsonAll children)
  | .cut stub => nomatch stub

def toJsonAll : List (Tree Empty) → List Json
  | [] => []
  | t :: ts => toJson t :: toJsonAll ts

end

/-- Bytes as numbers, with commas between them. -/
def byteNumbers (data : List UInt8) : String :=
  ",".intercalate (data.map fun b => toString b.toNat)

mutual

/-- Writes the text of a tree behind `out`. -/
def writeJson (out : String) : Tree Empty → String
  | .bytes data =>
    match utf8? data with
    | some s => out ++ Json.quoted s
    | none => out ++ "[" ++ byteNumbers data ++ "]"
  | .sint value => out ++ toString value.toInt
  | .uint value => out ++ toString value.toNat
  | .user tag => out ++ "\x7b\"user\":" ++ toString tag.code.toNat ++ "\x7d"
  | .seq [] => out ++ "[]"
  | .seq (t :: ts) => (writeJsonMore (writeJson (out.push '[') t) ts).push ']'
  | .cut stub => nomatch stub

/-- Writes further elements of a sequence, each after a comma. -/
def writeJsonMore (out : String) : List (Tree Empty) → String
  | [] => out
  | t :: ts => writeJsonMore (writeJson (out.push ',') t) ts

end

/-- The compact text of the document of a tree. -/
def jsonText (t : Tree Empty) : String := writeJson "" t

end Tree

end TokenStore
