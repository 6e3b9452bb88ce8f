import TokenStore.Text.Bytes
import TokenStore.Tree.Basic

/-!
# Compact text

One line for a whole tree, such as `(<61.62> s-0x5 (u0x7) user:64)`. Kinds are told apart by how
they start, so that nothing but what was cut is lost.
-/

namespace TokenStore

namespace Tree

/-- Signed integers start with `s`, then the sign. -/
def compactSint (value : Int64) : String :=
  if value.toInt < 0 then "s-0x" ++ Text.hex value.toInt.natAbs
  else "s0x" ++ Text.hex value.toInt.natAbs

def compactUint (value : UInt64) : String := "u0x" ++ Text.hex value.toNat

mutual

/-- Writes a tree behind `out`. -/
def writeCompact (out : String) : Tree Unit → String
  | .bytes data => out ++ Text.dotted data
  | .sint value => out ++ compactSint value
  | .uint value => out ++ compactUint value
  | .user tag => out ++ "user:" ++ toString tag.code.toNat
  | .seq [] => out ++ "()"
  | .seq (t :: ts) => (writeCompactMore (writeCompact (out.push '(') t) ts).push ')'
  | .cut _ => out ++ "..."

/-- Writes further members of a sequence, each after a space. -/
def writeCompactMore (out : String) : List (Tree Unit) → String
  | [] => out
  | t :: ts => writeCompactMore (writeCompact (out.push ' ') t) ts

end

def compact (t : Tree Unit) : String := writeCompact "" t

end Tree

end TokenStore
