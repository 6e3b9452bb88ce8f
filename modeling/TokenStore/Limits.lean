/-!
# Fixed limits

The numbers that the rest of the library agrees on.
-/

namespace TokenStore

/-- Spaces per level of the indented rendering, unless asked otherwise. -/
def defaultIndent : Nat := 2

/-- How deep a tree is rendered, exported and imported; the root is at depth 0. -/
def maxDepth : Nat := 256

/-- Elements that every sequence has room for from the start. -/
def minCapacity : Nat := 4

/-- The last position in a pool that can be told. -/
def maxPoolSize : Nat := 0xffffffffffffffff

/-- The most bytes that room can be set aside for in one piece. -/
def maxBlock : Nat := 0x7fffffffffffffff

/-- The most elements that room can be set aside for. A handle takes eight bytes. -/
def maxCapacity : Nat := maxBlock / 8

end TokenStore
