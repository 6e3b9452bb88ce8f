import TokenStore.Tag

/-!
# Token trees

A tree is what is to be seen of a token: the kinds and contents of the tokens it is made of,
without the handles that tie them together in an arena. Renderings are functions of the tree.
-/

namespace TokenStore

/-- The tokens below a token, with `cut` where something was left out. -/
inductive Tree (Stub : Type) where
  | bytes (data : List UInt8)
  | sint (value : Int64)
  | uint (value : UInt64)
  | user (tag : Tag)
  | seq (children : List (Tree Stub))
  | cut (stub : Stub)

end TokenStore
