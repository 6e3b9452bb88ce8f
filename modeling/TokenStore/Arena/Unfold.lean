import TokenStore.Arena.Access
import TokenStore.Tree.Basic

/-!
# Unfolding

Unfolding turns a token into the tree below it, down to a depth. What stands for a sequence at
that depth is decided by the caller, who is told how many elements it has.
-/

namespace TokenStore

namespace Arena

/-- The tree below a token, `depth` levels of sequences deep. -/
def unfold {Stub : Type} (a : Arena) (limit : Nat → Except Failure (Tree Stub)) (depth : Nat)
    (h : Handle) : Except Failure (Tree Stub) := do
  match ← a.token h with
  | .bytes span => return .bytes (← a.slice span)
  | .sint value => return .sint value
  | .uint value => return .uint value
  | .user tag _ => return .user tag
  | .sequence id =>
    let e ← a.list id
    match depth with
    | 0 => limit e.size
    | depth + 1 => return .seq (← e.toList.mapM (a.unfold limit depth))

end Arena

end TokenStore
