import TokenStore.Arena.Unfold
import TokenStore.TagTable
import TokenStore.Tree.Compact
import TokenStore.Tree.Export
import TokenStore.Tree.Outline

/-!
# Renderings of tokens

The texts and the document of a token, each from the tree below it. They differ in what becomes of
a sequence at the greatest depth: the compact text cuts it, the outline cuts it unless it is empty,
and the export fails unless it is empty.

## Main definitions

* `Arena.compact`, `Arena.outline`, `Arena.toJson`, `Arena.jsonText`.
* `Arena.compactFrom`, `Arena.outlineFrom`, `Arena.exportFrom`: the trees of tokens by the depths
  that these stand at.
-/

namespace TokenStore

namespace Arena

/-- The failure of an export that meets elements beyond the greatest depth. -/
def tooDeep : Failure :=
  .error
    { direction := .exporting
      message := s!"serialize failed: nesting deeper than {maxDepth}" }

def compactTree (a : Arena) (h : Handle) : Except Failure (Tree Unit) :=
  a.unfold (fun _ => .ok (.cut ())) maxDepth h

def outlineTree (a : Arena) (depth : Nat) (h : Handle) : Except Failure (Tree Nat) :=
  a.unfold (fun size => .ok (if size = 0 then .seq [] else .cut size)) depth h

def exportTree (a : Arena) (h : Handle) : Except Failure (Tree Empty) :=
  a.unfold (fun size => if size = 0 then .ok (.seq []) else .error tooDeep) maxDepth h

def compact (a : Arena) (h : Handle) : Except Failure String :=
  return (← a.compactTree h).compact

/-- The outline of a token. Application tags go by their names in a table, if one is given. -/
def outline (a : Arena) (o : OutlineOptions) (names : Option TagTable) (h : Handle) :
    Except Failure String :=
  return (← a.outlineTree o.maxDepth h).outline o.indent fun tag => names.bind (·.name? tag)

def toJson (a : Arena) (h : Handle) : Except Failure Json :=
  return (← a.exportTree h).toJson

def jsonText (a : Arena) (h : Handle) : Except Failure String :=
  return (← a.exportTree h).jsonText

/-! ## Depths counted from the root

The walk down a tree counts the levels that are left. Told by the depth that a token stands at, each
of the three trees compares it with the limit in a way of its own.
-/

/-- What is to be seen of a token, with `inside` for the elements of a sequence. -/
def visit {Stub : Type} (a : Arena) (h : Handle)
    (inside : Elements → Except Failure (Tree Stub)) : Except Failure (Tree Stub) := do
  match ← a.token h with
  | .bytes span => return .bytes (← a.slice span)
  | .sint value => return .sint value
  | .uint value => return .uint value
  | .user tag _ => return .user tag
  | .sequence id => inside (← a.list id)

/-- The compact tree of a token that stands at `depth`. -/
def compactFrom (a : Arena) (depth : Nat) (h : Handle) : Except Failure (Tree Unit) :=
  a.unfold (fun _ => .ok (.cut ())) (maxDepth - depth) h

/-- The tree of an outline, `most` levels deep, of a token that stands at `depth`. -/
def outlineFrom (a : Arena) (most depth : Nat) (h : Handle) : Except Failure (Tree Nat) :=
  a.unfold (fun size => .ok (if size = 0 then .seq [] else .cut size)) (most - depth) h

/-- The exported tree of a token that stands at `depth`. -/
def exportFrom (a : Arena) (depth : Nat) (h : Handle) : Except Failure (Tree Empty) :=
  if maxDepth < depth then
    .error tooDeep
  else
    a.unfold (fun size => if size = 0 then .ok (.seq []) else .error tooDeep) (maxDepth - depth) h

section depths

variable {Stub : Type} (limit : Nat → Except Failure (Tree Stub)) (a : Arena) (depth : Nat)
  (h : Handle)

theorem unfold_zero : a.unfold limit 0 h = a.visit h fun e => limit e.size := by
  unfold unfold visit
  rfl

theorem unfold_succ : a.unfold limit (depth + 1) h =
    a.visit h fun e => .seq <$> e.toList.mapM (a.unfold limit depth) := by
  unfold unfold visit
  rfl

theorem compactTree_eq : a.compactTree h = a.compactFrom 0 h := rfl

theorem outlineTree_eq : a.outlineTree depth h = a.outlineFrom depth 0 h := rfl

theorem exportTree_eq : a.exportTree h = a.exportFrom 0 h := rfl

/-- Every sequence that stands deep enough is cut, whatever is in it. -/
theorem compactFrom_eq : a.compactFrom depth h =
    a.visit h fun e =>
      if depth ≥ maxDepth then .ok (.cut ())
      else .seq <$> e.toList.mapM (a.compactFrom (depth + 1)) := by
  by_cases hd : depth ≥ maxDepth
  · simp only [compactFrom, Nat.sub_eq_zero_of_le hd, unfold_zero, hd, if_true]
  · have hleft : maxDepth - depth = maxDepth - (depth + 1) + 1 := by omega
    simp only [compactFrom, hleft, unfold_succ, hd, if_false]
    rfl

/-- A sequence that stands deep enough is cut if it has any elements. -/
theorem outlineFrom_eq (most : Nat) : a.outlineFrom most depth h =
    a.visit h fun e =>
      if e.size > 0 ∧ depth ≥ most then .ok (.cut e.size)
      else .seq <$> e.toList.mapM (a.outlineFrom most (depth + 1)) := by
  by_cases hd : depth ≥ most
  · simp only [outlineFrom, Nat.sub_eq_zero_of_le hd, unfold_zero]
    refine congrArg (a.visit h) (funext fun e => ?_)
    cases hes : e.toList with
    | nil =>
      have hnone : e.size = 0 := by rw [e.size_eq_length, hes, List.length_nil]
      rw [hnone, List.mapM_nil]
      rfl
    | cons x xs => simp [hes, hd]
  · have hleft : most - depth = most - (depth + 1) + 1 := by omega
    simp only [outlineFrom, hleft, unfold_succ, hd, and_false, if_false]
    rfl

/-- Nothing that stands too deep is exported, of whatever kind it is. -/
theorem exportFrom_eq : a.exportFrom depth h =
    if depth > maxDepth then .error tooDeep
    else a.visit h fun e => .seq <$> e.toList.mapM (a.exportFrom (depth + 1)) := by
  rcases Nat.lt_trichotomy maxDepth depth with hd | rfl | hd
  · simp [exportFrom, hd]
  · have hbelow : a.exportFrom (maxDepth + 1) = fun _ => .error tooDeep :=
      funext fun h => if_pos (Nat.lt_succ_self maxDepth)
    simp only [exportFrom, Nat.lt_irrefl, if_false, Nat.sub_self, unfold_zero, hbelow]
    refine congrArg (a.visit h) (funext fun e => ?_)
    cases hes : e.toList with
    | nil =>
      have hnone : e.size = 0 := by rw [e.size_eq_length, hes, List.length_nil]
      rw [hnone, List.mapM_nil]
      rfl
    | cons x xs =>
      have hsome : e.size = xs.length + 1 := by rw [e.size_eq_length, hes, List.length_cons]
      rw [hsome, List.mapM_cons]
      rfl
  · have hleft : maxDepth - depth = maxDepth - (depth + 1) + 1 := by omega
    have hbelow : a.exportFrom (depth + 1) = a.unfold
        (fun size => if size = 0 then .ok (.seq []) else .error tooDeep)
        (maxDepth - (depth + 1)) :=
      funext fun h => if_neg (Nat.not_lt.mpr hd)
    simp only [exportFrom, Nat.not_lt.mpr (Nat.le_of_lt hd), if_false, hleft, unfold_succ, hbelow]

end depths

end Arena

end TokenStore
