import TokenStore.Failure
import TokenStore.Limits
import TokenStore.Token

/-!
# Element lists

The elements of a sequence: handles in a list that grows only at its end.

## Main definitions

* `Elements`: the list, with `push` and `append` to grow it.
* `Elements.reserving`: a new list with room set aside.
* `Elements.get?` and `Elements.get`: the soft and the failing look-up.
-/

namespace TokenStore

/-- The elements of a sequence. `reserved` is the room asked for when it was made. -/
structure Elements where
  items : Array Handle := #[]
  reserved : Nat := 0
  deriving DecidableEq, Inhabited

namespace Elements

def empty : Elements := {}

def withCapacity (capacity : Nat) : Elements := { reserved := capacity }

/-- An empty list with as much room as is asked for, if there can be so much. -/
def reserving (capacity : Nat) : Except Failure Elements :=
  if maxCapacity < capacity then .error .noRoom else .ok (withCapacity capacity)

def size (e : Elements) : Nat := e.items.size

def isEmpty (e : Elements) : Bool := e.items.isEmpty

def toList (e : Elements) : List Handle := e.items.toList

/-- Room for elements: never less than was asked for, nor than is in use. -/
def capacity (e : Elements) : Nat :=
  max (max e.reserved minCapacity) e.size

def push (e : Elements) (h : Handle) : Elements :=
  { e with items := e.items.push h }

def append (e : Elements) (hs : List Handle) : Elements :=
  { e with items := e.items.appendList hs }

def get? (e : Elements) (index : Nat) : Option Handle := e.items[index]?

def last? (e : Elements) : Option Handle := e.items.back?

/-- The element at `index`; past the end is misuse. -/
def get (e : Elements) (index : Nat) : Except Failure Handle :=
  match e.get? index with
  | some h => .ok h
  | none => .error (.misuse (.pastEnd index e.size))

@[simp] theorem size_eq_length (e : Elements) : e.size = e.toList.length := by
  simp [size, toList]

@[simp] theorem toList_empty : empty.toList = [] := rfl

@[simp] theorem toList_withCapacity (n : Nat) : (withCapacity n).toList = [] := rfl

@[simp] theorem toList_push (e : Elements) (h : Handle) :
    (e.push h).toList = e.toList ++ [h] := by
  simp [push, toList]

@[simp] theorem toList_append (e : Elements) (hs : List Handle) :
    (e.append hs).toList = e.toList ++ hs := by
  simp [append, toList]

theorem get?_eq (e : Elements) (i : Nat) : e.get? i = e.toList[i]? := by
  simp [get?, toList]

theorem last?_eq (e : Elements) : e.last? = e.toList.getLast? := by
  simp [last?, toList]

theorem append_nil (e : Elements) : e.append [] = e := by simp [append]

theorem append_append (e : Elements) (hs more : List Handle) :
    (e.append hs).append more = e.append (hs ++ more) := by
  have hitems : (e.items.appendList hs).appendList more = e.items.appendList (hs ++ more) :=
    Array.ext' (by simp)
  simp only [append, hitems]

theorem size_le_capacity (e : Elements) : e.size ≤ e.capacity := Nat.le_max_right _ _

theorem reserved_le_capacity (e : Elements) : e.reserved ≤ e.capacity :=
  Nat.le_trans (Nat.le_max_left _ _) (Nat.le_max_left _ _)

theorem minCapacity_le_capacity (e : Elements) : minCapacity ≤ e.capacity :=
  Nat.le_trans (Nat.le_max_right _ _) (Nat.le_max_left _ _)

end Elements

end TokenStore
