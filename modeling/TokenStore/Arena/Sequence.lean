import TokenStore.Arena.Access

/-!
# Sequences

Operations on sequences move handles and never look at what the handles name, which therefore need
not be issued yet. Elements are only ever added at the end.

## Main definitions

* `Arena.length`, `Arena.element`, `Arena.follow`: the elements of a sequence, by index or path.
* `Arena.push`, `Arena.append`: growing a sequence by an element or by another sequence.
-/

namespace TokenStore

namespace Arena

def length (a : Arena) (seq : Handle) : Except Failure Nat :=
  return (← a.elementsOf seq).size

def element (a : Arena) (seq : Handle) (index : Nat) : Except Failure Handle := do
  (← a.elementsOf seq).get index

/-- Goes down nested sequences, one index a level. -/
def follow (a : Arena) (h : Handle) (path : List Nat) : Except Failure Handle :=
  path.foldlM a.element h

def elementsAt (a : Arena) (seq : Handle) (index : Nat) : Except Failure Elements := do
  a.elementsOf (← a.element seq index)

def bytesAt (a : Arena) (seq : Handle) (index : Nat) : Except Failure (List UInt8) := do
  a.bytesOf (← a.element seq index)

def sintAt (a : Arena) (seq : Handle) (index : Nat) : Except Failure Int64 := do
  a.sintOf (← a.element seq index)

def uintAt (a : Arena) (seq : Handle) (index : Nat) : Except Failure UInt64 := do
  a.uintOf (← a.element seq index)

def payloadAt (a : Arena) (tag : Tag) (asked : PayloadType) (seq : Handle) (index : Nat) :
    Except Failure Payload := do
  a.payloadOf tag asked (← a.element seq index)

/-- Changes the elements kept under `id`. -/
def modifyList (a : Arena) (id : ListId) (change : Elements → Elements) :
    Except Failure Unit × Arena :=
  if id.index < a.lists.size then
    (.ok (), { a with lists := a.lists.modify id.index change })
  else
    (.error (.missing .lists), a)

/-- Adds one handle at the end of `seq`. -/
def push (a : Arena) (seq value : Handle) : Except Failure Unit × Arena :=
  match a.listOf seq with
  | .ok id => a.modifyList id (·.push value)
  | .error e => (.error e, a)

/-- Adds the elements of `src` at the end of `dst`. They are read before anything is added, so a
sequence appended to itself is doubled. -/
def append (a : Arena) (dst src : Handle) : Except Failure Unit × Arena :=
  match a.listOf dst with
  | .ok id =>
    match a.elementsOf src with
    | .ok e => a.modifyList id (·.append e.toList)
    | .error e => (.error e, a)
  | .error e => (.error e, a)

end Arena

end TokenStore
