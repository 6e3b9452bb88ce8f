import TokenStore.Elements

/-!
# Arenas

An arena holds the tokens of one parse, and everything they name: element lists, one pool for all
byte strings, and the values of an application. Nothing is freed singly; `clear` drops it all, and
a handle says nothing about any arena but the one that issued it.

An operation that can fail answers `Except Failure α × Arena`: the arena comes back from a failure
too, as the failure left it.

Memory does not run out here: what a caller hands over is there already, and there is room for it
once more. Only a length that a caller names may ask for more room than there can be.

## Main definitions

* `Arena`, `Arena.stats`, `Arena.clear`.
* `Arena.withRoom`: a new arena.
* `Arena.addSeq`, `Arena.addBytes`, `Arena.addUser` and the others that add a token.
-/

namespace TokenStore

structure Arena where
  tokens : Array Token := #[]
  lists : Array Elements := #[]
  pool : Array UInt8 := #[]
  payloads : Array Payload := #[]
  deriving DecidableEq, Inhabited

/-- The room to set aside in a new arena. -/
structure Room where
  tokens : Nat := 0
  lists : Nat := 0
  bytes : Nat := 0
  deriving DecidableEq, Inhabited

/-- Whether there can be so much room. A token takes 24 bytes, an element list 48. -/
def Room.fits (r : Room) : Bool :=
  24 * r.tokens ≤ maxBlock ∧ 48 * r.lists ≤ maxBlock ∧ r.bytes ≤ maxBlock

/-- How much an arena holds in each of its stores. -/
structure Stats where
  tokens : Nat := 0
  lists : Nat := 0
  bytes : Nat := 0
  payloads : Nat := 0
  deriving DecidableEq, Inhabited

namespace Arena

def empty : Arena := {}

/-- An empty arena with room set aside, if there can be so much. Room that is not in use does not
show. -/
def withRoom (r : Room) : Except Failure Arena :=
  if r.fits then .ok empty else .error .noRoom

/-- Drops every token at once. No handle issued before names anything after. -/
def clear (_ : Arena) : Arena := empty

def stats (a : Arena) : Stats where
  tokens := a.tokens.size
  lists := a.lists.size
  bytes := a.pool.size
  payloads := a.payloads.size

def size (a : Arena) : Nat := a.tokens.size

def isEmpty (a : Arena) : Bool := a.tokens.isEmpty

/-- The handles that the arena has issued, oldest first. -/
def handles (a : Arena) : List Handle := (List.range a.size).map Handle.mk

/-- Adds a token. Its handle is the number of tokens before it. -/
def alloc (a : Arena) (t : Token) : Handle × Arena :=
  (⟨a.tokens.size⟩, { a with tokens := a.tokens.push t })

/-- Adds a sequence with the elements of `e`. -/
def addList (a : Arena) (e : Elements) : Handle × Arena :=
  let id : ListId := ⟨a.lists.size⟩
  { a with lists := a.lists.push e }.alloc (.sequence id)

/-- Adds an empty sequence. -/
def addSeq (a : Arena) : Handle × Arena :=
  a.addList Elements.empty

/-- Adds an empty sequence with room set aside, if there can be so much. -/
def addSeqReserving (a : Arena) (capacity : Nat) : Except Failure Handle × Arena :=
  match Elements.reserving capacity with
  | .ok e => let (h, a) := a.addList e; (.ok h, a)
  | .error e => (.error e, a)

/-- Adds a byte string with the content `data`, at the end of the pool. -/
def addBytes (a : Arena) (data : List UInt8) : Handle × Arena :=
  let start := a.pool.size
  let pool := a.pool.appendList data
  let span : Span := ⟨start, pool.size⟩
  { a with pool }.alloc (.bytes span)

/-- Adds `length` zero bytes. That their end cannot be told is misuse; where it can be told, there
may still not be the room. -/
def addZeros (a : Arena) (length : Nat) : Except Failure Handle × Arena :=
  if maxPoolSize < a.pool.size + length then
    (.error (.misuse (.poolFull length)), a)
  else if maxBlock < a.pool.size + length then
    (.error .noRoom, a)
  else
    let (h, a) := a.addBytes (List.replicate length 0)
    (.ok h, a)

def addSint (a : Arena) (value : Int64) : Handle × Arena :=
  a.alloc (.sint value)

def addUint (a : Arena) (value : UInt64) : Handle × Arena :=
  a.alloc (.uint value)

/-- Adds an application's value under one of the application's tags. -/
def addUser (a : Arena) (tag : Tag) (value : Payload) : Except Failure Handle × Arena :=
  if tag.isUser then
    let slot := a.payloads.size
    let (h, a) := { a with payloads := a.payloads.push value }.alloc (.user tag slot)
    (.ok h, a)
  else
    (.error (.misuse (.reservedTag tag)), a)

theorem withRoom_eq_ok_iff {r : Room} {a : Arena} :
    withRoom r = .ok a ↔ r.fits = true ∧ a = empty := by
  by_cases hr : r.fits = true
  · simp [withRoom, hr, eq_comm (a := a)]
  · simp [withRoom, hr]

theorem mem_handles {a : Arena} {h : Handle} : h ∈ a.handles ↔ h.index < a.size := by
  cases h; simp [handles]

end Arena

end TokenStore
