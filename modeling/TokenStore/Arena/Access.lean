import TokenStore.Arena.Basic

/-!
# Reading tokens

Every reading starts from a handle. A handle that the arena has not issued is `missing`; a token
of another kind than the one asked for is misuse.

## Main definitions

* `Arena.token`, `Arena.list`, `Arena.slice`, `Arena.payload`: look-ups in the four stores.
* `Arena.elementsOf`, `Arena.bytesOf`, `Arena.sintOf`, `Arena.uintOf`, `Arena.payloadOf`: the
  content of a token of a known kind.
* `Arena.writeBytes`, `Arena.setPayload`: the two writes in place.
-/

namespace TokenStore

namespace Arena

def token (a : Arena) (h : Handle) : Except Failure Token :=
  match a.tokens[h.index]? with
  | some t => .ok t
  | none => .error (.missing .tokens)

def list (a : Arena) (id : ListId) : Except Failure Elements :=
  match a.lists[id.index]? with
  | some e => .ok e
  | none => .error (.missing .lists)

/-- The bytes of the pool in a range that lies within it. -/
def slice (a : Arena) (s : Span) : Except Failure (List UInt8) :=
  if s.start ≤ s.stop ∧ s.stop ≤ a.pool.size then
    .ok (a.pool.extract s.start s.stop).toList
  else
    .error (.missing .pool)

def payload (a : Arena) (slot : Nat) : Except Failure Payload :=
  match a.payloads[slot]? with
  | some p => .ok p
  | none => .error (.missing .payloads)

def tag (a : Arena) (h : Handle) : Except Failure Tag :=
  return (← a.token h).tag

/-- The token, if it carries the tag that is expected of it. -/
def expect (a : Arena) (h : Handle) (expected : Tag) : Except Failure Token := do
  let t ← a.token h
  if t.tag = expected then
    return t
  else
    throw (.misuse (.wrongKind expected t.tag))

/-- Where the elements of a sequence are kept. -/
def listOf (a : Arena) (h : Handle) : Except Failure ListId := do
  match ← a.expect h Tag.sequence with
  | .sequence id => return id
  | t => throw (.mistagged t.tag)

/-- Where the content of a byte string is kept. -/
def spanOf (a : Arena) (h : Handle) : Except Failure Span := do
  match ← a.expect h Tag.bytes with
  | .bytes span => return span
  | t => throw (.mistagged t.tag)

/-- Where the application's value under `tag` is kept. A built-in tag matches built-in tokens, but
there is no application's value behind it. -/
def slotOf (a : Arena) (tag : Tag) (h : Handle) : Except Failure Nat := do
  match ← a.expect h tag with
  | .user _ slot => return slot
  | _ => throw (.misuse (.reservedTag tag))

def elementsOf (a : Arena) (h : Handle) : Except Failure Elements := do
  a.list (← a.listOf h)

def bytesOf (a : Arena) (h : Handle) : Except Failure (List UInt8) := do
  a.slice (← a.spanOf h)

def sintOf (a : Arena) (h : Handle) : Except Failure Int64 := do
  match ← a.expect h Tag.sint with
  | .sint value => return value
  | t => throw (.mistagged t.tag)

def uintOf (a : Arena) (h : Handle) : Except Failure UInt64 := do
  match ← a.expect h Tag.uint with
  | .uint value => return value
  | t => throw (.mistagged t.tag)

/-- The application's value under `tag`, which must be of the type asked for, and its slot. -/
def findUser (a : Arena) (tag : Tag) (asked : PayloadType) (h : Handle) :
    Except Failure (Nat × Payload) := do
  let slot ← a.slotOf tag h
  let value ← a.payload slot
  if value.type = asked then
    return (slot, value)
  else
    throw (.misuse (.wrongPayload tag asked))

def payloadOf (a : Arena) (tag : Tag) (asked : PayloadType) (h : Handle) :
    Except Failure Payload :=
  return (← a.findUser tag asked h).2

/-- Replaces an application's value by another of the same type. -/
def setPayload (a : Arena) (tag : Tag) (h : Handle) (value : Payload) :
    Except Failure Unit × Arena :=
  match a.findUser tag value.type h with
  | .ok (slot, _) => (.ok (), { a with payloads := a.payloads.setIfInBounds slot value })
  | .error e => (.error e, a)

/-- Writes `data` over the entries from `start` on. -/
def overwrite (pool : Array UInt8) (start : Nat) : List UInt8 → Array UInt8
  | [] => pool
  | b :: rest => overwrite (pool.setIfInBounds start b) (start + 1) rest

/-- Writes into a byte string from `offset` on. Answers whether the data fits; if it does not,
nothing is written. -/
def writeBytes (a : Arena) (h : Handle) (offset : Nat) (data : List UInt8) :
    Except Failure Bool × Arena :=
  match a.spanOf h with
  | .ok span =>
    if span.start ≤ span.stop ∧ span.stop ≤ a.pool.size then
      if offset + data.length ≤ span.length then
        (.ok true, { a with pool := overwrite a.pool (span.start + offset) data })
      else
        (.ok false, a)
    else
      (.error (.missing .pool), a)
  | .error e => (.error e, a)

/-- The elements of a sequence; none for a token of another kind. -/
def children (a : Arena) (h : Handle) : Except Failure (List Handle) := do
  match (← a.token h).list? with
  | some id => return (← a.list id).toList
  | none => return []

/-- The content of a byte string; nothing for a token of another kind. -/
def content (a : Arena) (h : Handle) : Except Failure (Option (List UInt8)) := do
  match (← a.token h).span? with
  | some span => return some (← a.slice span)
  | none => return none

@[simp] theorem size_overwrite (pool : Array UInt8) (start : Nat) (data : List UInt8) :
    (overwrite pool start data).size = pool.size := by
  induction data generalizing pool start with
  | nil => rfl
  | cons b rest ih => simp [overwrite, ih]

theorem token_eq_ok_iff {a : Arena} {h : Handle} {t : Token} :
    a.token h = .ok t ↔ a.tokens[h.index]? = some t := by
  unfold token; split <;> simp_all

theorem list_eq_ok_iff {a : Arena} {id : ListId} {e : Elements} :
    a.list id = .ok e ↔ a.lists[id.index]? = some e := by
  unfold list; split <;> simp_all

end Arena

end TokenStore
