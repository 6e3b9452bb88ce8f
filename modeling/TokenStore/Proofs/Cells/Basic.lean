import TokenStore.Arena.Op
import TokenStore.Proofs.Cells.Cell
import TokenStore.Proofs.Links

/-!
# Cells

A simple store, in which every token owns its content. It has no element lists, pool or payload
slots to share, and is what an arena is meant to be for its callers.

## Main definitions

* `Cells`: a store, oldest token first; `Cells.find` is its only look-up.
* `Cells.answer`, `Cells.update`, `Cells.run`: the operations on it.
-/

namespace TokenStore

abbrev Cells : Type := List Cell

namespace Cells

/-! ## Reading -/

/-- A handle that leads beyond the cells is missing. -/
def find (cs : Cells) (h : Handle) : Except Failure Cell :=
  match cs[h.index]? with
  | some x => .ok x
  | none => .error (.missing .tokens)

theorem find_eq_ok_iff {cs : Cells} {h : Handle} {x : Cell} :
    cs.find h = .ok x ↔ cs[h.index]? = some x := by
  unfold find
  split <;> simp_all

theorem exists_find {cs : Cells} {h : Handle} (hh : h.index < cs.length) : ∃ x, cs.find h = .ok x :=
  ⟨_, find_eq_ok_iff.mpr (List.getElem?_eq_getElem hh)⟩

/-- The part of a cell that cells of the kind `expected` have. -/
def cast {α : Type} (cs : Cells) (part : Cell → Option α) (expected : Tag) (h : Handle) :
    Except Failure α := do
  let x ← cs.find h
  match part x with
  | some value => return value
  | none => throw (x.mismatch expected)

def elementsOf (cs : Cells) : Handle → Except Failure (List Handle) :=
  cs.cast Cell.elements? Tag.sequence

def bytesOf (cs : Cells) : Handle → Except Failure (List UInt8) := cs.cast Cell.content? Tag.bytes

def sintOf (cs : Cells) : Handle → Except Failure Int64 := cs.cast Cell.sint? Tag.sint

def uintOf (cs : Cells) : Handle → Except Failure UInt64 := cs.cast Cell.uint? Tag.uint

/-- The tag is compared first, then the kind, then the type of the value. -/
def payloadOf (cs : Cells) (tag : Tag) (asked : PayloadType) (h : Handle) :
    Except Failure Payload := do
  let x ← cs.find h
  if x.tag ≠ tag then
    throw (x.mismatch tag)
  match x.payload? with
  | none => throw (.misuse (.reservedTag tag))
  | some value =>
    if value.type = asked then
      return value
    else
      throw (.misuse (.wrongPayload tag asked))

def children (cs : Cells) (h : Handle) : Except Failure (List Handle) :=
  return (← cs.find h).elements?.getD []

def content (cs : Cells) (h : Handle) : Except Failure (Option (List UInt8)) :=
  return (← cs.find h).content?

def lengthOf (cs : Cells) (seq : Handle) : Except Failure Nat :=
  return (← cs.elementsOf seq).length

def element (cs : Cells) (seq : Handle) (index : Nat) : Except Failure Handle := do
  let es ← cs.elementsOf seq
  match es[index]? with
  | some h => return h
  | none => throw (.misuse (.pastEnd index es.length))

def follow (cs : Cells) (h : Handle) (path : List Nat) : Except Failure Handle :=
  path.foldlM cs.element h

def links (cs : Cells) : Links := fun h => return (← cs.find h).elements?

theorem elementsOf_eq_ok_iff {cs : Cells} {h : Handle} {es : List Handle} :
    cs.elementsOf h = .ok es ↔ cs[h.index]? = some (.seq es) := by
  simp only [elementsOf, cast, Outcome.bind_eq_ok_iff, find_eq_ok_iff]
  constructor
  · rintro ⟨x, hx, hes⟩
    cases x <;> simp_all [Cell.elements?]
  · intro hes
    exact ⟨_, hes, rfl⟩

theorem bytesOf_eq_ok_iff {cs : Cells} {h : Handle} {data : List UInt8} :
    cs.bytesOf h = .ok data ↔ cs[h.index]? = some (.bytes data) := by
  simp only [bytesOf, cast, Outcome.bind_eq_ok_iff, find_eq_ok_iff]
  constructor
  · rintro ⟨x, hx, hdata⟩
    cases x <;> simp_all [Cell.content?]
  · intro hdata
    exact ⟨_, hdata, rfl⟩

/-- An application's value is read under its own tag and type. -/
theorem payloadOf_eq_ok_iff {cs : Cells} {tag : Tag} {asked : PayloadType} {h : Handle}
    {value : Payload} :
    cs.payloadOf tag asked h = .ok value ↔
      cs[h.index]? = some (.user tag value) ∧ value.type = asked := by
  simp only [payloadOf, Outcome.bind_eq_ok_iff, find_eq_ok_iff]
  constructor
  · rintro ⟨x, hx, hvalue⟩
    by_cases htag : x.tag = tag
    · cases x with
      | user t v =>
        obtain rfl : t = tag := htag
        by_cases htype : v.type = asked
        · obtain rfl : v = value := by simpa [Cell.tag, Cell.payload?, htype] using hvalue
          exact ⟨hx, htype⟩
        · simp [Cell.tag, Cell.payload?, htype] at hvalue
      | _ => simp [htag, Cell.payload?] at hvalue
    · simp [htag] at hvalue
  · rintro ⟨hx, rfl⟩
    exact ⟨_, hx, by simp [Cell.tag, Cell.payload?]⟩

theorem links_eq_seq_iff {cs : Cells} {h : Handle} {es : List Handle} :
    cs.links h = .ok (some es) ↔ cs[h.index]? = some (.seq es) := by
  simp only [links, Outcome.bind_eq_ok_iff, find_eq_ok_iff, Outcome.pure_eq_ok, Except.ok.injEq]
  constructor
  · rintro ⟨x, hx, hes⟩
    cases x <;> cases hes
    exact hx
  · intro hes
    exact ⟨_, hes, rfl⟩

theorem index_lt_of_links {cs : Cells} {h : Handle} {o : Option (List Handle)}
    (ho : cs.links h = .ok o) : h.index < cs.length := by
  obtain ⟨x, hx, -⟩ := Outcome.bind_eq_ok_iff.mp ho
  exact (List.getElem?_eq_some_iff.mp (find_eq_ok_iff.mp hx)).1

theorem holds_iff {cs : Cells} {s x : Handle} :
    cs.links.Holds s x ↔ ∃ es, cs[s.index]? = some (.seq es) ∧ x ∈ es :=
  exists_congr fun _ => and_congr_left fun _ => links_eq_seq_iff

/-- What the cells tell of a token. Renderings and the token itself are not among it. -/
def answer (cs : Cells) : Query → Option (Except Failure Answer)
  | .children h => some (.handles <$> cs.children h)
  | .content h => some (.maybeBytes <$> cs.content h)
  | .elementsOf h => some (.handles <$> cs.elementsOf h)
  | .bytesOf h => some (.bytes <$> cs.bytesOf h)
  | .sintOf h => some (.sint <$> cs.sintOf h)
  | .uintOf h => some (.uint <$> cs.uintOf h)
  | .payloadOf tag asked h => some (.payload <$> cs.payloadOf tag asked h)
  | .length seq => some (.count <$> cs.lengthOf seq)
  | .element seq index => some (.handle <$> cs.element seq index)
  | .follow h path => some (.handle <$> cs.follow h path)
  | .elementsAt seq index => some (.handles <$> (cs.element seq index >>= cs.elementsOf))
  | .bytesAt seq index => some (.bytes <$> (cs.element seq index >>= cs.bytesOf))
  | .sintAt seq index => some (.sint <$> (cs.element seq index >>= cs.sintOf))
  | .uintAt seq index => some (.uint <$> (cs.element seq index >>= cs.uintOf))
  | .payloadAt tag asked seq index =>
    some (.payload <$> (cs.element seq index >>= cs.payloadOf tag asked))
  | .token _ | .compact _ | .outline _ _ _ | .toJson _ | .jsonText _ => none

/-! ## Writing -/

def byteTotal : Cells → Nat
  | [] => 0
  | x :: rest => (x.content?.getD []).length + byteTotal rest

/-- As many tokens as cells, as many lists as sequences, and so on. -/
def stats (cs : Cells) : Stats where
  tokens := cs.length
  lists := cs.countP fun x => x.elements?.isSome
  bytes := byteTotal cs
  payloads := cs.countP fun x => x.payload?.isSome

/-- Adds a cell. Its handle is the number of cells before it. -/
def add (cs : Cells) (x : Cell) : Except Failure Handle × Cells :=
  (.ok ⟨cs.length⟩, cs ++ [x])

/-- There is no room for 2^60 handles, whatever else there is. -/
def addSeqReserving (cs : Cells) (capacity : Nat) : Except Failure Handle × Cells :=
  if 0x1000000000000000 ≤ capacity then (.error .noRoom, cs) else cs.add (.seq [])

/-- All byte strings together have fewer than 2^63 bytes. From 2^64 on, more is misuse. -/
def addZeros (cs : Cells) (length : Nat) : Except Failure Handle × Cells :=
  if 0x10000000000000000 ≤ cs.byteTotal + length then
    (.error (.misuse (.poolFull length)), cs)
  else if 0x8000000000000000 ≤ cs.byteTotal + length then
    (.error .noRoom, cs)
  else
    cs.add (.bytes (List.replicate length 0))

def addUser (cs : Cells) (tag : Tag) (value : Payload) : Except Failure Handle × Cells :=
  if tag.isUser then cs.add (.user tag value) else (.error (.misuse (.reservedTag tag)), cs)

/-- Replaces the cell of a handle. -/
def put (cs : Cells) (h : Handle) (x : Cell) : Cells := cs.set h.index x

def push (cs : Cells) (seq value : Handle) : Except Failure Unit × Cells :=
  match cs.elementsOf seq with
  | .ok es => (.ok (), cs.put seq (.seq (es ++ [value])))
  | .error e => (.error e, cs)

def append (cs : Cells) (dst src : Handle) : Except Failure Unit × Cells :=
  match cs.elementsOf dst with
  | .ok es =>
    match cs.elementsOf src with
    | .ok more => (.ok (), cs.put dst (.seq (es ++ more)))
    | .error e => (.error e, cs)
  | .error e => (.error e, cs)

/-- Leaves are sought as many levels deep as there are cells. A chain of nested sequences that is
longer has a cycle. -/
def flatten (cs : Cells) (h : Handle) : Except Failure Handle × Cells :=
  match cs.links.leavesWithin (cs.length) h with
  | .ok ls => cs.add (.seq ls)
  | .error e => (.error e, cs)

def writeBytes (cs : Cells) (h : Handle) (offset : Nat) (data : List UInt8) :
    Except Failure Bool × Cells :=
  match cs.bytesOf h with
  | .ok old =>
    if offset + data.length ≤ old.length then
      (.ok true, cs.put h (.bytes (old.take offset ++ data ++ old.drop (offset + data.length))))
    else
      (.ok false, cs)
  | .error e => (.error e, cs)

def setPayload (cs : Cells) (tag : Tag) (h : Handle) (value : Payload) :
    Except Failure Unit × Cells :=
  match cs.payloadOf tag value.type h with
  | .ok _ => (.ok (), cs.put h (.user tag value))
  | .error e => (.error e, cs)

mutual

def addValue (cs : Cells) (depth : Nat) (v : Json) : Except Failure Handle × Cells :=
  if maxDepth < depth then
    (.error ImportFault.tooDeep.failure, cs)
  else
    match v with
    | .arr items =>
      match addItems (cs ++ [.seq []]) (depth + 1) ⟨cs.length⟩ 0 items with
      | (.ok _, cs') => (.ok ⟨cs.length⟩, cs')
      | (.error e, cs') => (.error e, cs')
    | v =>
      match v.cell with
      | .ok x => cs.add x
      | .error f => (.error f.failure, cs)

def addItems (cs : Cells) (depth : Nat) (seq : Handle) (index : Nat) :
    List Json → Except Failure Unit × Cells
  | [] => (.ok (), cs)
  | v :: vs =>
    match addValue cs depth v with
    | (.ok h, cs) =>
      match cs.push seq h with
      | (.ok _, cs) => addItems cs depth seq (index + 1) vs
      | (.error e, cs) => (.error e, cs)
    | (.error e, cs) => (.error (e.below index), cs)

end

/-- Dresses the result of an operation as an answer. -/
def dress {α : Type} (wrap : α → Answer) (r : Except Failure α × Cells) :
    Except Failure Answer × Cells :=
  (wrap <$> r.1, r.2)

def update (cs : Cells) : Update → Except Failure Answer × Cells
  | .clear => (.ok .done, [])
  | .addSeq => dress .handle (cs.add (.seq []))
  | .addSeqReserving capacity => dress .handle (cs.addSeqReserving capacity)
  | .addZeros length => dress .handle (cs.addZeros length)
  | .addBytes data => dress .handle (cs.add (.bytes data))
  | .addSint value => dress .handle (cs.add (.sint value))
  | .addUint value => dress .handle (cs.add (.uint value))
  | .addUser tag value => dress .handle (cs.addUser tag value)
  | .addJson v => dress .handle (cs.addValue 0 v)
  | .push seq value => dress (fun _ => .done) (cs.push seq value)
  | .append dst src => dress (fun _ => .done) (cs.append dst src)
  | .flatten h => dress .handle (cs.flatten h)
  | .writeBytes h offset data => dress .fits (cs.writeBytes h offset data)
  | .setPayload tag h value => dress (fun _ => .done) (cs.setPayload tag h value)

/-- One operation on the cells, with its answer if it is told by the cells. -/
def run (cs : Cells) : Op → Option (Except Failure Answer) × Cells
  | .ask q => (cs.answer q, cs)
  | .change u => (some (cs.update u).1, (cs.update u).2)

/-- The cells after a run. -/
def after (cs : Cells) (ops : List Op) : Cells := ops.foldl (fun cs op => (cs.run op).2) cs

theorem after_append (cs : Cells) (ops more : List Op) :
    cs.after (ops ++ more) = (cs.after ops).after more := List.foldl_append

end Cells

end TokenStore
