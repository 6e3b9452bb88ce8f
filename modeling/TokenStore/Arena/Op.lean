import TokenStore.Arena.Flatten
import TokenStore.Arena.Render
import TokenStore.Json.Import

/-!
# Operations as data

Everything that can be asked of an arena, and everything that can be done to it, as values. A run
of an arena is then a list of operations, and what holds after any run can be said of lists.

## Main definitions

* `Query`, with `Query.answer`: what leaves the arena alone.
* `Update`, with `Update.run`: what may change it.
* `Op`, with `Op.run` for either, and `Arena.after` for a run.
-/

namespace TokenStore

/-- What an operation answers. -/
inductive Answer where
  | done
  | handle (h : Handle)
  | handles (hs : List Handle)
  | count (n : Nat)
  | bytes (data : List UInt8)
  | maybeBytes (data : Option (List UInt8))
  | sint (value : Int64)
  | uint (value : UInt64)
  | payload (value : Payload)
  | token (t : Token)
  | text (s : String)
  | document (v : Json)
  /-- Whether what was to be written fits. -/
  | fits (b : Bool)

/-- What can be asked of an arena. -/
inductive Query where
  | token (h : Handle)
  | children (h : Handle)
  | content (h : Handle)
  | elementsOf (h : Handle)
  | bytesOf (h : Handle)
  | sintOf (h : Handle)
  | uintOf (h : Handle)
  | payloadOf (tag : Tag) (asked : PayloadType) (h : Handle)
  | length (seq : Handle)
  | element (seq : Handle) (index : Nat)
  | follow (h : Handle) (path : List Nat)
  | elementsAt (seq : Handle) (index : Nat)
  | bytesAt (seq : Handle) (index : Nat)
  | sintAt (seq : Handle) (index : Nat)
  | uintAt (seq : Handle) (index : Nat)
  | payloadAt (tag : Tag) (asked : PayloadType) (seq : Handle) (index : Nat)
  | compact (h : Handle)
  | outline (o : OutlineOptions) (names : Option TagTable) (h : Handle)
  | toJson (h : Handle)
  | jsonText (h : Handle)

/-- What can be done to an arena. -/
inductive Update where
  | clear
  | addSeq
  | addSeqReserving (capacity : Nat)
  | addZeros (length : Nat)
  | addBytes (data : List UInt8)
  | addSint (value : Int64)
  | addUint (value : UInt64)
  | addUser (tag : Tag) (value : Payload)
  | addJson (v : Json)
  | push (seq value : Handle)
  | append (dst src : Handle)
  | flatten (h : Handle)
  | writeBytes (h : Handle) (offset : Nat) (data : List UInt8)
  | setPayload (tag : Tag) (h : Handle) (value : Payload)

inductive Op where
  | ask (q : Query)
  | change (u : Update)

namespace Query

def answer (a : Arena) : Query → Except Failure Answer
  | token h => .token <$> a.token h
  | children h => .handles <$> a.children h
  | content h => .maybeBytes <$> a.content h
  | elementsOf h => (.handles ·.toList) <$> a.elementsOf h
  | bytesOf h => .bytes <$> a.bytesOf h
  | sintOf h => .sint <$> a.sintOf h
  | uintOf h => .uint <$> a.uintOf h
  | payloadOf tag asked h => .payload <$> a.payloadOf tag asked h
  | length seq => .count <$> a.length seq
  | element seq index => .handle <$> a.element seq index
  | follow h path => .handle <$> a.follow h path
  | elementsAt seq index => (.handles ·.toList) <$> a.elementsAt seq index
  | bytesAt seq index => .bytes <$> a.bytesAt seq index
  | sintAt seq index => .sint <$> a.sintAt seq index
  | uintAt seq index => .uint <$> a.uintAt seq index
  | payloadAt tag asked seq index => .payload <$> a.payloadAt tag asked seq index
  | compact h => .text <$> a.compact h
  | outline o names h => .text <$> a.outline o names h
  | toJson h => .document <$> a.toJson h
  | jsonText h => .text <$> a.jsonText h

end Query

namespace Update

/-- An operation that cannot fail. -/
def sure {α : Type} (wrap : α → Answer) (r : α × Arena) : Except Failure Answer × Arena :=
  (.ok (wrap r.1), r.2)

/-- An operation that can fail. -/
def attempt {α : Type} (wrap : α → Answer) (r : Except Failure α × Arena) :
    Except Failure Answer × Arena :=
  (wrap <$> r.1, r.2)

def run (a : Arena) : Update → Except Failure Answer × Arena
  | clear => (.ok .done, a.clear)
  | addSeq => sure .handle a.addSeq
  | addSeqReserving capacity => attempt .handle (a.addSeqReserving capacity)
  | addZeros length => attempt .handle (a.addZeros length)
  | addBytes data => sure .handle (a.addBytes data)
  | addSint value => sure .handle (a.addSint value)
  | addUint value => sure .handle (a.addUint value)
  | addUser tag value => attempt .handle (a.addUser tag value)
  | addJson v => attempt .handle (a.addJson v)
  | push seq value => attempt (fun _ => .done) (a.push seq value)
  | append dst src => attempt (fun _ => .done) (a.append dst src)
  | flatten h => attempt .handle (a.flatten h)
  | writeBytes h offset data => attempt .fits (a.writeBytes h offset data)
  | setPayload tag h value => attempt (fun _ => .done) (a.setPayload tag h value)

end Update

namespace Op

def run (a : Arena) : Op → Except Failure Answer × Arena
  | ask q => (q.answer a, a)
  | change u => u.run a

end Op

namespace Arena

/-- The arena after a run of operations, whether or not they fail. -/
def after (a : Arena) (ops : List Op) : Arena := ops.foldl (fun a op => (op.run a).2) a

@[simp] theorem after_nil (a : Arena) : a.after [] = a := rfl

@[simp] theorem after_cons (a : Arena) (op : Op) (ops : List Op) :
    a.after (op :: ops) = (op.run a).2.after ops := rfl

theorem after_append (a : Arena) (ops more : List Op) :
    a.after (ops ++ more) = (a.after ops).after more := List.foldl_append

end Arena

end TokenStore
