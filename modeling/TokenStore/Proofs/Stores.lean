import TokenStore.Arena.Sequence
import TokenStore.Proofs.Outcome

/-!
# Stores

What the elementary operations do to the four stores of an arena. An addition puts one token at the
end, and what the token names at the end of its own store. A look-up through a handle succeeds
exactly when the token and what it names are there, and the token is of the kind asked for.
-/

namespace TokenStore

namespace Arena

/-! ## Additions -/

section additions

variable (a : Arena)

theorem addList_eq (e : Elements) :
    a.addList e = (⟨a.size⟩,
      { a with tokens := a.tokens.push (.sequence ⟨a.lists.size⟩), lists := a.lists.push e }) :=
  rfl

theorem addSeqReserving_of_room {capacity : Nat} (h : capacity < 0x1000000000000000) :
    a.addSeqReserving capacity =
      (.ok ⟨a.size⟩, (a.addList (Elements.withCapacity capacity)).2) := by
  have hroom : ¬ maxCapacity < capacity := by
    simp only [maxCapacity, maxBlock]
    omega
  simp [addSeqReserving, Elements.reserving, hroom, addList_eq]

theorem addSeqReserving_of_noRoom {capacity : Nat} (h : 0x1000000000000000 ≤ capacity) :
    a.addSeqReserving capacity = (.error .noRoom, a) := by
  have hnone : maxCapacity < capacity := by
    simp only [maxCapacity, maxBlock]
    omega
  simp [addSeqReserving, Elements.reserving, hnone]

theorem addBytes_eq (data : List UInt8) :
    a.addBytes data = (⟨a.size⟩,
      { a with
        tokens := a.tokens.push (.bytes ⟨a.pool.size, a.pool.size + data.length⟩)
        pool := a.pool ++ data.toArray }) := by
  have hpool : a.pool.appendList data = a.pool ++ data.toArray := Array.ext' (by simp)
  simp only [addBytes, alloc, size, hpool, Array.size_append, List.size_toArray]

theorem addZeros_of_full {length : Nat} (h : 0x10000000000000000 ≤ a.pool.size + length) :
    a.addZeros length = (.error (.misuse (.poolFull length)), a) := by
  have hfull : maxPoolSize < a.pool.size + length := by
    simp only [maxPoolSize]
    omega
  simp [addZeros, hfull]

theorem addZeros_of_noRoom {length : Nat} (lower : 0x8000000000000000 ≤ a.pool.size + length)
    (upper : a.pool.size + length < 0x10000000000000000) :
    a.addZeros length = (.error .noRoom, a) := by
  have hfits : ¬ maxPoolSize < a.pool.size + length := by
    simp only [maxPoolSize]
    omega
  have hnone : maxBlock < a.pool.size + length := by
    simp only [maxBlock]
    omega
  simp [addZeros, hfits, hnone]

theorem addZeros_of_room {length : Nat} (h : a.pool.size + length < 0x8000000000000000) :
    a.addZeros length = (.ok ⟨a.size⟩, (a.addBytes (List.replicate length 0)).2) := by
  have hfits : ¬ maxPoolSize < a.pool.size + length := by
    simp only [maxPoolSize]
    omega
  have hroom : ¬ maxBlock < a.pool.size + length := by
    simp only [maxBlock]
    omega
  simp [addZeros, hfits, hroom, addBytes_eq]

theorem addSint_eq (value : Int64) :
    a.addSint value = (⟨a.size⟩, { a with tokens := a.tokens.push (.sint value) }) := rfl

theorem addUint_eq (value : UInt64) :
    a.addUint value = (⟨a.size⟩, { a with tokens := a.tokens.push (.uint value) }) := rfl

theorem addUser_eq {tag : Tag} (htag : tag.isUser = true) (value : Payload) :
    a.addUser tag value = (.ok ⟨a.size⟩,
      { a with
        tokens := a.tokens.push (.user tag a.payloads.size)
        payloads := a.payloads.push value }) := by
  simp [addUser, htag, alloc, size]

end additions

/-! ## Look-ups -/

section lookups

variable {a : Arena} {h : Handle}

theorem payload_eq_ok_iff {slot : Nat} {p : Payload} :
    a.payload slot = .ok p ↔ a.payloads[slot]? = some p := by
  unfold payload; split <;> simp_all

theorem slice_eq_ok_iff {s : Span} {data : List UInt8} :
    a.slice s = .ok data ↔
      (s.start ≤ s.stop ∧ s.stop ≤ a.pool.size) ∧
        (a.pool.extract s.start s.stop).toList = data := by
  unfold slice
  split
  next hs => simp [hs]
  next hs => simp only [hs, false_and, reduceCtorEq]

theorem expect_eq_ok_iff {expected : Tag} {t : Token} :
    a.expect h expected = .ok t ↔ a.token h = .ok t ∧ t.tag = expected := by
  unfold expect
  cases a.token h with
  | error e => simp
  | ok u =>
    by_cases hu : u.tag = expected <;> simp [hu] <;> rintro rfl <;> exact hu

theorem listOf_eq_ok_iff {id : ListId} :
    a.listOf h = .ok id ↔ a.token h = .ok (.sequence id) := by
  simp only [listOf, Outcome.bind_eq_ok_iff, expect_eq_ok_iff]
  constructor
  · rintro ⟨t, ⟨ht, -⟩, hid⟩
    cases t <;> simp_all
  · intro ht
    exact ⟨_, ⟨ht, rfl⟩, rfl⟩

theorem spanOf_eq_ok_iff {s : Span} : a.spanOf h = .ok s ↔ a.token h = .ok (.bytes s) := by
  simp only [spanOf, Outcome.bind_eq_ok_iff, expect_eq_ok_iff]
  constructor
  · rintro ⟨t, ⟨ht, -⟩, hs⟩
    cases t <;> simp_all
  · intro ht
    exact ⟨_, ⟨ht, rfl⟩, rfl⟩

theorem slotOf_eq_ok_iff {tag : Tag} {slot : Nat} :
    a.slotOf tag h = .ok slot ↔ a.token h = .ok (.user tag slot) := by
  simp only [slotOf, Outcome.bind_eq_ok_iff, expect_eq_ok_iff]
  constructor
  · rintro ⟨t, ⟨ht, htag⟩, hslot⟩
    cases t <;> simp_all [Token.tag]
  · intro ht
    exact ⟨_, ⟨ht, rfl⟩, rfl⟩

theorem findUser_eq_ok_iff {tag : Tag} {asked : PayloadType} {slot : Nat} {p : Payload} :
    a.findUser tag asked h = .ok (slot, p) ↔
      a.token h = .ok (.user tag slot) ∧ a.payload slot = .ok p ∧ p.type = asked := by
  simp only [findUser, Outcome.bind_eq_ok_iff, slotOf_eq_ok_iff]
  constructor
  · rintro ⟨s, ht, q, hq, hp⟩
    by_cases hty : q.type = asked <;> simp_all
  · rintro ⟨ht, hp, rfl⟩
    exact ⟨slot, ht, p, hp, by simp⟩

theorem bytesOf_eq_ok_iff {data : List UInt8} :
    a.bytesOf h = .ok data ↔ ∃ s, a.token h = .ok (.bytes s) ∧ a.slice s = .ok data := by
  simp only [bytesOf, Outcome.bind_eq_ok_iff, spanOf_eq_ok_iff]

/-- What was added as a byte string is what is read back. -/
theorem bytesOf_addBytes (a : Arena) (data : List UInt8) :
    (a.addBytes data).2.bytesOf ⟨a.size⟩ = .ok data := by
  rw [addBytes_eq, bytesOf_eq_ok_iff]
  refine ⟨_, token_eq_ok_iff.mpr Array.getElem?_push_size, slice_eq_ok_iff.mpr ⟨?_, ?_⟩⟩
  · simp
  · simp

end lookups

end Arena

end TokenStore
