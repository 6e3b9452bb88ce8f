import TokenStore.Proofs.Cells.Cell
import TokenStore.Proofs.Stores

/-!
# Arenas behind arenas

An arena can be laid behind another one, with everything it holds named anew. Reading through a
moved handle gives what the handle gave before, moved likewise, and an import commutes with the
move: it neither looks at what is in front of it nor touches it.

## Main definitions

* `Handle.shift`, `Elements.shift`, `Arena.moved`: names as they become behind another arena.
* `Arena.join`: one arena behind another.
-/

namespace TokenStore

def Handle.shift (n : Nat) (h : Handle) : Handle := ⟨n + h.index⟩

def Elements.shift (n : Nat) (e : Elements) : Elements :=
  { e with items := e.items.map (Handle.shift n) }

namespace Elements

@[simp] theorem toList_shift (n : Nat) (e : Elements) :
    (e.shift n).toList = e.toList.map (Handle.shift n) := by
  simp [shift, toList]

theorem shift_withCapacity (n capacity : Nat) :
    (withCapacity capacity).shift n = withCapacity capacity := by
  simp [shift, withCapacity]

theorem shift_push (n : Nat) (e : Elements) (h : Handle) :
    (e.shift n).push (h.shift n) = (e.push h).shift n := by
  simp [shift, push]

end Elements

namespace Arena

/-- A token as it reads behind the arena `a`. -/
def moved (a : Arena) : Token → Token
  | .bytes s => .bytes ⟨a.pool.size + s.start, a.pool.size + s.stop⟩
  | .sequence id => .sequence ⟨a.lists.size + id.index⟩
  | .user tag slot => .user tag (a.payloads.size + slot)
  | t => t

/-- The arena `b` behind the arena `a`. -/
def join (a b : Arena) : Arena where
  tokens := a.tokens ++ b.tokens.map a.moved
  lists := a.lists ++ b.lists.map (Elements.shift a.size)
  pool := a.pool ++ b.pool
  payloads := a.payloads ++ b.payloads

variable (a b : Arena) (h : Handle)

@[simp] theorem tag_moved (t : Token) : (a.moved t).tag = t.tag := by
  cases t <;> rfl

@[simp] theorem join_empty : a.join empty = a := by
  simp [join, empty]

@[simp] theorem size_join : (a.join b).size = a.size + b.size := by
  simp [join, size]

/-! ## Reading -/

theorem token_join : (a.join b).token (h.shift a.size) = a.moved <$> b.token h := by
  simp only [token, join, Handle.shift, size, Array.getElem?_append_right, Nat.le_add_right,
    Nat.add_sub_cancel_left, Array.getElem?_map]
  cases b.tokens[h.index]? <;> rfl

theorem list_join (id : ListId) :
    (a.join b).list ⟨a.lists.size + id.index⟩ = Elements.shift a.size <$> b.list id := by
  simp only [list, join, Array.getElem?_append_right, Nat.le_add_right, Nat.add_sub_cancel_left,
    Array.getElem?_map]
  cases b.lists[id.index]? <;> rfl

theorem slice_join (s : Span) :
    (a.join b).slice ⟨a.pool.size + s.start, a.pool.size + s.stop⟩ = b.slice s := by
  simp only [slice, join, Array.size_append, Nat.add_le_add_iff_left]
  split
  · simp [Array.extract_append]
  · rfl

theorem payload_join (slot : Nat) :
    (a.join b).payload (a.payloads.size + slot) = b.payload slot := by
  simp only [payload, join, Array.getElem?_append_right, Nat.le_add_right,
    Nat.add_sub_cancel_left]

theorem expect_join (expected : Tag) :
    (a.join b).expect (h.shift a.size) expected = a.moved <$> b.expect h expected := by
  simp only [expect, token_join]
  cases b.token h with
  | error e => rfl
  | ok t =>
    by_cases ht : t.tag = expected <;> simp [ht]

theorem listOf_join :
    (a.join b).listOf (h.shift a.size) =
      (fun id : ListId => ⟨a.lists.size + id.index⟩) <$> b.listOf h := by
  simp only [listOf, expect_join]
  cases b.expect h Tag.sequence with
  | error e => rfl
  | ok t => cases t <;> rfl

theorem elementsOf_join :
    (a.join b).elementsOf (h.shift a.size) = Elements.shift a.size <$> b.elementsOf h := by
  simp only [elementsOf, listOf_join]
  cases b.listOf h with
  | error e => rfl
  | ok id => simp [list_join]

theorem bytesOf_join : (a.join b).bytesOf (h.shift a.size) = b.bytesOf h := by
  simp only [bytesOf, spanOf, expect_join]
  cases b.expect h Tag.bytes with
  | error e => rfl
  | ok t => cases t <;> simp [moved, slice_join, Token.tag]

theorem sintOf_join : (a.join b).sintOf (h.shift a.size) = b.sintOf h := by
  simp only [sintOf, expect_join]
  cases b.expect h Tag.sint with
  | error e => rfl
  | ok t => cases t <;> rfl

theorem uintOf_join : (a.join b).uintOf (h.shift a.size) = b.uintOf h := by
  simp only [uintOf, expect_join]
  cases b.expect h Tag.uint with
  | error e => rfl
  | ok t => cases t <;> rfl

theorem payloadOf_join (tag : Tag) (asked : PayloadType) :
    (a.join b).payloadOf tag asked (h.shift a.size) = b.payloadOf tag asked h := by
  simp only [payloadOf, findUser, slotOf, expect_join]
  cases b.expect h tag with
  | error e => rfl
  | ok t =>
    cases t with
    | user tag' slot =>
      simp only [Outcome.map_ok, Outcome.ok_bind, moved, Outcome.pure_eq_ok, payload_join]
      cases b.payload slot with
      | error e => rfl
      | ok p => by_cases hp : p.type = asked <;> simp [hp]
    | _ => rfl

/-! ## Adding -/

theorem addList_join (e : Elements) :
    (a.join b).addList (e.shift a.size) =
      ((b.addList e).1.shift a.size, a.join (b.addList e).2) := by
  simp [addList_eq, join, size, Handle.shift, moved]

theorem addList_withCapacity_join (capacity : Nat) :
    (a.join b).addList (Elements.withCapacity capacity) =
      ((b.addList (Elements.withCapacity capacity)).1.shift a.size,
        a.join (b.addList (Elements.withCapacity capacity)).2) := by
  rw [← addList_join, Elements.shift_withCapacity]

theorem addBytes_join (data : List UInt8) :
    (a.join b).addBytes data = ((b.addBytes data).1.shift a.size, a.join (b.addBytes data).2) := by
  simp [addBytes_eq, join, size, Handle.shift, moved, Nat.add_assoc, Array.append_assoc]

theorem addSint_join (value : Int64) :
    (a.join b).addSint value = ((b.addSint value).1.shift a.size, a.join (b.addSint value).2) := by
  simp [addSint_eq, join, size, Handle.shift, moved]

theorem addUint_join (value : UInt64) :
    (a.join b).addUint value = ((b.addUint value).1.shift a.size, a.join (b.addUint value).2) := by
  simp [addUint_eq, join, size, Handle.shift, moved]

/-- Changing an entry behind others, if the change commutes with how it was moved there. -/
theorem modify_append_map {α : Type} (xs ys : Array α) {move before after : α → α}
    (hmove : ∀ y, after (move y) = move (before y)) (i : Nat) :
    (xs ++ ys.map move).modify (xs.size + i) after = xs ++ (ys.modify i before).map move := by
  apply Array.ext_getElem?
  intro j
  simp only [Array.getElem?_modify, Array.getElem?_append, Array.getElem?_map]
  by_cases hj : j < xs.size
  · simp [hj, Nat.ne_of_gt (Nat.lt_add_right i hj)]
  · obtain ⟨k, rfl⟩ := Nat.exists_eq_add_of_le (Nat.not_lt.mp hj)
    simp only [Nat.not_lt.mpr (Nat.le_add_right _ _), if_false, Nat.add_left_cancel_iff,
      Nat.add_sub_cancel_left]
    split
    · simp [Function.comp_def, hmove]
    · rfl

theorem push_join (seq value : Handle) :
    (a.join b).push (seq.shift a.size) (value.shift a.size) =
      ((b.push seq value).1, a.join (b.push seq value).2) := by
  simp only [push, listOf_join]
  cases b.listOf seq with
  | error e => rfl
  | ok id =>
    have hlists : (a.lists ++ b.lists.map (Elements.shift a.size)).modify
        (a.lists.size + id.index) (·.push (value.shift a.size)) =
        a.lists ++ (b.lists.modify id.index (·.push value)).map (Elements.shift a.size) :=
      modify_append_map a.lists b.lists (fun e => e.shift_push a.size value) id.index
    simp only [Outcome.map_ok, modifyList, join, Array.size_append, Array.size_map,
      Nat.add_lt_add_iff_left, hlists]
    split <;> rfl

/-! ## Imports -/

theorem addScalar_join (v : Json) :
    (a.join b).addScalar v =
      (Handle.shift a.size <$> (b.addScalar v).1, a.join (b.addScalar v).2) := by
  rcases addScalar_cases v with ⟨data, -, hadd⟩ | ⟨n, -, hadd⟩ | ⟨n, -, hadd⟩ | ⟨f, -, hadd⟩
  · rw [hadd, hadd, addBytes_join, Outcome.map_ok]
  · rw [hadd, hadd, addSint_join, Outcome.map_ok]
  · rw [hadd, hadd, addUint_join, Outcome.map_ok]
  · rw [hadd, hadd, Outcome.map_error]

/-- Importing a value commutes with laying the arena behind another. -/
def Commutes (a : Arena) (depth : Nat) (v : Json) : Prop :=
  ∀ b : Arena, (a.join b).addValue depth v =
    (Handle.shift a.size <$> (b.addValue depth v).1, a.join (b.addValue depth v).2)

theorem addItems_join {a : Arena} {depth : Nat} {items : List Json}
    (hall : ∀ v ∈ items, Commutes a depth v) (b : Arena) (seq : Handle) (index : Nat) :
    (a.join b).addItems depth (seq.shift a.size) index items =
      ((b.addItems depth seq index items).1, a.join (b.addItems depth seq index items).2) := by
  induction items generalizing b index with
  | nil =>
    unfold addItems
    rfl
  | cons v vs ih =>
    unfold addItems
    rw [hall v List.mem_cons_self b]
    obtain ⟨r, b⟩ := b.addValue depth v
    cases r with
    | error e => rfl
    | ok h =>
      simp only [Outcome.map_ok, push_join]
      obtain ⟨r, b⟩ := b.push seq h
      cases r with
      | error e => rfl
      | ok u => exact ih (fun w hw => hall w (List.mem_cons_of_mem v hw)) b (index + 1)

theorem addValue_join (a : Arena) (depth : Nat) (v : Json) : Commutes a depth v := by
  induction v using Json.itemsInduction generalizing depth with
  | arr items ih =>
    intro b
    unfold addValue
    split
    · rfl
    · dsimp only
      rw [addList_withCapacity_join]
      obtain ⟨seq, b⟩ := b.addList (Elements.withCapacity items.length)
      simp only [addItems_join (fun v hv => ih v hv (depth + 1)) b seq 0]
      obtain ⟨r, b⟩ := b.addItems (depth + 1) seq 0 items
      cases r <;> rfl
  | other v hscalar =>
    intro b
    unfold addValue
    split
    · rfl
    · split
      next items => exact absurd rfl (hscalar items)
      next =>
        rw [addScalar_join]
        obtain ⟨r, b⟩ := b.addScalar v
        cases r <;> rfl

/-- An import goes the same way whatever is in the arena already, and stays behind it. -/
theorem addJson_eq_join (a : Arena) (v : Json) :
    a.addJson v =
      (Handle.shift a.size <$> (empty.addJson v).1, a.join (empty.addJson v).2) := by
  have := addValue_join a 0 v empty
  rwa [join_empty] at this

end Arena

end TokenStore
