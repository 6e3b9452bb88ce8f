import TokenStore.Proofs.Cells.Basic
import TokenStore.Proofs.Flatten

/-!
# Arenas as cells

The cell of a token resolves what the token names. In a laid out arena every reading of the arena
is a reading of its cells.

## Main definitions

* `Arena.cell`, `Arena.cells`: the cells of an arena.
-/

namespace TokenStore

namespace Arena

/-- A token with what it names. -/
def cell (a : Arena) : Token → Cell
  | .bytes s => .bytes (a.pool.extract s.start s.stop).toList
  | .sint value => .sint value
  | .uint value => .uint value
  | .sequence id => .seq (a.lists[id.index]?.getD Elements.empty).toList
  | .user tag slot => .user tag (a.payloads[slot]?.getD .unit)

def cells (a : Arena) : Cells := a.tokens.toList.map a.cell

@[simp] theorem length_cells (a : Arena) : a.cells.length = a.size := by simp [cells, size]

@[simp] theorem tag_cell (a : Arena) (t : Token) : (a.cell t).tag = t.tag := by
  cases t <;> rfl

@[simp] theorem find_cells (a : Arena) (h : Handle) : a.cells.find h = a.cell <$> a.token h := by
  unfold Cells.find cells token
  cases ht : a.tokens[h.index]? <;> simp [ht]

section kinds

variable {a : Arena} {h : Handle} {t : Token}

theorem expect_of_tag {expected : Tag} (ht : a.token h = .ok t) (htag : t.tag = expected) :
    a.expect h expected = .ok t := by
  simp [expect, ht, htag]

theorem expect_of_ne {expected : Tag} (ht : a.token h = .ok t) (htag : t.tag ≠ expected) :
    a.expect h expected = .error (.misuse (.wrongKind expected t.tag)) := by
  simp [expect, ht, htag]

theorem expect_error {expected : Tag} {e : Failure} (ht : a.token h = .error e) :
    a.expect h expected = .error e := by
  simp [expect, ht]

namespace Layout

/-- An application's tag is none of the built-in ones. -/
theorem tag_ne (ha : a.Layout) {tag : Tag} {slot : Nat} (ht : a.token h = .ok (.user tag slot))
    {builtin : Tag} (hb : builtin.code.toNat < 64) : tag ≠ builtin := by
  rintro rfl
  have := ha.tag_le ht
  omega

/-- The tag tells the kind of a token, also where the tag is one of the built-in ones. -/
theorem kind_of_tag (ha : a.Layout) (ht : a.token h = .ok t) :
    (t.tag = Tag.sequence → ∃ id, t = .sequence id) ∧ (t.tag = Tag.bytes → ∃ s, t = .bytes s) ∧
      (t.tag = Tag.sint → ∃ value, t = .sint value) ∧
        (t.tag = Tag.uint → ∃ value, t = .uint value) := by
  cases t with
  | user tag slot =>
    have hne {builtin : Tag} (hb : builtin.code.toNat < 64) {P : Prop} (htag : tag = builtin) : P :=
      absurd htag (ha.tag_ne ht hb)
    exact ⟨hne (by decide), hne (by decide), hne (by decide), hne (by decide)⟩
  | _ => simp [Token.tag, Tag.sequence, Tag.bytes, Tag.sint, Tag.uint]

end Layout

/-- Reading the content of a known kind: the arena compares tags, the cells look at the part. -/
theorem eq_cast {α : Type} {part : Cell → Option α} {expected : Tag} {r : Except Failure α}
    (hpart : ∀ x : Cell, x.tag ≠ expected → part x = none)
    (herror : ∀ e, a.token h = .error e → r = .error e)
    (hother : ∀ t, a.token h = .ok t → t.tag ≠ expected →
      r = .error (.misuse (.wrongKind expected t.tag)))
    (hkind : ∀ t, a.token h = .ok t → t.tag = expected →
      ∃ value, part (a.cell t) = some value ∧ r = .ok value) :
    r = a.cells.cast part expected h := by
  simp only [Cells.cast, find_cells]
  cases ht : a.token h with
  | error e => simp [herror e ht]
  | ok t =>
    by_cases htag : t.tag = expected
    · obtain ⟨value, hvalue, rfl⟩ := hkind t ht htag
      simp [hvalue]
    · simp [hother t ht htag, hpart (a.cell t) (by simpa using htag), Cell.mismatch]

namespace Layout

theorem cell_sequence (ha : a.Layout) {id : ListId} (ht : a.token h = .ok (.sequence id)) :
    ∃ e, a.list id = .ok e ∧ a.cell (.sequence id) = .seq e.toList := by
  obtain ⟨e, he⟩ := ha.exists_list ht
  exact ⟨e, he, by simp [cell, list_eq_ok_iff.mp he]⟩

theorem cell_user (ha : a.Layout) {tag : Tag} {slot : Nat}
    (ht : a.token h = .ok (.user tag slot)) :
    ∃ p, a.payload slot = .ok p ∧ a.cell (.user tag slot) = .user tag p := by
  have hp := Array.getElem?_eq_getElem (ha.slot_lt ht)
  exact ⟨_, payload_eq_ok_iff.mpr hp, by simp [cell, hp]⟩

theorem slice_eq (ha : a.Layout) {s : Span} (ht : a.token h = .ok (.bytes s)) :
    a.slice s = .ok (a.pool.extract s.start s.stop).toList :=
  slice_eq_ok_iff.mpr ⟨ha.span_within ht, rfl⟩

theorem elementsOf_cells (ha : a.Layout) (h : Handle) :
    (·.toList) <$> a.elementsOf h = a.cells.elementsOf h := by
  refine eq_cast (fun _ => Cell.elements?_eq_none) ?_ ?_ ?_
  · intro e ht
    simp [elementsOf, listOf, expect_error ht]
  · intro t ht hne
    simp [elementsOf, listOf, expect_of_ne ht hne]
  · intro t ht htag
    obtain ⟨id, rfl⟩ := (ha.kind_of_tag ht).1 htag
    obtain ⟨e, he, hcell⟩ := ha.cell_sequence ht
    exact ⟨e.toList, by rw [hcell]; rfl, by simp [elementsOf, listOf, expect_of_tag ht htag, he]⟩

theorem bytesOf_cells (ha : a.Layout) (h : Handle) : a.bytesOf h = a.cells.bytesOf h := by
  refine eq_cast (fun _ => Cell.content?_eq_none) ?_ ?_ ?_
  · intro e ht
    simp [bytesOf, spanOf, expect_error ht]
  · intro t ht hne
    simp [bytesOf, spanOf, expect_of_ne ht hne]
  · intro t ht htag
    obtain ⟨s, rfl⟩ := (ha.kind_of_tag ht).2.1 htag
    exact ⟨_, rfl, by simp [bytesOf, spanOf, expect_of_tag ht htag, ha.slice_eq ht]⟩

theorem sintOf_cells (ha : a.Layout) (h : Handle) : a.sintOf h = a.cells.sintOf h := by
  refine eq_cast (fun _ => Cell.sint?_eq_none) ?_ ?_ ?_
  · intro e ht
    simp [sintOf, expect_error ht]
  · intro t ht hne
    simp [sintOf, expect_of_ne ht hne]
  · intro t ht htag
    obtain ⟨value, rfl⟩ := (ha.kind_of_tag ht).2.2.1 htag
    exact ⟨value, rfl, by simp [sintOf, expect_of_tag ht htag]⟩

theorem uintOf_cells (ha : a.Layout) (h : Handle) : a.uintOf h = a.cells.uintOf h := by
  refine eq_cast (fun _ => Cell.uint?_eq_none) ?_ ?_ ?_
  · intro e ht
    simp [uintOf, expect_error ht]
  · intro t ht hne
    simp [uintOf, expect_of_ne ht hne]
  · intro t ht htag
    obtain ⟨value, rfl⟩ := (ha.kind_of_tag ht).2.2.2 htag
    exact ⟨value, rfl, by simp [uintOf, expect_of_tag ht htag]⟩

theorem payloadOf_cells (ha : a.Layout) (tag : Tag) (asked : PayloadType) (h : Handle) :
    a.payloadOf tag asked h = a.cells.payloadOf tag asked h := by
  simp only [payloadOf, findUser, slotOf, Cells.payloadOf, find_cells]
  cases ht : a.token h with
  | error e => simp [expect_error ht]
  | ok t =>
    by_cases htag : t.tag = tag
    · rw [expect_of_tag ht htag]
      cases t with
      | user _ slot =>
        obtain ⟨p, hp, hcell⟩ := ha.cell_user ht
        by_cases htype : p.type = asked
        · simp [hp, hcell, htype, ← htag, Cell.tag, Token.tag, Cell.payload?]
        · simp [hp, hcell, htype, ← htag, Cell.tag, Token.tag, Cell.payload?]
      | _ => simp [cell, ← htag, Cell.tag, Token.tag, Cell.payload?]
    · simp [expect_of_ne ht htag, htag, Cell.mismatch]

theorem links_cells (ha : a.Layout) : a.cells.links = a.links := by
  funext h
  simp only [Cells.links, find_cells]
  cases ht : a.token h with
  | error e => simp [links, ht]
  | ok t =>
    cases t with
    | sequence id =>
      obtain ⟨e, he, hcell⟩ := ha.cell_sequence ht
      simp [links_of_sequence ht he, hcell, Cell.elements?]
    | _ => simp [links_of_other ht rfl, cell, Cell.elements?]

theorem found_of_issued (ha : a.Layout) (hh : ∀ x, a.links.Reaches h x → x ∈ a.handles)
    (x : Handle) (hx : a.cells.links.Reaches h x) : x.index < a.cells.length := by
  rw [ha.links_cells] at hx
  rw [length_cells]
  exact mem_handles.mp (hh x hx)

theorem children_cells (ha : a.Layout) (h : Handle) : a.children h = a.cells.children h := by
  simp only [children, Cells.children, find_cells]
  cases ht : a.token h with
  | error e => simp
  | ok t =>
    cases t with
    | sequence id =>
      obtain ⟨e, he, hcell⟩ := ha.cell_sequence ht
      simp [Token.list?, he, hcell, Cell.elements?]
    | _ => simp [Token.list?, cell, Cell.elements?]

theorem content_cells (ha : a.Layout) (h : Handle) : a.content h = a.cells.content h := by
  simp only [content, Cells.content, find_cells]
  cases ht : a.token h with
  | error e => simp
  | ok t =>
    cases t with
    | bytes s => simp [Token.span?, ha.slice_eq ht, cell, Cell.content?]
    | _ => simp [Token.span?, cell, Cell.content?]

theorem lengthOf_cells (ha : a.Layout) (h : Handle) : a.length h = a.cells.lengthOf h := by
  simp only [length, Cells.lengthOf, ← ha.elementsOf_cells]
  cases a.elementsOf h <;> simp

theorem element_cells (ha : a.Layout) (h : Handle) (index : Nat) :
    a.element h index = a.cells.element h index := by
  simp only [element, Cells.element, ← ha.elementsOf_cells]
  cases a.elementsOf h with
  | error e => simp
  | ok e =>
    simp only [Outcome.ok_bind, Outcome.map_ok, Elements.get, Elements.get?_eq]
    cases e.toList[index]? <;> simp

theorem follow_cells (ha : a.Layout) (h : Handle) (path : List Nat) :
    a.follow h path = a.cells.follow h path := by
  have hstep : a.element = a.cells.element := by
    funext h index
    exact ha.element_cells h index
  rw [follow, Cells.follow, hstep]

end Layout

end kinds

end Arena

end TokenStore
