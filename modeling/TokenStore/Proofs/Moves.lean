import Mathlib.Logic.Relation
import TokenStore.Arena.Op
import TokenStore.Proofs.Cells.Cell
import TokenStore.Proofs.Stores

/-!
# Moves

What the operations do to an arena is made of a few moves: a token is added at the end together
with what it names, a list grows, a byte string or an application's value is overwritten in place.
Whatever every move preserves is preserved by every run, by imports that fail midway too.

## Main definitions

* `Arena.Move`: one change to the stores of an arena.
* `Arena.Moves`: any number of them.
* `Arena.Built`: the arenas that runs of operations lead to.
-/

namespace TokenStore

namespace Arena

/-- One change to the stores of an arena. -/
inductive Move (a : Arena) : Arena → Prop where
  | sint (value : Int64) : Move a (a.addSint value).2
  | uint (value : UInt64) : Move a (a.addUint value).2
  | list (e : Elements) : Move a (a.addList e).2
  | bytes (data : List UInt8) : Move a (a.addBytes data).2
  | user (tag : Tag) (value : Payload) (h : tag.isUser = true) : Move a (a.addUser tag value).2
  | grow (id : ListId) (hs : List Handle) (h : id.index < a.lists.size) :
      Move a { a with lists := a.lists.modify id.index (·.append hs) }
  /-- Bytes are only ever written within the span of a token. -/
  | write (h : Handle) (s : Span) (start : Nat) (data : List UInt8)
      (ht : a.token h = .ok (.bytes s)) (lower : s.start ≤ start)
      (upper : start + data.length ≤ s.stop) (hs : s.stop ≤ a.pool.size) :
      Move a { a with pool := overwrite a.pool start data }
  /-- A payload gives way to one of its own type only. -/
  | payload (slot : Nat) (old value : Payload) (h : a.payload slot = .ok old)
      (type : old.type = value.type) :
      Move a { a with payloads := a.payloads.setIfInBounds slot value }

def Moves : Arena → Arena → Prop := Relation.ReflTransGen Move

namespace Moves

theorem refl (a : Arena) : Moves a a := Relation.ReflTransGen.refl

theorem one {a b : Arena} (h : Move a b) : Moves a b := Relation.ReflTransGen.single h

theorem trans {a b c : Arena} (h : Moves a b) (g : Moves b c) : Moves a c :=
  Relation.ReflTransGen.trans h g

/-- What every move preserves, any number of moves preserves. -/
theorem preserve {P : Arena → Prop} (step : ∀ {a b}, Move a b → P a → P b) {a b : Arena}
    (h : Moves a b) (ha : P a) : P b := by
  induction h with
  | refl => exact ha
  | tail _ hbc ih => exact step hbc ih

end Moves

/-! ## Operations as moves -/

theorem addSeqReserving_moves (a : Arena) (capacity : Nat) :
    Moves a (a.addSeqReserving capacity).2 := by
  unfold addSeqReserving
  split
  next e _ => exact .one (.list e)
  next => exact .refl a

theorem addZeros_moves (a : Arena) (length : Nat) : Moves a (a.addZeros length).2 := by
  unfold addZeros
  split
  · exact .refl a
  · split
    · exact .refl a
    · exact .one (.bytes _)

theorem addUser_moves (a : Arena) (tag : Tag) (value : Payload) :
    Moves a (a.addUser tag value).2 := by
  by_cases h : tag.isUser = true
  · exact .one (.user tag value h)
  · simp only [addUser, h]
    exact .refl a

theorem modifyList_moves (a : Arena) (id : ListId) (hs : List Handle) :
    Moves a (a.modifyList id (·.append hs)).2 := by
  unfold modifyList
  split
  next h => exact .one (.grow id hs h)
  next => exact .refl a

theorem push_moves (a : Arena) (seq value : Handle) : Moves a (a.push seq value).2 := by
  unfold push
  split
  next id _ => exact a.modifyList_moves id [value]
  next => exact .refl a

theorem append_moves (a : Arena) (dst src : Handle) : Moves a (a.append dst src).2 := by
  unfold append
  split
  next id _ =>
    split
    next e _ => exact a.modifyList_moves id e.toList
    next => exact .refl a
  next => exact .refl a

theorem flatten_moves (a : Arena) (h : Handle) : Moves a (a.flatten h).2 := by
  unfold flatten
  split
  · exact .one (.list _)
  · exact .refl a

theorem writeBytes_moves (a : Arena) (h : Handle) (offset : Nat) (data : List UInt8) :
    Moves a (a.writeBytes h offset data).2 := by
  unfold writeBytes
  split
  next s hs =>
    rw [spanOf_eq_ok_iff] at hs
    split
    next hpool =>
      split
      next hfit =>
        have hlen : offset + data.length ≤ s.stop - s.start := hfit
        exact .one (.write h s _ data hs (Nat.le_add_right _ _) (by omega) hpool.2)
      next => exact .refl a
    next => exact .refl a
  next => exact .refl a

theorem setPayload_moves (a : Arena) (tag : Tag) (h : Handle) (value : Payload) :
    Moves a (a.setPayload tag h value).2 := by
  unfold setPayload
  split
  next slot old hfound =>
    obtain ⟨-, hold, htype⟩ := findUser_eq_ok_iff.mp hfound
    exact .one (.payload slot old value hold htype)
  next => exact .refl a

/-! ## Imports as moves -/

theorem addScalar_moves (a : Arena) (v : Json) : Moves a (a.addScalar v).2 := by
  rcases addScalar_cases v with ⟨data, -, hadd⟩ | ⟨n, -, hadd⟩ | ⟨n, -, hadd⟩ | ⟨f, -, hadd⟩
  · rw [hadd]
    exact .one (.bytes data)
  · rw [hadd]
    exact .one (.sint n)
  · rw [hadd]
    exact .one (.uint n)
  · rw [hadd]
    exact .refl a

/-- Item by item: an item that is refused ends the import, with what was made of it in place. -/
theorem addItems_moves {items : List Json} {depth : Nat}
    (hall : ∀ v ∈ items, ∀ a : Arena, Moves a (a.addValue depth v).2) (a : Arena) (seq : Handle)
    (index : Nat) : Moves a (a.addItems depth seq index items).2 := by
  induction items generalizing a index with
  | nil =>
    unfold addItems
    exact .refl a
  | cons v vs ih =>
    unfold addItems
    have hv := hall v List.mem_cons_self a
    split
    next h b hadd =>
      rw [hadd] at hv
      have hp := b.push_moves seq h
      split
      next c hpush =>
        rw [hpush] at hp
        have hvs := ih (fun w hw => hall w (List.mem_cons_of_mem v hw)) c (index + 1)
        exact hv.trans (hp.trans hvs)
      next hpush =>
        rw [hpush] at hp
        exact hv.trans hp
    next hadd =>
      rw [hadd] at hv
      exact hv

theorem addValue_moves (a : Arena) (depth : Nat) (v : Json) :
    Moves a (a.addValue depth v).2 := by
  induction v using Json.itemsInduction generalizing a depth with
  | arr items ih =>
    unfold addValue
    split
    · exact .refl a
    · have hseq : Moves a (a.addList (Elements.withCapacity items.length)).2 := .one (.list _)
      have hitems := addItems_moves (fun v hv b => ih v hv b (depth + 1))
        (a.addList (Elements.withCapacity items.length)).2
        (a.addList (Elements.withCapacity items.length)).1 0
      dsimp only
      split
      next heq =>
        rw [heq] at hitems
        exact hseq.trans hitems
      next heq =>
        rw [heq] at hitems
        exact hseq.trans hitems
  | other v hscalar =>
    unfold addValue
    split
    · exact .refl a
    · split
      next items => exact absurd rfl (hscalar items)
      next =>
        have hv := a.addScalar_moves v
        split
        next heq =>
          rw [heq] at hv
          exact hv
        next heq =>
          rw [heq] at hv
          exact hv

/-! ## Runs -/

/-- Every operation but `clear` is made of moves, whether or not it fails. -/
theorem run_moves (a : Arena) {u : Update} (hu : u ≠ .clear) : Moves a (u.run a).2 := by
  cases u with
  | clear => exact absurd rfl hu
  | addSeq => exact .one (.list _)
  | addSeqReserving capacity => exact a.addSeqReserving_moves capacity
  | addZeros length => exact a.addZeros_moves length
  | addBytes data => exact .one (.bytes data)
  | addSint value => exact .one (.sint value)
  | addUint value => exact .one (.uint value)
  | addUser tag value => exact a.addUser_moves tag value
  | addJson v => exact a.addValue_moves 0 v
  | push seq value => exact a.push_moves seq value
  | append dst src => exact a.append_moves dst src
  | flatten h => exact a.flatten_moves h
  | writeBytes h offset data => exact a.writeBytes_moves h offset data
  | setPayload tag h value => exact a.setPayload_moves tag h value

/-- The arenas that runs lead to from a new one, whatever room was set aside in it. -/
def Built (a : Arena) : Prop :=
  ∃ r b, withRoom r = .ok b ∧ ∃ ops : List Op, b.after ops = a

/-- What holds of the empty arena and is preserved by every move holds of every arena that is
built. -/
theorem after_induction {P : Arena → Prop} (start : P empty)
    (step : ∀ {a b}, Move a b → P a → P b) (ops : List Op) : P (empty.after ops) := by
  -- over runs from any arena with the property, since the first operation leads to another one
  suffices h : ∀ a, P a → P (a.after ops) from h empty start
  induction ops with
  | nil => exact fun a ha => ha
  | cons op ops ih =>
    intro a ha
    rw [after_cons]
    apply ih
    cases op with
    | ask q => exact ha
    | change u =>
      by_cases hu : u = .clear
      · subst hu
        exact start
      · exact (run_moves a hu).preserve step ha

theorem Built.induction {P : Arena → Prop} (start : P empty)
    (step : ∀ {a b}, Move a b → P a → P b) {a : Arena} (ha : Built a) : P a := by
  obtain ⟨r, b, hroom, ops, rfl⟩ := ha
  obtain ⟨-, rfl⟩ := withRoom_eq_ok_iff.mp hroom
  exact after_induction start step ops

theorem built_after (ops : List Op) : Built (empty.after ops) := ⟨{}, empty, rfl, ops, rfl⟩

end Arena

end TokenStore
