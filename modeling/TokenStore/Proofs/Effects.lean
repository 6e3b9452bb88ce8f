import TokenStore.Proofs.Refusal

/-!
# Effects

What an operation can do to a store of cells is little. It may clear it; otherwise it adds cells
behind the others, puts one cell in the place of another, or leaves all as it is. Which cells these
are is told here once, and what holds of every effect holds of every operation.

## Main definitions

* `Update.cell?`: the cell that an operation is to add.
* `Update.target?`: the token that an operation changes in place.
* `Cells.Effect`: how an operation can end.
-/

namespace TokenStore

namespace Update

/-- The cell that an operation adds, if it succeeds. -/
def cell? : Update → Option Cell
  | addSeq | addSeqReserving _ => some (.seq [])
  | addZeros length => some (.bytes (List.replicate length 0))
  | addBytes data => some (.bytes data)
  | addSint value => some (.sint value)
  | addUint value => some (.uint value)
  | addUser tag value => some (.user tag value)
  | _ => none

/-- The token that an operation changes in place, if it succeeds. -/
def target? : Update → Option Handle
  | push seq _ => some seq
  | append dst _ => some dst
  | writeBytes h _ _ => some h
  | setPayload _ h _ => some h
  | _ => none

theorem elements?_of_cell? {u : Update} {x : Cell} (hx : u.cell? = some x) :
    x.elements?.getD [] = [] := by
  cases u <;> cases hx <;> rfl

theorem target?_of_cell? {u : Update} {x : Cell} (hx : u.cell? = some x) : u.target? = none := by
  cases u <;> cases hx <;> rfl

end Update

namespace Cells

/-- How an operation can end: what it answers, and what it leaves of the cells. -/
inductive Effect (cs : Cells) : Update → Except Failure Answer × Cells → Prop where
  | cleared : Effect cs .clear (.ok .done, [])
  | refused {u : Update} (hu : u ≠ .clear) (e : Failure) : Effect cs u (.error e, cs)
  | added {u : Update} {x : Cell} (hx : u.cell? = some x) :
      Effect cs u (.ok (.handle ⟨cs.length⟩), cs ++ [x])
  | imported {v : Json} {xs : List Cell} (hxs : v.Block cs.length xs) :
      Effect cs (.addJson v) (.ok (.handle ⟨cs.length⟩), cs ++ xs)
  /-- An import that is refused leaves what it has made before. -/
  | torn {v : Json} {path : List Nat} {f : ImportFault} {xs : List Cell}
      (hxs : v.Torn 0 cs.length path f xs) :
      Effect cs (.addJson v) (.error (f.failureAt path), cs ++ xs)
  | flattened {h : Handle} {ls : List Handle} (hls : cs.links.leavesWithin cs.length h = .ok ls) :
      Effect cs (.flatten h) (.ok (.handle ⟨cs.length⟩), cs ++ [.seq ls])
  | pushed {seq value : Handle} {es : List Handle} (hes : cs[seq.index]? = some (.seq es)) :
      Effect cs (.push seq value) (.ok .done, cs.put seq (.seq (es ++ [value])))
  | appended {dst src : Handle} {es more : List Handle} (hes : cs[dst.index]? = some (.seq es))
      (hmore : cs[src.index]? = some (.seq more)) :
      Effect cs (.append dst src) (.ok .done, cs.put dst (.seq (es ++ more)))
  | written {h : Handle} {offset : Nat} {data old new : List UInt8}
      (hold : cs[h.index]? = some (.bytes old)) :
      Effect cs (.writeBytes h offset data) (.ok (.fits true), cs.put h (.bytes new))
  /-- What is to be written reaches past the end. -/
  | unfit {h : Handle} {offset : Nat} {data : List UInt8} :
      Effect cs (.writeBytes h offset data) (.ok (.fits false), cs)
  | stored {tag : Tag} {h : Handle} {old value : Payload}
      (hold : cs[h.index]? = some (.user tag old)) (htype : old.type = value.type) :
      Effect cs (.setPayload tag h value) (.ok .done, cs.put h (.user tag value))

/-- Every operation has one of the effects. -/
theorem effect_update (cs : Cells) (u : Update) : cs.Effect u (cs.update u) := by
  by_cases hu : u = .clear
  · subst hu
    exact .cleared
  cases u with
  | clear => exact absurd rfl hu
  | addSeq => exact .added rfl
  | addBytes data => exact .added rfl
  | addSint value => exact .added rfl
  | addUint value => exact .added rfl
  | addSeqReserving capacity =>
    simp only [update, dress, addSeqReserving]
    split
    · exact .refused hu _
    · exact .added rfl
  | addZeros length =>
    simp only [update, dress, addZeros]
    split
    · exact .refused hu _
    · split
      · exact .refused hu _
      · exact .added rfl
  | addUser tag value =>
    simp only [update, dress, addUser]
    split
    · exact .added rfl
    · exact .refused hu _
  | addJson v =>
    simp only [update, dress]
    rcases hadd : cs.addValue 0 v with ⟨e | root, cs'⟩
    · obtain ⟨path, f, xs, htorn, rfl, rfl⟩ := addValue_of_error v 0 hadd
      exact .torn htorn
    · obtain ⟨-, rfl, xs, hblock, rfl⟩ := addValue_of_ok v 0 hadd
      exact .imported hblock
  | push seq value =>
    simp only [update, dress, push]
    split
    next es hes => exact .pushed (elementsOf_eq_ok_iff.mp hes)
    next => exact .refused hu _
  | append dst src =>
    simp only [update, dress, append]
    split
    next es hes =>
      split
      next more hmore =>
        exact .appended (elementsOf_eq_ok_iff.mp hes) (elementsOf_eq_ok_iff.mp hmore)
      next => exact .refused hu _
    next => exact .refused hu _
  | flatten h =>
    simp only [update, dress, flatten]
    split
    next ls hls => exact .flattened hls
    next => exact .refused hu _
  | writeBytes h offset data =>
    simp only [update, dress, writeBytes]
    split
    next old hold =>
      split
      · exact .written (bytesOf_eq_ok_iff.mp hold)
      · exact .unfit
    next => exact .refused hu _
  | setPayload tag h value =>
    simp only [update, dress, setPayload]
    split
    next old hold =>
      obtain ⟨hcell, htype⟩ := payloadOf_eq_ok_iff.mp hold
      exact .stored hcell htype
    next => exact .refused hu _

variable {cs : Cells} {u : Update} {r : Except Failure Answer × Cells} {h : Handle} {x : Cell}

/-- Cells are added behind the others, or one is put in the place of the target. -/
theorem Effect.shape (heffect : cs.Effect u r) (hu : u ≠ .clear) :
    (∃ xs, r.2 = cs ++ xs) ∨ ∃ k y, u.target? = some k ∧ r.2 = cs.put k y := by
  cases heffect with
  | cleared => exact absurd rfl hu
  | refused | unfit => exact .inl ⟨[], (List.append_nil cs).symm⟩
  | added | imported | torn | flattened => exact .inl ⟨_, rfl⟩
  | pushed | appended | written | stored => exact .inr ⟨_, _, rfl, rfl⟩

theorem getElem?_put_of_ne {k : Handle} (hne : k ≠ h) (y : Cell) :
    (cs.put k y)[h.index]? = cs[h.index]? :=
  List.getElem?_set_ne fun heq => hne (congrArg Handle.mk heq)

/-- A cell that is not the target stays. -/
theorem Effect.keeps (heffect : cs.Effect u r) (hu : u ≠ .clear) (htarget : u.target? ≠ some h)
    (hx : cs[h.index]? = some x) : r.2[h.index]? = some x := by
  rcases heffect.shape hu with ⟨xs, hxs⟩ | ⟨k, y, hk, hput⟩
  · rw [hxs, getElem?_append_of_some hx]
  · have hne : k ≠ h := fun heq => htarget (heq ▸ hk)
    rw [hput, getElem?_put_of_ne hne, hx]

end Cells

end TokenStore
