import TokenStore.Proofs.Cells.Writes
import TokenStore.Proofs.Frame
import TokenStore.Proofs.Reimport

/-!
# Operations that commute

Two operations that each change a token in place can be exchanged if these are different tokens and
neither operation copies the elements of the other one's. No two tokens share what they name, so
that the changes do not meet in any store.

## Main definitions

* `Edit`: a change of what one token names.
* `Update.edit`: the edit that an operation amounts to.
-/

namespace TokenStore

/-- A change in place. -/
inductive Edit where
  | keep
  | grow (id : ListId) (hs : List Handle)
  | write (start : Nat) (data : List UInt8)
  | replace (slot : Nat) (value : Payload)

namespace Edit

def apply (a : Arena) : Edit → Arena
  | keep => a
  | grow id hs => { a with lists := a.lists.modify id.index (·.append hs) }
  | write start data => { a with pool := Arena.overwrite a.pool start data }
  | replace slot value => { a with payloads := a.payloads.setIfInBounds slot value }

/-- The edit changes nothing but what the token names. -/
def Within (t : Token) : Edit → Prop
  | keep => True
  | grow id _ => t = .sequence id
  | write start data => ∃ s, t = .bytes s ∧ s.start ≤ start ∧ start + data.length ≤ s.stop
  | replace slot _ => ∃ tag, t = .user tag slot

variable (E : Edit) (a : Arena) (h : Handle)

theorem listOf_apply : (E.apply a).listOf h = a.listOf h := by cases E <;> rfl

theorem spanOf_apply : (E.apply a).spanOf h = a.spanOf h := by cases E <;> rfl

theorem slotOf_apply (tag : Tag) : (E.apply a).slotOf tag h = a.slotOf tag h := by cases E <;> rfl

end Edit

namespace Update

/-- The sequence whose elements an operation copies. -/
def source? : Update → Option Handle
  | append _ src => some src
  | _ => none

/-- What an operation answers, and its edit of the token that it is given to change. Where it is
given none, it edits nothing. -/
def edit (a : Arena) : Update → Except Failure (Answer × Edit)
  | push seq value => do
    let id ← a.listOf seq
    return (.done, .grow id [value])
  | append dst src => do
    let id ← a.listOf dst
    let e ← a.elementsOf src
    return (.done, .grow id e.toList)
  | writeBytes h offset data => do
    let span ← a.spanOf h
    if offset + data.length ≤ span.length then
      return (.fits true, .write (span.start + offset) data)
    else
      return (.fits false, .keep)
  | setPayload tag h value => do
    let (slot, _) ← a.findUser tag value.type h
    return (.done, .replace slot value)
  | u => (·, .keep) <$> (u.run a).1

end Update

namespace Arena

variable {a : Arena} {u v : Update} {h k : Handle} {t t' : Token} {E F : Edit} {x : Answer}

theorem overwrite_comm {pool : Array UInt8} {start start' : Nat} {data data' : List UInt8}
    (h : start + data.length ≤ start' ∨ start' + data'.length ≤ start) :
    overwrite (overwrite pool start data) start' data' =
      overwrite (overwrite pool start' data') start data := by
  apply Array.ext_getElem?
  intro i
  simp only [getElem?_overwrite, size_overwrite]
  grind

theorem modify_comm {α : Type} {xs : Array α} {i j : Nat} (h : i ≠ j) (f g : α → α) :
    (xs.modify i f).modify j g = (xs.modify j g).modify i f := by
  apply Array.ext_getElem?
  intro n
  simp only [Array.getElem?_modify]
  grind

namespace Layout

/-! ## Operations as edits -/

theorem modifyList_eq_grow (ha : a.Layout) {id : ListId} (hid : a.listOf h = .ok id)
    (hs : List Handle) :
    a.modifyList id (·.append hs) = (.ok (), (Edit.grow id hs).apply a) :=
  if_pos (ha.list_lt (listOf_eq_ok_iff.mp hid))

theorem run_eq_edit (ha : a.Layout) (hu : u.target? = some h) :
    u.run a =
      match u.edit a with
      | .ok (x, E) => (.ok x, E.apply a)
      | .error e => (.error e, a) := by
  cases u with
  | push seq value =>
    simp only [Update.run, Update.attempt, Update.edit, push]
    cases hid : a.listOf seq with
    | error e => rfl
    | ok id =>
      -- to push a handle is to append it
      have hgrow : a.modifyList id (·.push value) = _ := ha.modifyList_eq_grow hid [value]
      simp [hgrow]
  | append dst src =>
    simp only [Update.run, Update.attempt, Update.edit, append]
    cases hid : a.listOf dst with
    | error e => rfl
    | ok id =>
      cases a.elementsOf src with
      | error e => rfl
      | ok e => simp [ha.modifyList_eq_grow hid]
  | writeBytes k offset data =>
    simp only [Update.run, Update.attempt, Update.edit, writeBytes]
    cases hs : a.spanOf k with
    | error e => rfl
    | ok s =>
      have hwithin := ha.span_within (spanOf_eq_ok_iff.mp hs)
      by_cases hfit : offset + data.length ≤ s.length <;> simp [hwithin, hfit, Edit.apply]
  | setPayload tag k value =>
    simp only [Update.run, Update.attempt, Update.edit, setPayload]
    cases a.findUser tag value.type k <;> rfl
  | _ => cases hu

/-- An operation edits the token that it is given, and no other. -/
theorem within_of_edit (ha : a.Layout) (hu : u.target? = some h) (hE : u.edit a = .ok (x, E)) :
    ∃ t, a.token h = .ok t ∧ E.Within t := by
  cases u with
  | push seq value =>
    cases hu
    obtain ⟨id, hid, hE⟩ := Outcome.bind_eq_ok_iff.mp hE
    cases hE
    exact ⟨_, listOf_eq_ok_iff.mp hid, rfl⟩
  | append dst src =>
    cases hu
    obtain ⟨id, hid, hE⟩ := Outcome.bind_eq_ok_iff.mp hE
    obtain ⟨e, he, hE⟩ := Outcome.bind_eq_ok_iff.mp hE
    cases hE
    exact ⟨_, listOf_eq_ok_iff.mp hid, rfl⟩
  | writeBytes k offset data =>
    cases hu
    obtain ⟨s, hs, hE⟩ := Outcome.bind_eq_ok_iff.mp hE
    have ht := spanOf_eq_ok_iff.mp hs
    refine ⟨_, ht, ?_⟩
    split at hE
    next hfit =>
      cases hE
      have hwithin := ha.span_within ht
      unfold Span.length at hfit
      exact ⟨s, rfl, by omega, by omega⟩
    next =>
      cases hE
      trivial
  | setPayload tag k value =>
    cases hu
    obtain ⟨⟨slot, old⟩, hfound, hE⟩ := Outcome.bind_eq_ok_iff.mp hE
    cases hE
    exact ⟨_, (findUser_eq_ok_iff.mp hfound).1, tag, rfl⟩
  | _ => cases hu

/-! ## What an edit leaves alone -/

theorem elementsOf_apply (ha : a.Layout) (hk : a.token k = .ok t) (hE : E.Within t) (hne : h ≠ k) :
    (E.apply a).elementsOf h = a.elementsOf h := by
  simp only [elementsOf, Edit.listOf_apply]
  cases hid : a.listOf h with
  | error e => rfl
  | ok id =>
    cases E with
    | grow id' hs =>
      cases hE
      have hid' := ha.list_ne hk (listOf_eq_ok_iff.mp hid) hne.symm
      simp [list, Edit.apply, Array.getElem?_modify, hid']
    | _ => rfl

theorem findUser_apply (ha : a.Layout) (hk : a.token k = .ok t) (hE : E.Within t) (hne : h ≠ k)
    (tag : Tag) (asked : PayloadType) :
    (E.apply a).findUser tag asked h = a.findUser tag asked h := by
  simp only [findUser, Edit.slotOf_apply]
  cases hid : a.slotOf tag h with
  | error e => rfl
  | ok slot =>
    cases E with
    | replace slot' value =>
      obtain ⟨tag', rfl⟩ := hE
      have hslot' := ha.slot_ne hk (slotOf_eq_ok_iff.mp hid) hne.symm
      simp [payload, Edit.apply, hslot']
    | _ => rfl

/-- The edit of one token has no part in what an operation does to another one. -/
theorem edit_apply (ha : a.Layout) (hk : a.token k = .ok t) (hE : E.Within t)
    (hu : u.target? = some h) (hne : h ≠ k) (hsrc : u.source? ≠ some k) :
    u.edit (E.apply a) = u.edit a := by
  cases u with
  | push seq value => simp only [Update.edit, Edit.listOf_apply]
  | append dst src =>
    have hsrc' : src ≠ k := fun heq => hsrc (congrArg some heq)
    simp only [Update.edit, Edit.listOf_apply, ha.elementsOf_apply hk hE hsrc']
  | writeBytes h offset data => simp only [Update.edit, Edit.spanOf_apply]
  | setPayload tag h value =>
    cases hu
    simp only [Update.edit, ha.findUser_apply hk hE hne]
  | _ => cases hu

/-! ## Edits of different tokens -/

theorem apply_comm (ha : a.Layout) (hh : a.token h = .ok t) (hk : a.token k = .ok t')
    (hE : E.Within t) (hF : F.Within t') (hne : h ≠ k) :
    F.apply (E.apply a) = E.apply (F.apply a) := by
  cases E <;> cases F
  case grow.grow id hs id' hs' =>
    cases hE
    cases hF
    simp only [Edit.apply, modify_comm (ha.list_ne hh hk hne)]
  case write.write start data start' data' =>
    obtain ⟨s, rfl, hlower, hupper⟩ := hE
    obtain ⟨s', rfl, hlower', hupper'⟩ := hF
    have hapart : start + data.length ≤ start' ∨ start' + data'.length ≤ start := by
      have hdisjoint := ha.span_disjoint hh hk hne
      omega
    simp only [Edit.apply, overwrite_comm hapart]
  case replace.replace slot value slot' value' =>
    obtain ⟨tag, rfl⟩ := hE
    obtain ⟨tag', rfl⟩ := hF
    simp only [Edit.apply, Array.setIfInBounds_comm _ _ (ha.slot_ne hh hk hne)]
  all_goals rfl

/-- An operation amounts to the same edit after one on another token. -/
theorem edit_run (ha : a.Layout) (hu : u.target? = some h) (hv : v.target? = some k) (hne : h ≠ k)
    (hsrc : v.source? ≠ some h) : v.edit (u.run a).2 = v.edit a := by
  rw [ha.run_eq_edit hu]
  split
  next x E hE =>
    obtain ⟨t, ht, hwithin⟩ := ha.within_of_edit hu hE
    exact ha.edit_apply ht hwithin hv hne.symm hsrc
  next => rfl

end Layout

/-- Two operations that change different tokens in place, neither of which copies the elements of
the other one's, have the same answers and lead to the same arena in either order, whether or not
they succeed. -/
theorem run_comm (ha : a.Built) (hu : u.target? = some h) (hv : v.target? = some k) (hne : h ≠ k)
    (husrc : u.source? ≠ some k) (hvsrc : v.source? ≠ some h) :
    (v.run (u.run a).2).1 = (v.run a).1 ∧ (u.run (v.run a).2).1 = (u.run a).1 ∧
      (v.run (u.run a).2).2 = (u.run (v.run a).2).2 := by
  have ha := ha.layout
  have hlater : v.run (u.run a).2 = _ := (ha.run (.change u)).run_eq_edit hv
  have hlater' : u.run (v.run a).2 = _ := (ha.run (.change v)).run_eq_edit hu
  rw [Op.run, ha.edit_run hu hv hne hvsrc] at hlater
  rw [Op.run, ha.edit_run hv hu hne.symm husrc] at hlater'
  rw [hlater, hlater', ha.run_eq_edit hu, ha.run_eq_edit hv]
  rcases hE : u.edit a with e | ⟨x, E⟩ <;> rcases hF : v.edit a with f | ⟨y, F⟩
  case ok.ok =>
    obtain ⟨t, ht, hwithin⟩ := ha.within_of_edit hu hE
    obtain ⟨t', ht', hwithin'⟩ := ha.within_of_edit hv hF
    exact ⟨rfl, rfl, ha.apply_comm ht ht' hwithin hwithin' hne⟩
  -- what fails leaves the arena as it is
  all_goals exact ⟨rfl, rfl, rfl⟩

/-- Two sequences are doubled. -/
theorem run_comm_doubling :
    let u : Update := .append ⟨2⟩ ⟨2⟩
    let v : Update := .append ⟨3⟩ ⟨3⟩
    let b := (v.run (u.run mixed).2).2
    b = (u.run (v.run mixed).2).2 ∧
      b.links ⟨2⟩ = .ok (some [⟨0⟩, ⟨0⟩]) ∧ b.links ⟨3⟩ = .ok (some [⟨0⟩, ⟨1⟩, ⟨0⟩, ⟨1⟩]) := by
  intro u v b
  have hcomm := run_comm (a := mixed) (built_after _) (u := u) (v := v) rfl rfl (by decide)
    (by decide) (by decide)
  exact ⟨hcomm.2.2, by decide +kernel, by decide +kernel⟩

-- what is appended must not be what the other operation changes
example :
    let u : Update := .append ⟨2⟩ ⟨3⟩
    let v : Update := .push ⟨3⟩ ⟨0⟩
    (v.run (u.run mixed).2).2 ≠ (u.run (v.run mixed).2).2 := by
  decide +kernel

end Arena

end TokenStore
