import TokenStore.Proofs.Frame

/-!
# What applications store

A journal of a run has every operation with its answer. It says of every token of an application
under which tag it was made, with which value, and which value was stored in it last. A reading
gives that value back if it asks for the tag and for the type of the value that the token was made
with, whatever else is done in between.

## Main definitions

* `Arena.journal`: the operations of a run with their answers.
* `Deposit`, `Deposit.ofJournal`: what a journal says of a token.
* `Deposit.Settles`: how a request for an application's value ends.
-/

namespace TokenStore

/-- A token with a built-in tag is of that kind, and every other token is an application's. -/
structure Token.WellTagged (t : Token) : Prop where
  bytes : t.tag = Tag.bytes → ∃ span, t = .bytes span
  sint : t.tag = Tag.sint → ∃ value, t = .sint value
  uint : t.tag = Tag.uint → ∃ value, t = .uint value
  sequence : t.tag = Tag.sequence → ∃ id, t = .sequence id
  user : t.tag ∉ [Tag.bytes, Tag.sint, Tag.uint, Tag.sequence] →
    64 ≤ t.tag.code.toNat ∧ ∃ slot, t = .user t.tag slot

/-- An operation and what it answered. -/
abbrev Entry : Type := Op × Except Failure Answer

/-- The operations of a run with their answers, oldest first. -/
def Arena.journal : Arena → List Op → List Entry
  | _, [] => []
  | a, op :: ops => (op, (op.run a).1) :: journal (op.run a).2 ops

/-- What an application knows of a token that it has made: the tag, and the values that it stored
first and last. -/
structure Deposit where
  tag : Tag
  first : Payload
  last : Payload

namespace Deposit

/-- What is known of the token `h` after one more entry. -/
def note (h : Handle) (known : Option Deposit) : Entry → Option Deposit
  | (.change .clear, _) => none
  | (.change (.addUser tag value), .ok (.handle k)) =>
    if k = h then some ⟨tag, value, value⟩ else known
  | (.change (.setPayload _ k value), .ok _) =>
    if k = h then known.map ({ · with last := value }) else known
  | _ => known

/-- What a journal says of the token `h`; nothing if the token is not an application's. -/
def ofJournal (h : Handle) (entries : List Entry) : Option Deposit := entries.foldl (note h) none

/-- A request for the value under `tag` as one of type `asked`, made of the token `t`, ends with the
first of three checks that fails, or else with what `found` makes of the value that was stored
last. -/
structure Settles {α : Type} (t : Token) (known : Option Deposit) (tag : Tag) (asked : PayloadType)
    (found : Payload → α) (r : Except Failure α) : Prop where
  wrongKind : r = .error (.misuse (.wrongKind tag t.tag)) ↔ t.tag ≠ tag
  /-- Only a built-in token has no slot. -/
  reserved : r = .error (.misuse (.reservedTag tag)) ↔ t.tag = tag ∧ t.slot? = none
  wrongPayload :
    r = .error (.misuse (.wrongPayload tag asked)) ↔
      t.tag = tag ∧ ∃ d, known = some d ∧ d.first.type ≠ asked
  ok : ∀ x, r = .ok x ↔
    t.tag = tag ∧ ∃ d, known = some d ∧ d.first.type = asked ∧ found d.last = x

variable {t : Token} {known : Option Deposit} {tag : Tag} {asked : PayloadType}

theorem Settles.map {α β : Type} {found : Payload → α} {r : Except Failure α}
    (hr : Settles t known tag asked found r) (f : α → β) :
    Settles t known tag asked (f ∘ found) (f <$> r) := by
  have herror : ∀ e, f <$> r = .error e ↔ r = .error e := by
    intro e
    cases r <;> simp
  refine ⟨?_, ?_, ?_, fun y => ?_⟩
  · rw [herror, hr.wrongKind]
  · rw [herror, hr.reserved]
  · rw [herror, hr.wrongPayload]
  · have hok : f <$> r = .ok y ↔ ∃ x, r = .ok x ∧ f x = y := by cases r <;> simp
    grind [hr.ok]

end Deposit

theorem Arena.journal_append (a : Arena) (ops more : List Op) :
    a.journal (ops ++ more) = a.journal ops ++ (a.after ops).journal more := by
  induction ops generalizing a with
  | nil => rfl
  | cons op ops ih => simp [journal, ih]

namespace Deposit

variable {cs : Cells} {h : Handle} {known : Option Deposit}

theorem ofJournal_append (h : Handle) (entries more : List Entry) :
    ofJournal h (entries ++ more) = more.foldl (note h) (ofJournal h entries) := List.foldl_append

/-! ## What is known fits the cells -/

/-- What is known of a token is what its cell holds. -/
def Fits (cell : Option Cell) : Option Deposit → Prop
  | none => ∀ tag value, cell ≠ some (.user tag value)
  | some d => cell = some (.user d.tag d.last) ∧ d.last.type = d.first.type

theorem Fits.of_cell {x : Cell} (hknown : Fits (some x) known) :
    (known = none ∧ x.payload? = none) ∨
      ∃ d, known = some d ∧ x = .user d.tag d.last ∧ d.last.type = d.first.type := by
  cases known with
  | some d => exact .inr ⟨d, rfl, Option.some.inj hknown.1, hknown.2⟩
  | none =>
    cases x with
    | user tag value => exact absurd rfl (hknown tag value)
    | _ => exact .inl ⟨rfl, rfl⟩

/-- Cells behind the others, none of them an application's, change nothing about what is known. -/
theorem Fits.append (hknown : Fits cs[h.index]? known) {xs : List Cell}
    (hxs : ∀ x ∈ xs, x.payload? = none) : Fits (cs ++ xs)[h.index]? known := by
  cases known with
  | some d =>
    obtain ⟨hcell, htype⟩ := hknown
    exact ⟨Cells.getElem?_append_of_some hcell xs, htype⟩
  | none =>
    intro tag value hcell
    by_cases hlt : h.index < cs.length
    · rw [List.getElem?_append_left hlt] at hcell
      exact hknown tag value hcell
    · rw [List.getElem?_append_right (Nat.le_of_not_lt hlt)] at hcell
      cases hxs _ (List.mem_of_getElem? hcell)

/-- Nor does a change of a token that is built in. -/
theorem Fits.put (hknown : Fits cs[h.index]? known) {k : Handle} {x y : Cell}
    (hx : cs[k.index]? = some x) (hold : x.payload? = none) (hnew : y.payload? = none) :
    Fits (cs.put k y)[h.index]? known := by
  by_cases hk : k = h
  · subst hk
    obtain ⟨hlt, -⟩ := List.getElem?_eq_some_iff.mp hx
    have hput : (cs.put k y)[k.index]? = some y := by simp [Cells.put, hlt]
    cases known with
    | some d =>
      cases hx.symm.trans hknown.1
      cases hold
    | none =>
      intro tag value hcell
      cases hput.symm.trans hcell
      cases hnew
  · rwa [Cells.getElem?_put_of_ne hk]

/-- What was not done is not noted. -/
theorem note_error {u : Update} (hu : u ≠ .clear) (e : Failure) :
    note h known (.change u, .error e) = known := by
  cases u with
  | clear => exact absurd rfl hu
  | _ => rfl

/-- An added cell is noted if it is an application's. -/
theorem Fits.added (hknown : Fits cs[h.index]? known) {u : Update} {x : Cell}
    (hx : u.cell? = some x) :
    Fits (cs ++ [x])[h.index]? (note h known (.change u, .ok (.handle ⟨cs.length⟩))) := by
  cases u with
  | addUser tag value =>
    cases hx
    rw [note]
    by_cases hnew : (⟨cs.length⟩ : Handle) = h
    · subst hnew
      rw [if_pos rfl]
      exact ⟨List.getElem?_concat_length, rfl⟩
    · have hne : h.index ≠ cs.length := fun heq => hnew (congrArg Handle.mk heq.symm)
      have hsame : (cs ++ [Cell.user tag value])[h.index]? = cs[h.index]? := by grind
      rwa [if_neg hnew, hsame]
  | _ =>
    cases hx <;> exact hknown.append (List.forall_mem_singleton.mpr rfl)

/-- A value that is stored in the place of another of its type is the last one. -/
theorem Fits.stored (hknown : Fits cs[h.index]? known) {tag : Tag} {k : Handle}
    {old value : Payload} (hold : cs[k.index]? = some (.user tag old))
    (htype : old.type = value.type) :
    Fits (cs.put k (.user tag value))[h.index]?
      (note h known (.change (.setPayload tag k value), .ok .done)) := by
  rw [note]
  by_cases hk : k = h
  · subst hk
    obtain ⟨hlt, -⟩ := List.getElem?_eq_some_iff.mp hold
    rw [if_pos rfl]
    cases known with
    | none => exact absurd hold (hknown tag old)
    | some d =>
      cases hold.symm.trans hknown.1
      exact ⟨by simp [Cells.put, hlt], htype.symm.trans hknown.2⟩
  · rwa [if_neg hk, Cells.getElem?_put_of_ne hk]

/-- One step: what is known of a token goes along with its cell. -/
theorem fits_update (hknown : Fits cs[h.index]? known) (u : Update) :
    Fits (cs.update u).2[h.index]? (note h known (.change u, (cs.update u).1)) := by
  have heffect := cs.effect_update u
  generalize cs.update u = r at heffect ⊢
  cases heffect with
  | cleared => exact fun _ _ => by simp
  | refused hu e => rwa [note_error hu]
  | added hx => exact hknown.added hx
  | imported hxs => exact hknown.append hxs.payload?_eq_none
  | torn hxs => exact hknown.append hxs.payload?_eq_none
  | flattened => exact hknown.append (List.forall_mem_singleton.mpr rfl)
  | pushed hes => exact hknown.put hes rfl rfl
  | appended hes => exact hknown.put hes rfl rfl
  | written hold => exact hknown.put hold rfl rfl
  | unfit => exact hknown
  | stored hold htype => exact hknown.stored hold htype

/-- An operation that does not clear the arena leaves it open neither under which tag a token was
made, nor with which value. -/
theorem note_origin (known : Option Deposit) (hlt : h.index < cs.length) {u : Update}
    (hu : u ≠ .clear) :
    (note h known (.change u, (cs.update u).1)).map (fun d => (d.tag, d.first)) =
      known.map fun d => (d.tag, d.first) := by
  have heffect := cs.effect_update u
  generalize cs.update u = r at heffect ⊢
  cases heffect with
  | cleared => exact absurd rfl hu
  | refused hu e => rw [note_error hu]
  | @added u x hx =>
    have hother : (⟨cs.length⟩ : Handle) ≠ h := by
      rintro rfl
      exact absurd hlt (Nat.lt_irrefl _)
    cases u with
    | addUser tag value => simp [note, hother]
    | _ => cases hx <;> rfl
  | @stored tag k old value =>
    by_cases hk : k = h
    · simp [note, hk, Function.comp_def]
    · simp [note, hk]
  | _ => rfl

end Deposit

namespace Arena

variable {a : Arena} {h : Handle} {t : Token}

/-! ## What is known after a run -/

theorem Move.mem_handles {b : Arena} (hmove : Move a b) (hh : h ∈ a.handles) : h ∈ b.handles := by
  rw [Arena.mem_handles, size] at hh ⊢
  cases hmove with
  | bytes data =>
    rw [addBytes_eq, Array.size_push]
    omega
  | user tag value htag =>
    rw [addUser_eq a htag, Array.size_push]
    omega
  | _ => grind [addSint_eq, addUint_eq, addList_eq]

theorem ofJournal_concat (ops : List Op) (op : Op) (h : Handle) :
    Deposit.ofJournal h (empty.journal (ops ++ [op])) =
      Deposit.note h (Deposit.ofJournal h (empty.journal ops))
        (op, (op.run (empty.after ops)).1) := by
  rw [journal_append, Deposit.ofJournal_append]
  rfl

/-- What a journal says of a token is what the arena holds of it. -/
theorem fits_ofJournal (ops : List Op) (h : Handle) :
    Deposit.Fits (empty.after ops).cells[h.index]? (Deposit.ofJournal h (empty.journal ops)) := by
  induction ops using List.reverseRecOn with
  | nil => exact fun _ _ => by simp [empty, cells]
  | append_singleton ops op ih =>
    rw [ofJournal_concat, after_append, after_cons, after_nil]
    cases op with
    | ask q => exact ih
    | change u =>
      have hstep := Deposit.fits_update ih u
      rwa [← (built_after ops).layout.seen_run u] at hstep

/-- A token stays in the arena until it is cleared, and stays what it was made as. -/
theorem ofJournal_origin {ops : List Op} (hh : h ∈ (empty.after ops).handles) {more : List Op}
    (hmore : .change .clear ∉ more) :
    h ∈ (empty.after (ops ++ more)).handles ∧
      (Deposit.ofJournal h (empty.journal (ops ++ more))).map (fun d => (d.tag, d.first)) =
        (Deposit.ofJournal h (empty.journal ops)).map fun d => (d.tag, d.first) := by
  induction more using List.reverseRecOn with
  | nil => simpa using hh
  | append_singleton more op ih =>
    rw [List.mem_append, not_or, List.mem_singleton] at hmore
    obtain ⟨hissued, hsame⟩ := ih hmore.1
    rw [← List.append_assoc, ofJournal_concat, after_append, after_cons, after_nil]
    cases op with
    | ask q => exact ⟨hissued, hsame⟩
    | change u =>
      have hu : u ≠ .clear := fun heq => hmore.2 (heq ▸ rfl)
      have ha := (built_after (ops ++ more)).layout
      have hlt : h.index < (empty.after (ops ++ more)).cells.length := by
        rwa [length_cells, ← mem_handles]
      constructor
      · exact (run_moves _ hu).preserve Move.mem_handles hissued
      · have hkept := Deposit.note_origin (Deposit.ofJournal h (empty.journal (ops ++ more))) hlt hu
        rw [← ha.seen_run u] at hkept
        exact hkept.trans hsame

/-! ## How requests end -/

theorem cells_of_token (ht : a.token h = .ok t) : a.cells[h.index]? = some (a.cell t) :=
  Cells.find_eq_ok_iff.mp (by rw [find_cells, ht, Outcome.map_ok])

theorem Layout.wellTagged (ha : a.Layout) (ht : a.token h = .ok t) : t.WellTagged := by
  obtain ⟨hsequence, hbytes, hsint, huint⟩ := ha.kind_of_tag ht
  refine ⟨hbytes, hsint, huint, hsequence, fun hother => ?_⟩
  cases t with
  | user tag slot => exact ⟨ha.tag_le ht, slot, rfl⟩
  | _ => simp [Token.tag] at hother

/-- No reading or writing of a known kind comes upon a token that only has the tag of its kind. -/
theorem Layout.ne_mistagged (ha : a.Layout) (ht : a.token h = .ok t) (tag : Tag) :
    a.listOf h ≠ .error (.mistagged tag) ∧ a.bytesOf h ≠ .error (.mistagged tag) ∧
      (∀ offset data, (a.writeBytes h offset data).1 ≠ .error (.mistagged tag)) ∧
      a.sintOf h ≠ .error (.mistagged tag) ∧ a.uintOf h ≠ .error (.mistagged tag) := by
  obtain ⟨hbytes, hsint, huint, hsequence, -⟩ := ha.wellTagged ht
  have hexpect (expected : Tag) :
      (t.tag = expected ∧ a.expect h expected = .ok t) ∨
        a.expect h expected = .error (.misuse (.wrongKind expected t.tag)) := by
    by_cases htag : t.tag = expected
    · exact .inl ⟨htag, expect_of_tag ht htag⟩
    · exact .inr (expect_of_ne ht htag)
  have hspan : a.spanOf h ≠ .error (.mistagged tag) := by
    obtain ⟨htag, hok⟩ | herror := hexpect Tag.bytes
    · obtain ⟨s, rfl⟩ := hbytes htag
      simp [spanOf, hok]
    · simp [spanOf, herror]
  refine ⟨?_, ?_, fun offset data => ?_, ?_, ?_⟩
  · obtain ⟨htag, hok⟩ | herror := hexpect Tag.sequence
    · obtain ⟨id, rfl⟩ := hsequence htag
      simp [listOf, hok]
    · simp [listOf, herror]
  · rw [bytesOf]
    cases hs : a.spanOf h with
    | error e => simpa [hs] using hspan
    | ok s =>
      rw [Outcome.ok_bind, slice]
      split <;> simp
  · rw [writeBytes]
    grind
  · obtain ⟨htag, hok⟩ | herror := hexpect Tag.sint
    · obtain ⟨value, rfl⟩ := hsint htag
      simp [sintOf, hok]
    · simp [sintOf, herror]
  · obtain ⟨htag, hok⟩ | herror := hexpect Tag.uint
    · obtain ⟨value, rfl⟩ := huint htag
      simp [uintOf, hok]
    · simp [uintOf, herror]

/-- The journal knows of a token, under its tag, exactly if it is an application's. -/
theorem tag_of_fits (ht : a.token h = .ok t) {known : Option Deposit}
    (hknown : Deposit.Fits a.cells[h.index]? known) :
    known.map Deposit.tag = t.slot?.map fun _ => t.tag := by
  rw [cells_of_token ht] at hknown
  obtain ⟨rfl, hnone⟩ | ⟨d, rfl, hd, -⟩ := hknown.of_cell
  · cases t with
    | user tag slot => cases hnone
    | _ => rfl
  · have htag : d.tag = t.tag := by rw [← tag_cell a t, hd, Cell.tag]
    cases t with
    | user tag slot => exact congrArg some htag
    | _ => cases hd

/-- A request is settled by the tag of the token, and by what is known of it. -/
theorem Layout.settles_payloadOf (ha : a.Layout) (ht : a.token h = .ok t) {known : Option Deposit}
    (hknown : Deposit.Fits a.cells[h.index]? known) (tag : Tag) (asked : PayloadType) :
    Deposit.Settles t known tag asked id (a.payloadOf tag asked h) := by
  have htied := tag_of_fits ht hknown
  rw [ha.payloadOf_cells, Cells.payloadOf, find_cells, ht, Outcome.map_ok, Outcome.ok_bind,
    tag_cell]
  rw [cells_of_token ht] at hknown
  obtain ⟨rfl, hnone⟩ | ⟨d, rfl, hd, htype⟩ := hknown.of_cell
  · have hbuiltin : t.slot? = none := by simpa using htied.symm
    by_cases hasked : t.tag = tag
    · constructor <;> simp [hasked, hnone, hbuiltin]
    · constructor <;> simp [hasked, hbuiltin, Cell.mismatch]
  · have huser : t.slot? ≠ none := by
      intro hbuiltin
      simp [hbuiltin] at htied
    have hpayload : (a.cell t).payload? = some d.last := by rw [hd]; rfl
    by_cases hasked : t.tag = tag
    · by_cases hfits : d.first.type = asked
      · constructor <;> simp [hasked, huser, hpayload, htype, hfits]
      · constructor <;> simp [hasked, huser, hpayload, htype, hfits]
    · constructor <;> simp [hasked, Cell.mismatch]

theorem setPayload_fst (a : Arena) (tag : Tag) (h : Handle) (value : Payload) :
    (a.setPayload tag h value).1 = (fun _ => ()) <$> a.payloadOf tag value.type h := by
  rw [setPayload, payloadOf]
  cases a.findUser tag value.type h <;> rfl

/-- The tag and the value that a token was made with decide which requests succeed. -/
theorem Layout.payloadOf_isOk_iff (ha : a.Layout) {known : Option Deposit}
    (hknown : Deposit.Fits a.cells[h.index]? known) (tag : Tag) (asked : PayloadType) :
    (∃ value, a.payloadOf tag asked h = .ok value) ↔
      ∃ first, known.map (fun d => (d.tag, d.first)) = some (tag, first) ∧ first.type = asked := by
  simp only [ha.payloadOf_cells, Cells.payloadOf_eq_ok_iff]
  cases known with
  | none =>
    have hother : ∀ value, a.cells[h.index]? ≠ some (.user tag value) := hknown tag
    simp [hother]
  | some d =>
    obtain ⟨hcell, htype⟩ := hknown
    rw [hcell]
    grind

/-- A token is told by its tag, at every point of every run. A request for an application's value,
to read it or to put another in its place, is refused for the first of these that does not hold: the
token has the tag, is an application's, and was made with a value of that type. Otherwise what is
found is the value stored in the token last. What was asked for with success can be until the arena
is cleared. -/
theorem payload_outcomes (ops : List Op) {h : Handle} (hh : h ∈ (empty.after ops).handles) :
    let a := empty.after ops
    let known := Deposit.ofJournal h (empty.journal ops)
    ∃ t, a.token h = .ok t ∧ t.WellTagged ∧ known.map Deposit.tag = t.slot?.map (fun _ => t.tag) ∧
      (∀ tag, a.listOf h ≠ .error (.mistagged tag) ∧ a.bytesOf h ≠ .error (.mistagged tag) ∧
        (∀ offset data, (a.writeBytes h offset data).1 ≠ .error (.mistagged tag)) ∧
        a.sintOf h ≠ .error (.mistagged tag) ∧ a.uintOf h ≠ .error (.mistagged tag)) ∧
      (∀ tag asked, Deposit.Settles t known tag asked id (a.payloadOf tag asked h)) ∧
      (∀ tag value,
        Deposit.Settles t known tag value.type (fun _ => ()) (a.setPayload tag h value).1) ∧
      ∀ more, .change .clear ∉ more → ∀ tag asked,
        (∃ value, a.payloadOf tag asked h = .ok value) ↔
          ∃ value, (a.after more).payloadOf tag asked h = .ok value := by
  intro a known
  have ha : a.Layout := (built_after ops).layout
  obtain ⟨t, ht⟩ := exists_token hh
  have hfits : Deposit.Fits a.cells[h.index]? known := fits_ofJournal ops h
  refine ⟨t, ht, ha.wellTagged ht, tag_of_fits ht hfits, ha.ne_mistagged ht,
    ha.settles_payloadOf ht hfits, fun tag value => ?_, fun more hmore tag asked => ?_⟩
  · rw [setPayload_fst]
    exact (ha.settles_payloadOf ht hfits tag value.type).map fun _ => ()
  · have hb := (built_after (ops ++ more)).layout
    have hlater := fits_ofJournal (ops ++ more) h
    obtain ⟨-, horigin⟩ := ofJournal_origin hh hmore
    have hafter : a.after more = empty.after (ops ++ more) := (after_append empty ops more).symm
    rw [hafter, ha.payloadOf_isOk_iff hfits, hb.payloadOf_isOk_iff hlater, horigin]

/-- Two tokens of an application, one with a value of a type of its own, read and written through
their own tag and through others. -/
def exchanged : List Op :=
  [.change (.addUser ⟨64⟩ (.uint 5)), .change (.addUint 7),
    .change (.addUser ⟨64⟩ (.named ⟨"u16", 0⟩ [5, 0])),
    .change (.setPayload ⟨64⟩ ⟨0⟩ (.uint 9)), .change (.setPayload ⟨64⟩ ⟨0⟩ .unit),
    .change (.setPayload ⟨65⟩ ⟨0⟩ (.uint 3)), .change (.setPayload Tag.uint ⟨1⟩ (.uint 3)),
    .change (.setPayload ⟨64⟩ ⟨2⟩ (.named ⟨"u16", 0⟩ [8, 0])), .ask (.payloadOf ⟨64⟩ .uint ⟨0⟩)]

theorem payload_outcomes_exchanged :
    (⟨0⟩ ∈ (empty.after exchanged).handles ∧ ⟨1⟩ ∈ (empty.after exchanged).handles ∧
        ⟨2⟩ ∈ (empty.after exchanged).handles) ∧
      (empty.after exchanged).payloadOf ⟨64⟩ .uint ⟨0⟩ = .ok (.uint 9) ∧
      (empty.after exchanged).payloadOf ⟨64⟩ .sint ⟨0⟩ =
        .error (.misuse (.wrongPayload ⟨64⟩ .sint)) ∧
      (empty.after exchanged).payloadOf ⟨65⟩ .uint ⟨0⟩ =
        .error (.misuse (.wrongKind ⟨65⟩ ⟨64⟩)) ∧
      (empty.after exchanged).payloadOf Tag.uint .uint ⟨1⟩ =
        .error (.misuse (.reservedTag Tag.uint)) ∧
      (empty.after exchanged).payloadOf ⟨64⟩ (.named ⟨"u16", 0⟩) ⟨2⟩ =
        .ok (.named ⟨"u16", 0⟩ [8, 0]) ∧
      (empty.after exchanged).payloadOf ⟨64⟩ (.named ⟨"u32", 0⟩) ⟨2⟩ =
        .error (.misuse (.wrongPayload ⟨64⟩ (.named ⟨"u32", 0⟩))) ∧
      (empty.after exchanged).payloadOf ⟨64⟩ (.named ⟨"u16", 1⟩) ⟨2⟩ =
        .error (.misuse (.wrongPayload ⟨64⟩ (.named ⟨"u16", 1⟩))) := by
  have hzero : ⟨0⟩ ∈ (empty.after exchanged).handles := mem_handles.mpr (by decide)
  have hone : ⟨1⟩ ∈ (empty.after exchanged).handles := mem_handles.mpr (by decide)
  have htwo : ⟨2⟩ ∈ (empty.after exchanged).handles := mem_handles.mpr (by decide)
  obtain ⟨t, ht, -, -, -, hread, -⟩ := payload_outcomes exchanged hzero
  obtain ⟨u, hu, -, -, -, hread', -⟩ := payload_outcomes exchanged hone
  obtain ⟨v, hv, -, -, -, hread'', -⟩ := payload_outcomes exchanged htwo
  obtain rfl : t = .user ⟨64⟩ 0 := Except.ok.inj (ht.symm.trans rfl)
  obtain rfl : u = .uint 7 := Except.ok.inj (hu.symm.trans rfl)
  obtain rfl : v = .user ⟨64⟩ 1 := Except.ok.inj (hv.symm.trans rfl)
  have hknown : Deposit.ofJournal ⟨0⟩ (empty.journal exchanged) =
      some ⟨⟨64⟩, .uint 5, .uint 9⟩ := rfl
  have hknown' : Deposit.ofJournal ⟨2⟩ (empty.journal exchanged) =
      some ⟨⟨64⟩, .named ⟨"u16", 0⟩ [5, 0], .named ⟨"u16", 0⟩ [8, 0]⟩ := rfl
  exact ⟨⟨hzero, hone, htwo⟩, ((hread _ _).ok _).mpr ⟨rfl, _, hknown, rfl, rfl⟩,
    (hread _ _).wrongPayload.mpr ⟨rfl, _, hknown, by decide⟩,
    (hread _ _).wrongKind.mpr (by decide), (hread' _ _).reserved.mpr ⟨rfl, rfl⟩,
    ((hread'' _ _).ok _).mpr ⟨rfl, _, hknown', rfl, rfl⟩,
    (hread'' _ _).wrongPayload.mpr ⟨rfl, _, hknown', by decide⟩,
    (hread'' _ _).wrongPayload.mpr ⟨rfl, _, hknown', by decide⟩⟩

end Arena

end TokenStore
