import TokenStore.Proofs.Cells.Writes

/-!
# The arena is a store of cells

Operation by operation, an arena answers what its cells answer and is left with the cells that they
are left with. By induction this is so along every run, through failures and imports that end
midway.
-/

namespace TokenStore

namespace Arena

/-- The result of an operation, with the arena seen as its cells. -/
def seen {ρ : Type} (r : ρ × Arena) : ρ × Cells := (r.1, r.2.cells)

namespace Layout

variable {a : Arena}

theorem seen_addSeqReserving (ha : a.Layout) (capacity : Nat) :
    seen (a.addSeqReserving capacity) = a.cells.addSeqReserving capacity := by
  rcases Nat.lt_or_ge capacity 0x1000000000000000 with hroom | hnone
  · rw [addSeqReserving_of_room a hroom]
    simp [seen, Cells.addSeqReserving, Nat.not_le.mpr hroom, Cells.add, ha.cells_addList]
  · rw [addSeqReserving_of_noRoom a hnone]
    simp [seen, Cells.addSeqReserving, hnone]

theorem seen_addZeros (ha : a.Layout) (length : Nat) :
    seen (a.addZeros length) = a.cells.addZeros length := by
  have hbytes : a.cells.byteTotal = a.pool.size := congrArg Stats.bytes ha.stats_cells
  rcases Nat.lt_or_ge (a.pool.size + length) 0x8000000000000000 with hroom | hhalf
  · rw [addZeros_of_room a hroom]
    have hend : ¬ 0x10000000000000000 ≤ a.pool.size + length := by omega
    simp [seen, Cells.addZeros, hbytes, hend, Nat.not_le.mpr hroom, Cells.add, ha.cells_addBytes]
  · rcases Nat.lt_or_ge (a.pool.size + length) 0x10000000000000000 with hend | hfull
    · rw [addZeros_of_noRoom a hhalf hend]
      simp [seen, Cells.addZeros, hbytes, hhalf, Nat.not_le.mpr hend]
    · rw [addZeros_of_full a hfull]
      simp [seen, Cells.addZeros, hbytes, hfull]

theorem seen_addUser (ha : a.Layout) (tag : Tag) (value : Payload) :
    seen (a.addUser tag value) = a.cells.addUser tag value := by
  by_cases htag : tag.isUser = true
  · have hcells := ha.cells_addUser htag value
    rw [addUser_eq a htag] at hcells ⊢
    simp [seen, Cells.addUser, htag, Cells.add, hcells]
  · simp [seen, addUser, Cells.addUser, htag]

/-- Changing the elements of a sequence, if it is one. -/
theorem seen_modifyList (ha : a.Layout) {seq : Handle} {id : ListId} (hid : a.listOf seq = .ok id)
    (change : Elements → Elements) :
    ∃ e, a.elementsOf seq = .ok e ∧
      seen (a.modifyList id change) = (.ok (), a.cells.put seq (.seq (change e).toList)) := by
  have ht := listOf_eq_ok_iff.mp hid
  obtain ⟨e, he⟩ := ha.exists_list ht
  refine ⟨e, by simp [elementsOf, hid, he], ?_⟩
  simp [seen, modifyList, ha.list_lt ht, ha.cells_modify ht he]

theorem seen_push (ha : a.Layout) (seq value : Handle) :
    seen (a.push seq value) = a.cells.push seq value := by
  rw [Cells.push, ← ha.elementsOf_cells, push]
  cases hid : a.listOf seq with
  | error e => simp [elementsOf, hid, seen]
  | ok id =>
    obtain ⟨e, he, hseen⟩ := ha.seen_modifyList hid (·.push value)
    simp [he, hseen]

theorem seen_append (ha : a.Layout) (dst src : Handle) :
    seen (a.append dst src) = a.cells.append dst src := by
  rw [Cells.append, ← ha.elementsOf_cells, ← ha.elementsOf_cells, append]
  cases hid : a.listOf dst with
  | error e => simp [elementsOf, hid, seen]
  | ok id =>
    cases hsrc : a.elementsOf src with
    | error e =>
      obtain ⟨e', he', -⟩ := ha.seen_modifyList hid fun e => e
      simp [he', seen]
    | ok more =>
      obtain ⟨e, he, hseen⟩ := ha.seen_modifyList hid (·.append more.toList)
      simp [he, hseen]

theorem seen_flatten (ha : a.Layout) (h : Handle) : seen (a.flatten h) = a.cells.flatten h := by
  rw [Cells.flatten, ha.links_cells, length_cells, flatten, leaves_eq]
  cases a.links.leavesWithin a.size h with
  | error e => simp [Except.map, seen]
  | ok ls => simp [Except.map, seen, Cells.add, ha.cells_addList]; rfl

theorem seen_writeBytes (ha : a.Layout) (h : Handle) (offset : Nat) (data : List UInt8) :
    seen (a.writeBytes h offset data) = a.cells.writeBytes h offset data := by
  rw [Cells.writeBytes, ← ha.bytesOf_cells, writeBytes]
  cases hs : a.spanOf h with
  | error e => simp [bytesOf, hs, seen]
  | ok s =>
    have ht := spanOf_eq_ok_iff.mp hs
    have hwithin := ha.span_within ht
    have hold : a.bytesOf h = .ok (a.pool.extract s.start s.stop).toList := by
      simp [bytesOf, hs, ha.slice_eq ht]
    have hlen : (a.pool.extract s.start s.stop).toList.length = s.length := by
      rw [Array.length_toList, Array.size_extract, Nat.min_eq_left hwithin.2, Span.length]
    simp only [hold, hlen, hwithin, and_self, if_true]
    by_cases hfit : offset + data.length ≤ s.length
    · simp only [hfit, if_true, seen, ha.cells_overwrite ht hfit]
    · simp only [hfit, if_false, seen]

theorem seen_setPayload (ha : a.Layout) (tag : Tag) (h : Handle) (value : Payload) :
    seen (a.setPayload tag h value) = a.cells.setPayload tag h value := by
  rw [Cells.setPayload, ← ha.payloadOf_cells, payloadOf, setPayload]
  cases hfound : a.findUser tag value.type h with
  | error e => simp [seen]
  | ok found =>
    obtain ⟨slot, p⟩ := found
    obtain ⟨ht, -, -⟩ := findUser_eq_ok_iff.mp hfound
    simp [seen, ha.cells_setPayload ht]

/-! ## Imports -/

/-- A scalar adds the cell that it stands for, if there is one. -/
theorem seen_addScalar (ha : a.Layout) (v : Json) :
    seen (a.addScalar v) =
      match v.cell with
      | .ok x => (.ok ⟨a.size⟩, a.cells ++ [x])
      | .error f => (.error f, a.cells) := by
  rcases addScalar_cases v with ⟨data, hv, hadd⟩ | ⟨n, hv, hadd⟩ | ⟨n, hv, hadd⟩ | ⟨f, hv, hadd⟩
  · rw [hv, hadd, seen, ha.cells_addBytes, addBytes_eq]
  · rw [hv, hadd, seen, cells_addSint, addSint_eq]
  · rw [hv, hadd, seen, cells_addUint, addUint_eq]
  · rw [hv, hadd, seen]

theorem seen_addItems {items : List Json} {depth : Nat}
    (hall : ∀ v ∈ items, ∀ a : Arena, a.Layout →
      seen (a.addValue depth v) = a.cells.addValue depth v)
    {a : Arena} (ha : a.Layout) (seq : Handle) (index : Nat) :
    seen (a.addItems depth seq index items) = a.cells.addItems depth seq index items := by
  induction items generalizing a index with
  | nil =>
    unfold addItems Cells.addItems
    rfl
  | cons v vs ih =>
    unfold addItems Cells.addItems
    have hb : (a.addValue depth v).2.Layout := (a.addValue_moves depth v).preserve Move.layout ha
    rw [← hall v List.mem_cons_self a ha]
    rcases hadd : a.addValue depth v with ⟨r, b⟩
    rw [hadd] at hb
    cases r with
    | error e => rfl
    | ok h =>
      have hc : (b.push seq h).2.Layout := (b.push_moves seq h).preserve Move.layout hb
      simp only [seen]
      rw [← seen_push hb seq h]
      rcases hpush : b.push seq h with ⟨r, c⟩
      rw [hpush] at hc
      cases r with
      | error e => rfl
      | ok u => exact ih (fun w hw => hall w (List.mem_cons_of_mem v hw)) hc (index + 1)

theorem seen_addValue (ha : a.Layout) (depth : Nat) (v : Json) :
    seen (a.addValue depth v) = a.cells.addValue depth v := by
  induction v using Json.itemsInduction generalizing a depth with
  | arr items ih =>
    unfold addValue Cells.addValue
    split
    · rfl
    · rcases hadd : a.addList (Elements.withCapacity items.length) with ⟨seq, b⟩
      have hb : b.Layout := by
        have := Move.layout (.list (Elements.withCapacity items.length)) ha
        rwa [hadd] at this
      have hcells : b.cells = a.cells ++ [.seq []] := by
        have := ha.cells_addList (Elements.withCapacity items.length)
        rwa [hadd] at this
      obtain rfl : seq = ⟨a.size⟩ := (congrArg Prod.fst hadd).symm
      have hitems := seen_addItems (fun v hv b hb => ih v hv hb (depth + 1)) hb ⟨a.size⟩ 0
      dsimp only
      rw [hadd, length_cells, ← hcells, ← hitems]
      obtain ⟨r, c⟩ := b.addItems (depth + 1) ⟨a.size⟩ 0 items
      cases r <;> rfl
  | other v hscalar =>
    unfold addValue Cells.addValue
    split
    · rfl
    · split
      next items => exact absurd rfl (hscalar items)
      next =>
        have hv := ha.seen_addScalar v
        rcases hadd : a.addScalar v with ⟨r, b⟩
        cases r <;> cases hx : v.cell <;> simp_all [seen, Cells.add]

/-! ## Operations -/

theorem elementsAt_cells (ha : a.Layout) (seq : Handle) (index : Nat) :
    (·.toList) <$> a.elementsAt seq index = a.cells.element seq index >>= a.cells.elementsOf := by
  simp only [elementsAt, map_bind, ha.elementsOf_cells, ha.element_cells]

/-- What the cells tell is what the arena answers. -/
theorem answer_cells (ha : a.Layout) {q : Query} {r : Except Failure Answer}
    (hr : a.cells.answer q = some r) : q.answer a = r := by
  cases q with
  | token h => simp [Cells.answer] at hr
  | compact h => simp [Cells.answer] at hr
  | outline o names h => simp [Cells.answer] at hr
  | toJson h => simp [Cells.answer] at hr
  | jsonText h => simp [Cells.answer] at hr
  | elementsOf h =>
    obtain rfl := Option.some.inj hr
    rw [← ha.elementsOf_cells, Functor.map_map]
    rfl
  | elementsAt seq index =>
    obtain rfl := Option.some.inj hr
    rw [← ha.elementsAt_cells, Functor.map_map]
    rfl
  | _ =>
    obtain rfl := Option.some.inj hr
    simp only [Query.answer, ha.children_cells, ha.content_cells, ha.bytesOf_cells,
      ha.sintOf_cells, ha.uintOf_cells, ha.payloadOf_cells, ha.lengthOf_cells, ha.element_cells,
      ha.follow_cells, bytesAt, sintAt, uintAt, payloadAt]

theorem seen_sure {α : Type} (wrap : α → Answer) (r : α × Arena) :
    seen (Update.sure wrap r) = Cells.dress wrap (.ok r.1, r.2.cells) := rfl

theorem seen_attempt {α : Type} (wrap : α → Answer) (r : Except Failure α × Arena) :
    seen (Update.attempt wrap r) = Cells.dress wrap (seen r) := rfl

/-- A change of the arena is the same change of its cells, with the same answer. -/
theorem seen_run (ha : a.Layout) (u : Update) : seen (u.run a) = a.cells.update u := by
  cases u with
  | clear => rfl
  | addSeq =>
    rw [Update.run, seen_sure, addSeq, ha.cells_addList, Cells.update, Cells.add, length_cells]
    rfl
  | addBytes data =>
    rw [Update.run, seen_sure, ha.cells_addBytes, Cells.update, Cells.add, length_cells]
    rfl
  | addSint value =>
    rw [Update.run, seen_sure, cells_addSint, Cells.update, Cells.add, length_cells]
    rfl
  | addUint value =>
    rw [Update.run, seen_sure, cells_addUint, Cells.update, Cells.add, length_cells]
    rfl
  | addSeqReserving capacity => rw [Update.run, seen_attempt, ha.seen_addSeqReserving, Cells.update]
  | addZeros length => rw [Update.run, seen_attempt, ha.seen_addZeros, Cells.update]
  | addUser tag value => rw [Update.run, seen_attempt, ha.seen_addUser, Cells.update]
  | addJson v => rw [Update.run, seen_attempt, addJson, ha.seen_addValue, Cells.update]
  | push seq value => rw [Update.run, seen_attempt, ha.seen_push, Cells.update]
  | append dst src => rw [Update.run, seen_attempt, ha.seen_append, Cells.update]
  | flatten h => rw [Update.run, seen_attempt, ha.seen_flatten, Cells.update]
  | writeBytes h offset data => rw [Update.run, seen_attempt, ha.seen_writeBytes, Cells.update]
  | setPayload tag h value => rw [Update.run, seen_attempt, ha.seen_setPayload, Cells.update]

/-- One step: the cells go along with every operation, also with those they do not tell. -/
theorem cells_run (ha : a.Layout) (op : Op) : (op.run a).2.cells = (a.cells.run op).2 := by
  cases op with
  | ask q => rfl
  | change u => exact congrArg Prod.snd (ha.seen_run u)

theorem answer_run (ha : a.Layout) {op : Op} {r : Except Failure Answer}
    (hr : (a.cells.run op).1 = some r) : (op.run a).1 = r := by
  cases op with
  | ask q => exact ha.answer_cells hr
  | change u =>
    obtain rfl := Option.some.inj hr
    exact congrArg Prod.fst (ha.seen_run u)

end Layout

/-- A run: step by step, as every arena on the way is laid out. -/
theorem cells_after (ops : List Op) : (empty.after ops).cells = Cells.after [] ops := by
  induction ops using List.reverseRecOn with
  | nil => rfl
  | append_singleton ops op ih =>
    rw [after_append, Cells.after_append, ← ih]
    exact (built_after ops).layout.cells_run op

/-- What an arena answers at any point of any run, and how much it holds after, is what a store
answers and holds in which every token owns its content. The store has the same limits of room. -/
theorem simulation (ops : List Op) (op : Op) :
    let a := empty.after ops
    let cs := Cells.after [] ops
    (∀ r, (cs.run op).1 = some r → (op.run a).1 = r) ∧
      (op.run a).2.cells = (cs.run op).2 ∧ (op.run a).2.stats = (cs.run op).2.stats := by
  intro a cs
  have ha : a.Layout := (built_after ops).layout
  have hb : (op.run a).2.Layout := by
    have := (built_after (ops ++ [op])).layout
    rwa [after_append] at this
  have hc : a.cells = cs := cells_after ops
  have hstep : (op.run a).2.cells = (cs.run op).2 := by rw [← hc, ha.cells_run]
  refine ⟨fun r hr => ?_, hstep, ?_⟩
  · rw [← hc] at hr
    exact ha.answer_run hr
  · rw [← hstep, hb.stats_cells]

/-- A sequence appended to itself, and steps that fail. -/
def doubling : List Op :=
  [.change .addSeq, .change (.addBytes [1, 2]), .change (.push ⟨0⟩ ⟨1⟩), .change (.append ⟨0⟩ ⟨0⟩),
    .change (.push ⟨1⟩ ⟨0⟩), .ask (.sintOf ⟨7⟩)]

theorem simulation_doubling :
    ((Cells.after [] doubling).run (.ask (.elementsOf ⟨0⟩))).1 =
        some (.ok (.handles [⟨1⟩, ⟨1⟩])) ∧
      (Op.run (empty.after doubling) (.ask (.elementsOf ⟨0⟩))).1 = .ok (.handles [⟨1⟩, ⟨1⟩]) :=
  ⟨rfl, (simulation doubling (.ask (.elementsOf ⟨0⟩))).1 _ rfl⟩

/-- A cell more is always possible, but not a sequence with any room. No handle is asked for. -/
theorem sequence_without_room :
    Cells.add (Cells.after [] []) (.seq []) = (.ok ⟨0⟩, [.seq []]) ∧
      (empty.after []).addSeqReserving 0xffffffffffffffff = (.error .noRoom, empty) :=
  ⟨rfl, addSeqReserving_of_noRoom empty (by decide)⟩

end Arena

end TokenStore
