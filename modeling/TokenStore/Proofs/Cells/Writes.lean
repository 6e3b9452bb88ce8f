import TokenStore.Proofs.Cells.View

/-!
# Changes of an arena as changes of its cells

An addition to a laid out arena adds one cell, and a change in place replaces the cell of the token
it goes through: no other token shares what is changed.
-/

namespace TokenStore

namespace Arena

variable {a b : Arena} {h : Handle} {t : Token}

/-! ## What a cell depends on -/

/-- Only what a token names counts for its cell. -/
theorem cell_congr
    (hlist : ∀ id, t = .sequence id → b.lists[id.index]? = a.lists[id.index]?)
    (hspan : ∀ s, t = .bytes s → b.pool.extract s.start s.stop = a.pool.extract s.start s.stop)
    (hslot : ∀ tag slot, t = .user tag slot → b.payloads[slot]? = a.payloads[slot]?) :
    b.cell t = a.cell t := by
  cases t with
  | sequence id => simp only [cell, hlist id rfl]
  | bytes s => simp only [cell, hspan s rfl]
  | user tag slot => simp only [cell, hslot tag slot rfl]
  | _ => rfl

theorem exists_token_of_mem (ht : t ∈ a.tokens) : ∃ h, a.token h = .ok t := by
  obtain ⟨i, hi⟩ := Array.mem_iff_getElem?.mp ht
  exact ⟨⟨i⟩, token_eq_ok_iff.mpr hi⟩

theorem cells_of_push (htokens : b.tokens = a.tokens.push t)
    (hold : ∀ u ∈ a.tokens, b.cell u = a.cell u) : b.cells = a.cells ++ [b.cell t] := by
  simp only [cells, htokens, Array.toList_push, List.map_append, List.map_cons, List.map_nil,
    List.append_cancel_right_eq]
  exact List.map_congr_left fun u hu => hold u (Array.mem_toList_iff.mp hu)

theorem cells_of_put (htokens : b.tokens = a.tokens) (ht : a.token h = .ok t)
    (hothers : ∀ k u, a.token k = .ok u → k ≠ h → b.cell u = a.cell u) :
    b.cells = a.cells.put h (b.cell t) := by
  apply List.ext_getElem?
  intro i
  rw [token_eq_ok_iff] at ht
  by_cases hi : i = h.index
  · subst hi
    obtain ⟨hsize, rfl⟩ := Array.getElem?_eq_some_iff.mp ht
    simp [cells, Cells.put, htokens, hsize]
  · simp only [cells, Cells.put, htokens, List.getElem?_set_ne (Ne.symm hi), List.getElem?_map,
      Array.getElem?_toList]
    cases hu : a.tokens[i]? with
    | none => rfl
    | some u =>
      have hne : (⟨i⟩ : Handle) ≠ h := fun heq => hi (congrArg Handle.index heq)
      simp [hothers ⟨i⟩ u (token_eq_ok_iff.mpr hu) hne]

/-! ## Additions -/

namespace Layout

theorem cells_addSint (a : Arena) (value : Int64) :
    (a.addSint value).2.cells = a.cells ++ [.sint value] := by
  rw [addSint_eq]
  refine (cells_of_push rfl fun u _ => ?_).trans rfl
  exact cell_congr (fun _ _ => rfl) (fun _ _ => rfl) fun _ _ _ => rfl

theorem cells_addUint (a : Arena) (value : UInt64) :
    (a.addUint value).2.cells = a.cells ++ [.uint value] := by
  rw [addUint_eq]
  refine (cells_of_push rfl fun u _ => ?_).trans rfl
  exact cell_congr (fun _ _ => rfl) (fun _ _ => rfl) fun _ _ _ => rfl

theorem cells_addList (ha : a.Layout) (e : Elements) :
    (a.addList e).2.cells = a.cells ++ [.seq e.toList] := by
  rw [addList_eq]
  refine (cells_of_push rfl ?_).trans (by simp [cell])
  intro u hu
  obtain ⟨k, hk⟩ := exists_token_of_mem hu
  refine cell_congr ?_ (fun _ _ => rfl) fun _ _ _ => rfl
  rintro id rfl
  simp [Array.getElem?_push, Nat.ne_of_lt (ha.list_lt hk)]

theorem cells_addBytes (ha : a.Layout) (data : List UInt8) :
    (a.addBytes data).2.cells = a.cells ++ [.bytes data] := by
  rw [addBytes_eq]
  refine (cells_of_push rfl ?_).trans (by simp [cell])
  intro u hu
  obtain ⟨k, hk⟩ := exists_token_of_mem hu
  refine cell_congr (fun _ _ => rfl) ?_ fun _ _ _ => rfl
  rintro s rfl
  have := ha.span_within hk
  apply Array.ext_getElem?
  intro i
  simp only [Array.getElem?_extract, Array.size_append, Array.getElem?_append]
  grind

theorem cells_addUser (ha : a.Layout) {tag : Tag} (htag : tag.isUser = true) (value : Payload) :
    (a.addUser tag value).2.cells = a.cells ++ [.user tag value] := by
  rw [addUser_eq a htag]
  refine (cells_of_push rfl ?_).trans (by simp [cell])
  intro u hu
  obtain ⟨k, hk⟩ := exists_token_of_mem hu
  refine cell_congr (fun _ _ => rfl) (fun _ _ => rfl) ?_
  rintro _ slot rfl
  simp [Array.getElem?_push, Nat.ne_of_lt (ha.slot_lt hk)]

end Layout

/-! ## Changes in place -/

theorem getElem?_overwrite (pool : Array UInt8) (start : Nat) (data : List UInt8) (i : Nat) :
    (overwrite pool start data)[i]? =
      if start ≤ i ∧ i < start + data.length ∧ i < pool.size then data[i - start]?
      else pool[i]? := by
  induction data generalizing pool start with
  | nil => grind [overwrite]
  | cons b rest ih =>
    rw [overwrite, ih]
    grind

theorem extract_overwrite_of_disjoint {pool : Array UInt8} {start : Nat} {data : List UInt8}
    {s : Span} (hs : s.stop ≤ start ∨ start + data.length ≤ s.start) :
    (overwrite pool start data).extract s.start s.stop = pool.extract s.start s.stop := by
  apply Array.ext_getElem?
  intro i
  simp only [Array.getElem?_extract, size_overwrite, getElem?_overwrite]
  grind

theorem extract_overwrite {pool : Array UInt8} {s : Span} {offset : Nat} {data : List UInt8}
    (hs : s.start ≤ s.stop ∧ s.stop ≤ pool.size) (hfit : offset + data.length ≤ s.length) :
    ((overwrite pool (s.start + offset) data).extract s.start s.stop).toList =
      (pool.extract s.start s.stop).toList.take offset ++ data ++
        (pool.extract s.start s.stop).toList.drop (offset + data.length) := by
  unfold Span.length at hfit
  apply List.ext_getElem?
  intro i
  simp only [Array.getElem?_toList, Array.getElem?_extract, size_overwrite, getElem?_overwrite,
    List.getElem?_append, List.getElem?_take, List.getElem?_drop]
  grind

namespace Layout

theorem cells_modify (ha : a.Layout) {id : ListId} (ht : a.token h = .ok (.sequence id))
    {e : Elements} (he : a.list id = .ok e) (change : Elements → Elements) :
    cells { a with lists := a.lists.modify id.index change } =
      a.cells.put h (.seq (change e).toList) := by
  refine (cells_of_put ?_ ht ?_).trans ?_
  · rfl
  · intro k u hu hne
    refine cell_congr ?_ (fun _ _ => rfl) fun _ _ _ => rfl
    rintro id' rfl
    simp [Array.getElem?_modify, ha.list_ne ht hu hne.symm]
  · simp [cell, Array.getElem?_modify, list_eq_ok_iff.mp he]

theorem cells_overwrite (ha : a.Layout) {s : Span} (ht : a.token h = .ok (.bytes s))
    {offset : Nat} {data : List UInt8} (hfit : offset + data.length ≤ s.length) :
    cells { a with pool := overwrite a.pool (s.start + offset) data } =
      a.cells.put h (.bytes
        ((a.pool.extract s.start s.stop).toList.take offset ++ data ++
          (a.pool.extract s.start s.stop).toList.drop (offset + data.length))) := by
  have hs := ha.span_within ht
  refine (cells_of_put ?_ ht ?_).trans ?_
  · rfl
  · intro k u hu hne
    refine cell_congr (fun _ _ => rfl) ?_ fun _ _ _ => rfl
    rintro s' rfl
    refine extract_overwrite_of_disjoint ?_
    have hlen : offset + data.length ≤ s.stop - s.start := hfit
    rcases ha.span_disjoint hu ht hne with hd | hd <;> omega
  · simp only [cell, extract_overwrite hs hfit]

theorem cells_setPayload (ha : a.Layout) {tag : Tag} {slot : Nat}
    (ht : a.token h = .ok (.user tag slot)) (value : Payload) :
    cells { a with payloads := a.payloads.setIfInBounds slot value } =
      a.cells.put h (.user tag value) := by
  refine (cells_of_put ?_ ht ?_).trans ?_
  · rfl
  · intro k u hu hne
    refine cell_congr (fun _ _ => rfl) (fun _ _ => rfl) ?_
    rintro tag' slot' rfl
    simp [ha.slot_ne ht hu hne.symm]
  · simp [cell, ha.slot_lt ht]

/-! ## Sizes -/

theorem byteTotal_map_cell (ts : List Token)
    (hts : ∀ s, .bytes s ∈ ts → s.stop ≤ a.pool.size) :
    Cells.byteTotal (ts.map a.cell) = spanTotal (ts.filterMap Token.span?) := by
  induction ts with
  | nil => rfl
  | cons t ts ih =>
    have ih := ih fun s hs => hts s (List.mem_cons_of_mem t hs)
    cases t with
    | bytes s =>
      have hs := hts s List.mem_cons_self
      simp only [List.map_cons, Cells.byteTotal, ih, cell, Cell.content?, Option.getD_some,
        Array.length_toList, Array.size_extract, Nat.min_eq_left hs, Token.span?, Span.length,
        List.filterMap_cons, spanTotal]
    | _ => simp [Cells.byteTotal, ih, cell, Cell.content?, Token.span?, List.filterMap_cons]

theorem stats_cells (ha : a.Layout) : a.cells.stats = a.stats := by
  have hlists : a.listIds.length = a.lists.size := by simp [ha.lists]
  have hslots : a.slots.length = a.payloads.size := by simp [ha.payloads]
  have hpool : a.cells.byteTotal = a.pool.size := by
    have htotal := ha.pool.total
    rw [cells, byteTotal_map_cell]
    · rw [spans] at htotal
      omega
    · intro s hs
      obtain ⟨k, hk⟩ := exists_token_of_mem (Array.mem_toList_iff.mp hs)
      exact (ha.span_within hk).2
  have hseq : ∀ t, (a.cell t).elements?.isSome = t.list?.isSome := by
    intro t
    cases t <;> rfl
  have huser : ∀ t, (a.cell t).payload?.isSome = t.slot?.isSome := by
    intro t
    cases t <;> rfl
  rw [listIds, List.length_filterMap_eq_countP] at hlists
  rw [slots, List.length_filterMap_eq_countP] at hslots
  have hcount (p : Cell → Bool) : a.cells.countP p = a.tokens.toList.countP (p ∘ a.cell) := by
    rw [cells, List.countP_map]
  simp only [Cells.stats, stats, length_cells, size, hpool, hcount, Function.comp_def, hseq, huser,
    hlists, hslots]

end Layout

end Arena

end TokenStore
