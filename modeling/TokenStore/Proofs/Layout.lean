import TokenStore.Proofs.Moves

/-!
# Layout

Where an arena keeps what its tokens name is determined by the order of the tokens. Sequences have
the element lists, and an application's tokens the payload slots, in the order they were added in,
and the byte strings tile the pool.

## Main definitions

* `Tiles`: spans that follow one another without gap or overlap.
* `Arena.Layout`: the layout of every arena that is built.
-/

namespace TokenStore

/-- The spans lead from `start` to `stop` without gap or overlap. -/
def Tiles (start : Nat) : List Span → Nat → Prop
  | [], stop => start = stop
  | s :: rest, stop => s.start = start ∧ s.start ≤ s.stop ∧ Tiles s.stop rest stop

/-- The lengths of the spans together. -/
def spanTotal : List Span → Nat
  | [] => 0
  | s :: rest => s.length + spanTotal rest

theorem tiles_append {start mid stop : Nat} {ss ts : List Span} (hs : Tiles start ss mid)
    (ht : Tiles mid ts stop) : Tiles start (ss ++ ts) stop := by
  induction ss generalizing start with
  | nil => cases hs; exact ht
  | cons s rest ih => exact ⟨hs.1, hs.2.1, ih hs.2.2⟩

theorem Tiles.total {start stop : Nat} {ss : List Span} (h : Tiles start ss stop) :
    start + spanTotal ss = stop := by
  induction ss generalizing start with
  | nil => exact h
  | cons s rest ih =>
    obtain ⟨rfl, hle, hrest⟩ := h
    have := ih hrest
    simp only [spanTotal, Span.length]
    omega

/-- Every span of a tiling lies within it. -/
theorem Tiles.within {start stop : Nat} {ss : List Span} (h : Tiles start ss stop) {s : Span}
    (hs : s ∈ ss) : start ≤ s.start ∧ s.start ≤ s.stop ∧ s.stop ≤ stop := by
  induction ss generalizing start with
  | nil => cases hs
  | cons t rest ih =>
    obtain ⟨rfl, hle, hrest⟩ := h
    have htotal := hrest.total
    rcases List.mem_cons.mp hs with rfl | hs
    · omega
    · have := ih hrest hs
      omega

/-- No span of a tiling reaches into a later one. -/
theorem Tiles.pairwise {start stop : Nat} {ss : List Span} (h : Tiles start ss stop) :
    ss.Pairwise fun s t => s.stop ≤ t.start := by
  induction ss generalizing start with
  | nil => exact .nil
  | cons s rest ih =>
    obtain ⟨-, -, hrest⟩ := h
    exact .cons (fun t ht => (hrest.within ht).1) (ih hrest)

namespace Arena

/-- The element lists that the sequences of the arena name, in the order of the tokens. -/
def listIds (a : Arena) : List ListId := a.tokens.toList.filterMap Token.list?

/-- The payload slots that the application's tokens name, in the order of the tokens. -/
def slots (a : Arena) : List Nat := a.tokens.toList.filterMap Token.slot?

/-- The spans of the byte strings, in the order of the tokens. -/
def spans (a : Arena) : List Span := a.tokens.toList.filterMap Token.span?

structure Layout (a : Arena) : Prop where
  /-- The k-th sequence has the k-th element list, and there are no other lists. -/
  lists : a.listIds = (List.range a.lists.size).map ListId.mk
  /-- The k-th of the application's tokens has the k-th slot, and there are no other slots. -/
  payloads : a.slots = List.range a.payloads.size
  /-- No token of the application carries a reserved tag. -/
  tags : ∀ tag slot, .user tag slot ∈ a.tokens → 64 ≤ tag.code.toNat
  /-- The byte strings tile the pool. -/
  pool : Tiles 0 a.spans a.pool.size

theorem mem_filterMap_of_token {a : Arena} {β : Type} {f : Token → Option β} {h : Handle}
    {t : Token} {x : β} (ht : a.token h = .ok t) (hx : f t = some x) :
    x ∈ a.tokens.toList.filterMap f := by
  rw [token_eq_ok_iff, ← Array.getElem?_toList] at ht
  exact List.mem_filterMap.mpr ⟨t, List.mem_of_getElem? ht, hx⟩

/-! ## What tokens name is there -/

namespace Layout

variable {a : Arena} {h : Handle}

theorem list_lt (ha : a.Layout) {id : ListId} (ht : a.token h = .ok (.sequence id)) :
    id.index < a.lists.size := by
  have hmem : id ∈ a.listIds := mem_filterMap_of_token ht rfl
  rw [ha.lists, List.mem_map] at hmem
  obtain ⟨i, hi, rfl⟩ := hmem
  exact List.mem_range.mp hi

theorem slot_lt (ha : a.Layout) {tag : Tag} {slot : Nat} (ht : a.token h = .ok (.user tag slot)) :
    slot < a.payloads.size := by
  have hmem : slot ∈ a.slots := mem_filterMap_of_token ht rfl
  rw [ha.payloads] at hmem
  exact List.mem_range.mp hmem

theorem span_within (ha : a.Layout) {s : Span} (ht : a.token h = .ok (.bytes s)) :
    s.start ≤ s.stop ∧ s.stop ≤ a.pool.size :=
  (ha.pool.within (mem_filterMap_of_token ht rfl)).2

theorem tag_le (ha : a.Layout) {tag : Tag} {slot : Nat} (ht : a.token h = .ok (.user tag slot)) :
    64 ≤ tag.code.toNat :=
  ha.tags tag slot (Array.mem_of_getElem? (token_eq_ok_iff.mp ht))

end Layout

/-! ## No two tokens name the same place -/

theorem rel_of_pairwise_filterMap {a : Arena} {β : Type} {f : Token → Option β} {R : β → β → Prop}
    (hR : (a.tokens.toList.filterMap f).Pairwise R) {h k : Handle} {t u : Token} {x y : β}
    (ht : a.token h = .ok t) (hu : a.token k = .ok u) (hx : f t = some x) (hy : f u = some y)
    (hlt : h.index < k.index) : R x y := by
  rw [List.pairwise_filterMap, List.pairwise_iff_getElem] at hR
  rw [token_eq_ok_iff, ← Array.getElem?_toList] at ht hu
  obtain ⟨hh, rfl⟩ := List.getElem?_eq_some_iff.mp ht
  obtain ⟨hk, rfl⟩ := List.getElem?_eq_some_iff.mp hu
  exact hR _ _ hh hk hlt x hx y hy

theorem eq_of_nodup_filterMap {a : Arena} {β : Type} {f : Token → Option β}
    (hf : (a.tokens.toList.filterMap f).Nodup) {h k : Handle} {t u : Token} {x : β}
    (ht : a.token h = .ok t) (hu : a.token k = .ok u) (hx : f t = some x) (hy : f u = some x) :
    h = k := by
  rcases Nat.lt_trichotomy h.index k.index with hlt | heq | hgt
  · exact absurd rfl (rel_of_pairwise_filterMap hf ht hu hx hy hlt)
  · exact congrArg Handle.mk heq
  · exact absurd rfl (rel_of_pairwise_filterMap hf hu ht hy hx hgt)

namespace Layout

variable {a : Arena} {h k : Handle}

theorem list_inj (ha : a.Layout) {id : ListId} (ht : a.token h = .ok (.sequence id))
    (hu : a.token k = .ok (.sequence id)) : h = k := by
  have hnodup : a.listIds.Nodup := by
    rw [ha.lists]
    exact List.Pairwise.map _ (fun i j hij hid => hij (congrArg ListId.index hid)) List.nodup_range
  exact eq_of_nodup_filterMap hnodup ht hu rfl rfl

theorem slot_inj (ha : a.Layout) {tag tag' : Tag} {slot : Nat}
    (ht : a.token h = .ok (.user tag slot)) (hu : a.token k = .ok (.user tag' slot)) : h = k := by
  have hnodup : a.slots.Nodup := by
    rw [ha.payloads]
    exact List.nodup_range
  exact eq_of_nodup_filterMap hnodup ht hu rfl rfl

theorem list_ne (ha : a.Layout) {id id' : ListId} (ht : a.token h = .ok (.sequence id))
    (hu : a.token k = .ok (.sequence id')) (hne : h ≠ k) : id.index ≠ id'.index := by
  intro heq
  obtain rfl : id = id' := congrArg ListId.mk heq
  exact hne (ha.list_inj ht hu)

theorem slot_ne (ha : a.Layout) {tag tag' : Tag} {slot slot' : Nat}
    (ht : a.token h = .ok (.user tag slot)) (hu : a.token k = .ok (.user tag' slot'))
    (hne : h ≠ k) : slot ≠ slot' := by
  rintro rfl
  exact hne (ha.slot_inj ht hu)

theorem span_disjoint (ha : a.Layout) {s s' : Span} (ht : a.token h = .ok (.bytes s))
    (hu : a.token k = .ok (.bytes s')) (hne : h ≠ k) : s.stop ≤ s'.start ∨ s'.stop ≤ s.start := by
  rcases Nat.lt_trichotomy h.index k.index with hlt | heq | hgt
  · exact .inl (rel_of_pairwise_filterMap ha.pool.pairwise ht hu rfl rfl hlt)
  · exact absurd (congrArg Handle.mk heq) hne
  · exact .inr (rel_of_pairwise_filterMap ha.pool.pairwise hu ht rfl rfl hgt)

end Layout

/-! ## Every move keeps the layout -/

theorem layout_empty : Layout empty := ⟨rfl, rfl, by simp [empty], rfl⟩

/-- The layout is that of the tokens and of the sizes of the stores. -/
theorem Layout.of_sizes {a b : Arena} (ha : a.Layout) (ht : b.tokens = a.tokens)
    (hl : b.lists.size = a.lists.size) (hp : b.pool.size = a.pool.size)
    (hu : b.payloads.size = a.payloads.size) : b.Layout where
  lists := by simpa only [listIds, ht, hl] using ha.lists
  payloads := by simpa only [slots, ht, hu] using ha.payloads
  tags := by simpa only [ht] using ha.tags
  pool := by simpa only [spans, ht, hp] using ha.pool

theorem filterMap_push {β : Type} (ts : Array Token) (t : Token) (f : Token → Option β) :
    (ts.push t).toList.filterMap f = ts.toList.filterMap f ++ (f t).toList := by
  cases h : f t <;> simp [h]

/-- The layout after a token is added at the end: what it names comes last in its store. -/
theorem Layout.of_push {a b : Arena} (ha : a.Layout) {t : Token} (ht : b.tokens = a.tokens.push t)
    (hl : (List.range a.lists.size).map ListId.mk ++ t.list?.toList =
      (List.range b.lists.size).map ListId.mk)
    (hs : List.range a.payloads.size ++ t.slot?.toList = List.range b.payloads.size)
    (hu : ∀ tag slot, .user tag slot = t → 64 ≤ tag.code.toNat)
    (hp : Tiles a.pool.size t.span?.toList b.pool.size) : b.Layout where
  lists := by rw [listIds, ht, filterMap_push, ← hl, ← ha.lists, listIds]
  payloads := by rw [slots, ht, filterMap_push, ← hs, ← ha.payloads, slots]
  tags tag slot h := by
    rw [ht, Array.mem_push] at h
    rcases h with h | h
    · exact ha.tags tag slot h
    · exact hu tag slot h
  pool := by
    rw [spans, ht, filterMap_push]
    exact tiles_append ha.pool hp

theorem Move.layout {a b : Arena} (h : Move a b) (ha : a.Layout) : b.Layout := by
  cases h with
  | sint value => exact ha.of_push rfl (List.append_nil _) (List.append_nil _) nofun rfl
  | uint value => exact ha.of_push rfl (List.append_nil _) (List.append_nil _) nofun rfl
  | list e =>
    rw [addList_eq]
    refine ha.of_push rfl ?_ (List.append_nil _) nofun rfl
    simp [Token.list?, List.range_succ]
  | bytes data =>
    rw [addBytes_eq]
    refine ha.of_push rfl (List.append_nil _) (List.append_nil _) nofun ⟨rfl, ?_, ?_⟩
    · exact Nat.le_add_right _ _
    · simp [Tiles]
  | user tag value h =>
    rw [addUser_eq a h]
    refine ha.of_push rfl (List.append_nil _) ?_ ?_ rfl
    · simp [Token.slot?, List.range_succ]
    · rintro _ _ ⟨⟩
      exact (Tag.isUser_iff tag).mp h
  | grow id hs h => exact ha.of_sizes rfl (by simp) rfl rfl
  | write h s start data _ _ _ _ => exact ha.of_sizes rfl rfl (by simp) rfl
  | payload slot old value _ _ => exact ha.of_sizes rfl rfl rfl (by simp)

theorem Built.layout {a : Arena} (ha : a.Built) : a.Layout :=
  ha.induction layout_empty Move.layout

/-- Every run leads to an arena that is laid out in the order of its tokens. What a buffer needs
room for beside is therefore known. Zeros are refused if they do not fit behind the buffers there
are: as misuse exactly from 2^64 bytes on, and for want of room exactly from 2^63 bytes up to there.
Otherwise they are a buffer of their own at the end of the pool. -/
theorem layout_after (ops : List Op) :
    let a := empty.after ops
    a.Layout ∧ ∀ length,
      let stop := spanTotal a.spans + length
      ((a.addZeros length).1 = .error (.misuse (.poolFull length)) ↔
        0x10000000000000000 ≤ stop) ∧
      ((a.addZeros length).1 = .error .noRoom ↔
        0x8000000000000000 ≤ stop ∧ stop < 0x10000000000000000) ∧
      (0x8000000000000000 ≤ stop → (a.addZeros length).2 = a) ∧
      (stop < 0x8000000000000000 →
        ∃ b, a.addZeros length = (.ok ⟨a.size⟩, b) ∧
          b.bytesOf ⟨a.size⟩ = .ok (List.replicate length 0) ∧
          b = { a with
            tokens := a.tokens.push (.bytes ⟨a.pool.size, a.pool.size + length⟩)
            pool := a.pool ++ Array.replicate length 0 }) := by
  intro a
  have ha : a.Layout := (built_after ops).layout
  have htotal : spanTotal a.spans = a.pool.size := by
    have := ha.pool.total
    omega
  refine ⟨ha, fun length => ?_⟩
  rw [htotal]
  rcases Nat.lt_or_ge (a.pool.size + length) 0x8000000000000000 with hroom | hhalf
  · have hadd := addZeros_of_room _ hroom
    have hzeros : (List.replicate length (0 : UInt8)).toArray = Array.replicate length 0 := by simp
    refine ⟨?_, ?_, ?_, fun _ => ⟨_, hadd, bytesOf_addBytes a _, ?_⟩⟩
    · simp only [hadd, reduceCtorEq, false_iff]
      omega
    · simp only [hadd, reduceCtorEq, false_iff]
      omega
    · omega
    · rw [addBytes_eq, hzeros, List.length_replicate]
  · rcases Nat.lt_or_ge (a.pool.size + length) 0x10000000000000000 with hend | hfull
    · have hadd := addZeros_of_noRoom _ hhalf hend
      simp [hadd, hhalf, hend, Nat.not_lt.mpr hhalf]
    · have hadd := addZeros_of_full _ hfull
      simp [hadd, hhalf, hfull, Nat.not_lt.mpr hhalf, Nat.not_lt.mpr hfull]

/-- The end of 2^63 zeros can be told, and yet they are no buffer of a new arena. -/
theorem zeros_without_room :
    spanTotal (empty.after []).spans + 0x8000000000000000 ≤ 0xffffffffffffffff ∧
      ¬ ∃ h b, (empty.after []).addZeros 0x8000000000000000 = (.ok h, b) := by
  have hnone : (empty.after []).addZeros 0x8000000000000000 = (.error .noRoom, empty) :=
    addZeros_of_noRoom _ (by decide) (by decide)
  refine ⟨by decide, ?_⟩
  rintro ⟨h, b, hadd⟩
  cases hnone.symm.trans hadd

end Arena

end TokenStore
