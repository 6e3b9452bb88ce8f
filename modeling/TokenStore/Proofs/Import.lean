import TokenStore.Proofs.Cells.Simulation
import TokenStore.Proofs.Join

/-!
# What an import makes

An import accepts a grammar of documents, and makes one block of tokens of each: a token for every
array and every scalar, in the order in which they begin in the text.

## Main definitions

* `Json.Importable`: the documents that are accepted at a depth.
* `Json.Leaf`, `Json.Block`: the cells that a scalar and a document stand for.
* `Arena.Shows`: what reading a token gives.
-/

namespace TokenStore

namespace WideInt

variable {n : WideInt}

theorem toInt64?_eq_some_iff {m : Int64} : n.toInt64? = some m ↔ m.toInt = n.val := by
  have hlower := n.lower
  unfold toInt64?
  constructor
  · split
    next hn =>
      rintro ⟨⟩
      exact Int64.toInt_ofInt_of_le hlower hn
    next => nofun
  · intro hm
    have hn : n.val < 9223372036854775808 := hm ▸ m.toInt_lt
    rw [if_pos hn, ← hm, Int64.ofInt_toInt]

theorem toUInt64?_eq_some_iff {m : UInt64} : n.toUInt64? = some m ↔ (m.toNat : Int) = n.val := by
  have hupper := n.upper
  unfold toUInt64?
  constructor
  · split
    next hn =>
      rintro ⟨⟩
      have hsize : n.val.toNat < 18446744073709551616 := by omega
      rw [UInt64.toNat_ofNat_of_lt' hsize, Int.toNat_of_nonneg hn]
    next => nofun
  · intro hm
    have hn : 0 ≤ n.val := by omega
    rw [if_pos hn, ← hm, Int.toNat_natCast, UInt64.ofNat_toNat]

theorem toUInt64?_eq_none_iff : n.toUInt64? = none ↔ n.val < 0 := by
  unfold toUInt64?
  split <;> simp <;> omega

end WideInt

namespace Number

variable {n : Number}

theorem toInt64?_eq_some_iff {m : Int64} :
    n.toInt64? = some m ↔ ∃ k, n = .int k ∧ m.toInt = k.val := by
  cases n with
  | int k => simp [toInt64?, WideInt.toInt64?_eq_some_iff]
  | float value => simp [toInt64?]

theorem toUInt64?_eq_some_iff {m : UInt64} :
    n.toUInt64? = some m ↔ ∃ k, n = .int k ∧ (m.toNat : Int) = k.val := by
  cases n with
  | int k => simp [toUInt64?, WideInt.toUInt64?_eq_some_iff]
  | float value => simp [toUInt64?]

end Number

namespace Json

/-- The documents that can be imported at `depth`. A plain integer is in range by its type. -/
inductive Importable : Nat → Json → Prop
  | arr {depth : Nat} {items : List Json} (hd : depth ≤ 256)
      (hitems : ∀ v ∈ items, Importable (depth + 1) v) : Importable depth (.arr items)
  | str {depth : Nat} (s : String) (hd : depth ≤ 256) : Importable depth (.str s)
  | int {depth : Nat} (n : WideInt) (hd : depth ≤ 256) : Importable depth (.num (.int n))
  | sint {depth : Nat} {n : WideInt} (hd : depth ≤ 256)
      (hn : -9223372036854775808 ≤ n.val ∧ n.val ≤ 9223372036854775807) :
      Importable depth (.obj [("sint", .num (.int n))])
  | uint {depth : Nat} {n : WideInt} (hd : depth ≤ 256)
      (hn : 0 ≤ n.val ∧ n.val ≤ 18446744073709551615) :
      Importable depth (.obj [("uint", .num (.int n))])

/-- The cell that a scalar stands for. -/
inductive Leaf : Json → Cell → Prop
  | str (s : String) : Leaf (.str s) (.bytes s.toUTF8.data.toList)
  | nonneg {n : WideInt} {m : UInt64} (hm : (m.toNat : Int) = n.val) :
      Leaf (.num (.int n)) (.uint m)
  | neg {n : WideInt} {m : Int64} (hn : n.val < 0) (hm : m.toInt = n.val) :
      Leaf (.num (.int n)) (.sint m)
  | sint {n : WideInt} {m : Int64} (hm : m.toInt = n.val) :
      Leaf (.obj [("sint", .num (.int n))]) (.sint m)
  | uint {n : WideInt} {m : UInt64} (hm : (m.toNat : Int) = n.val) :
      Leaf (.obj [("uint", .num (.int n))]) (.uint m)

mutual

/-- The cells that a document stands for, root first, if the root is token number `base`. -/
inductive Block : Nat → Json → List Cell → Prop
  | leaf {base : Nat} {v : Json} {x : Cell} (hx : Leaf v x) : Block base v [x]
  | arr {base : Nat} {items : List Json} {hs : List Handle} {xs : List Cell}
      (hitems : Blocks (base + 1) items hs xs) : Block base (.arr items) (.seq hs :: xs)

/-- The blocks of several documents one after the other, and the handles of their roots. -/
inductive Blocks : Nat → List Json → List Handle → List Cell → Prop
  | nil {base : Nat} : Blocks base [] [] []
  | cons {base : Nat} {v : Json} {vs : List Json} {hs : List Handle} {xs ys : List Cell}
      (hv : Block base v xs) (hvs : Blocks (base + xs.length) vs hs ys) :
      Blocks base (v :: vs) (⟨base⟩ :: hs) (xs ++ ys)

end

/-! ## Scalars -/

theorem leaf_of_cell {v : Json} {x : Cell} (hx : v.cell = .ok x) : v.Leaf x := by
  unfold cell at hx
  split at hx
  · cases hx
    exact .str _
  · cases hx
  next n =>
    split at hx
    next m hm =>
      cases hx
      exact .nonneg (WideInt.toUInt64?_eq_some_iff.mp hm)
    next hm =>
      cases hx
      have hn := WideInt.toUInt64?_eq_none_iff.mp hm
      exact .neg hn (Int64.toInt_ofInt_of_le n.lower (by omega))
  next key n =>
    split at hx
    next hkey =>
      subst hkey
      split at hx
      next m hm =>
        cases hx
        obtain ⟨k, rfl, hk⟩ := Number.toInt64?_eq_some_iff.mp hm
        exact .sint hk
      next => cases hx
    next =>
      split at hx
      next hkey =>
        subst hkey
        split at hx
        next m hm =>
          cases hx
          obtain ⟨k, rfl, hk⟩ := Number.toUInt64?_eq_some_iff.mp hm
          exact .uint hk
        next => cases hx
      next => cases hx
  all_goals cases hx

theorem Leaf.importable {v : Json} {x : Cell} (hx : v.Leaf x) {depth : Nat} (hd : depth ≤ 256) :
    v.Importable depth := by
  cases hx with
  | str s => exact .str s hd
  | nonneg _ => exact .int _ hd
  | neg _ _ => exact .int _ hd
  | @sint n m hm =>
    have hlower := m.le_toInt
    have hupper := m.toInt_lt
    exact .sint hd (by omega)
  | @uint n m hm =>
    have hupper := m.toNat_lt
    exact .uint hd (by omega)

/-- Every scalar that can be imported stands for a cell. -/
theorem Importable.exists_cell {v : Json} {depth : Nat} (hv : v.Importable depth)
    (hscalar : ∀ items, v ≠ .arr items) : ∃ x, v.cell = .ok x := by
  cases hv with
  | arr hd hitems => exact absurd rfl (hscalar _)
  | str s hd => exact ⟨_, rfl⟩
  | int n hd =>
    unfold cell
    cases hn : n.toUInt64? with
    | some m => exact ⟨.uint m, by simp [hn]⟩
    | none => exact ⟨.sint (Int64.ofInt n.val), by simp [hn]⟩
  | @sint _ n hd hn =>
    have hm : (Number.int n).toInt64? = some (Int64.ofInt n.val) :=
      Number.toInt64?_eq_some_iff.mpr ⟨n, rfl, Int64.toInt_ofInt_of_le hn.1 (by omega)⟩
    exact ⟨.sint (Int64.ofInt n.val), by simp [cell, hm]⟩
  | @uint _ n hd hn =>
    cases hm : n.toUInt64? with
    | some m => exact ⟨.uint m, by simp [cell, Number.toUInt64?, hm]⟩
    | none => exact absurd (WideInt.toUInt64?_eq_none_iff.mp hm) (Int.not_lt.mpr hn.1)

theorem Importable.depth_le {v : Json} {depth : Nat} (hv : v.Importable depth) :
    depth ≤ maxDepth := by
  cases hv with
  | arr hd hitems => exact hd
  | str s hd => exact hd
  | int n hd => exact hd
  | sint hd hn => exact hd
  | uint hd hn => exact hd

end Json

namespace Cells

/-! ## Imports into cells -/

section push

variable {cs : Cells} {seq : Handle} {es : List Handle}

theorem push_of_seq (hseq : cs[seq.index]? = some (.seq es)) (h : Handle) :
    cs.push seq h = (.ok (), cs.put seq (.seq (es ++ [h]))) := by
  simp [push, elementsOf, cast, find, hseq, Cell.elements?]

theorem put_put (x y : Cell) : (cs.put seq x).put seq y = cs.put seq y := List.set_set ..

theorem getElem?_put (hseq : cs[seq.index]? = some (.seq es)) (x : Cell) :
    (cs.put seq x)[seq.index]? = some x := by
  obtain ⟨hlt, -⟩ := List.getElem?_eq_some_iff.mp hseq
  simp [put, hlt]

theorem getElem?_append_of_some {i : Nat} {x : Cell} (hx : cs[i]? = some x) (xs : List Cell) :
    (cs ++ xs)[i]? = some x := by
  obtain ⟨hlt, -⟩ := List.getElem?_eq_some_iff.mp hx
  rw [List.getElem?_append_left hlt, hx]

theorem put_append (hseq : cs[seq.index]? = some (.seq es)) (xs : List Cell) (x : Cell) :
    put (cs ++ xs) seq x = cs.put seq x ++ xs := by
  obtain ⟨hlt, -⟩ := List.getElem?_eq_some_iff.mp hseq
  exact List.set_append_left _ _ hlt

end push

theorem cast_of_find {α : Type} {cs : Cells} {h : Handle} {x : Cell} {part : Cell → Option α}
    {expected : Tag} {value : α} (hx : cs.find h = .ok x) (hpart : part x = some value) :
    cs.cast part expected h = .ok value := by
  simp [cast, hx, hpart]

/-- A value's import, if it succeeds, adds the value's block, and the value can be imported. -/
def AddsBlock (depth : Nat) (v : Json) : Prop :=
  ∀ {cs cs' : Cells} {h : Handle}, cs.addValue depth v = (.ok h, cs') →
    v.Importable depth ∧ h = ⟨cs.length⟩ ∧ ∃ xs, v.Block cs.length xs ∧ cs' = cs ++ xs

/-- Item by item: each block goes behind the one before it, and its root into the sequence, which
stands in front of them all. -/
theorem addItems_of_ok {items : List Json} {depth : Nat} (hall : ∀ v ∈ items, AddsBlock depth v)
    {cs cs' : Cells} {index : Nat} {seq : Handle} {es : List Handle}
    (hseq : cs[seq.index]? = some (.seq es))
    (hok : cs.addItems depth seq index items = (.ok (), cs')) :
    (∀ v ∈ items, v.Importable depth) ∧
      ∃ hs xs, Json.Blocks cs.length items hs xs ∧ cs' = cs.put seq (.seq (es ++ hs)) ++ xs := by
  induction items generalizing cs es index with
  | nil =>
    unfold addItems at hok
    cases hok
    refine ⟨by simp, [], [], .nil, ?_⟩
    obtain ⟨hlt, hes⟩ := List.getElem?_eq_some_iff.mp hseq
    simp [put, ← hes]
  | cons v vs ih =>
    unfold addItems at hok
    split at hok
    next h cs₁ hadd =>
      obtain ⟨hv, rfl, xs, hblock, rfl⟩ := hall v List.mem_cons_self hadd
      have hseq₁ := getElem?_append_of_some hseq xs
      rw [push_of_seq hseq₁] at hok
      obtain ⟨hvs, hs, ys, hblocks, rfl⟩ :=
        ih (fun w hw => hall w (List.mem_cons_of_mem v hw)) (getElem?_put hseq₁ _) hok
      have hlength : (put (cs ++ xs) seq (.seq (es ++ [⟨cs.length⟩]))).length =
          cs.length + xs.length := by simp [put]
      rw [hlength] at hblocks
      refine ⟨List.forall_mem_cons.mpr ⟨hv, hvs⟩, _, _, .cons hblock hblocks, ?_⟩
      rw [put_put, put_append hseq, List.append_assoc, List.append_assoc]
      rfl
    next => cases hok

theorem addValue_of_ok (v : Json) (depth : Nat) : AddsBlock depth v := by
  induction v using Json.itemsInduction generalizing depth with
  | arr items ih =>
    intro cs cs' h hok
    unfold addValue at hok
    split at hok
    next => cases hok
    next hd =>
      dsimp only at hok
      split at hok
      next cs'' hitems =>
        cases hok
        have hseq : (cs ++ [Cell.seq []])[cs.length]? = some (.seq []) := by simp
        obtain ⟨hall, hs, xs, hblocks, rfl⟩ :=
          addItems_of_ok (fun v hv => ih v hv (depth + 1)) hseq hitems
        refine ⟨.arr (Nat.not_lt.mp hd) hall, rfl, .seq hs :: xs, ?_, ?_⟩
        · rw [List.length_append] at hblocks
          exact .arr hblocks
        · simp [put]
      next => cases hok
  | other v hscalar =>
    intro cs cs' h hok
    unfold addValue at hok
    split at hok
    next => cases hok
    next hd =>
      split at hok
      next items => exact absurd rfl (hscalar items)
      next =>
        split at hok
        next x hx =>
          cases hok
          have hleaf := Json.leaf_of_cell hx
          exact ⟨hleaf.importable (Nat.not_lt.mp hd), rfl, [x], .leaf hleaf, rfl⟩
        next => cases hok

theorem addValue_scalar_succeeds {v : Json} {depth : Nat} (hv : v.Importable depth)
    (hscalar : ∀ items, v ≠ .arr items) (cs : Cells) :
    ∃ h cs', cs.addValue depth v = (.ok h, cs') := by
  obtain ⟨x, hx⟩ := hv.exists_cell hscalar
  refine ⟨⟨cs.length⟩, cs ++ [x], ?_⟩
  unfold addValue
  rw [if_neg (Nat.not_lt.mpr hv.depth_le)]
  split
  next items => exact absurd rfl (hscalar items)
  next => simp [hx, add]

/-- Items that can each be imported can be imported in a row. -/
theorem addItems_succeeds {items : List Json} {depth : Nat} {seq : Handle}
    (hall : ∀ v ∈ items, ∀ cs : Cells, ∃ h cs', cs.addValue depth v = (.ok h, cs')) {cs : Cells}
    {es : List Handle} (hseq : cs[seq.index]? = some (.seq es)) (index : Nat) :
    ∃ cs', cs.addItems depth seq index items = (.ok (), cs') := by
  induction items generalizing cs es index with
  | nil =>
    unfold addItems
    exact ⟨cs, rfl⟩
  | cons v vs ih =>
    obtain ⟨h, cs₁, hadd⟩ := hall v List.mem_cons_self cs
    obtain ⟨-, rfl, xs, -, rfl⟩ := addValue_of_ok v depth hadd
    have hseq₁ := getElem?_append_of_some hseq xs
    obtain ⟨cs', hc'⟩ := ih (fun w hw => hall w (List.mem_cons_of_mem v hw))
      (getElem?_put hseq₁ _) (index + 1)
    refine ⟨cs', ?_⟩
    unfold addItems
    rw [hadd]
    simp only [push_of_seq hseq₁]
    exact hc'

theorem addValue_succeeds {v : Json} {depth : Nat} (hv : v.Importable depth) (cs : Cells) :
    ∃ h cs', cs.addValue depth v = (.ok h, cs') := by
  induction hv generalizing cs with
  | @arr depth items hd hitems ih =>
    have hseq : (cs ++ [Cell.seq []])[(⟨cs.length⟩ : Handle).index]? = some (.seq []) := by simp
    obtain ⟨cs', hc'⟩ := addItems_succeeds ih hseq 0
    refine ⟨⟨cs.length⟩, cs', ?_⟩
    unfold addValue
    simp only [maxDepth, Nat.not_lt.mpr hd, if_false, hc']
  | str s hd => exact addValue_scalar_succeeds (.str s hd) (by simp) cs
  | int n hd => exact addValue_scalar_succeeds (.int n hd) (by simp) cs
  | sint hd hn => exact addValue_scalar_succeeds (.sint hd hn) (by simp) cs
  | uint hd hn => exact addValue_scalar_succeeds (.uint hd hn) (by simp) cs

end Cells

/-! ## Blocks behind other cells -/

def Cell.shift (n : Nat) : Cell → Cell
  | .seq hs => .seq (hs.map (Handle.shift n))
  | x => x

namespace Json

theorem Leaf.shift {v : Json} {x : Cell} (hx : v.Leaf x) (n : Nat) : x.shift n = x := by
  cases hx <;> rfl

mutual

theorem Block.shift {base : Nat} {v : Json} {xs : List Cell} (h : v.Block base xs) (n : Nat) :
    v.Block (n + base) (xs.map (Cell.shift n)) := by
  cases h with
  | leaf hx =>
    rw [List.map_singleton, hx.shift n]
    exact .leaf hx
  | arr hitems => exact .arr (hitems.shift n)

theorem Blocks.shift {base : Nat} {vs : List Json} {hs : List Handle} {xs : List Cell}
    (h : Blocks base vs hs xs) (n : Nat) :
    Blocks (n + base) vs (hs.map (Handle.shift n)) (xs.map (Cell.shift n)) := by
  cases h with
  | nil => exact .nil
  | cons hv hvs =>
    have hvs := hvs.shift n
    rw [List.map_append, List.map_cons]
    refine .cons (hv.shift n) ?_
    rwa [List.length_map, Nat.add_assoc]

end

mutual

theorem Block.payload?_eq_none {base : Nat} {v : Json} {xs : List Cell} (h : v.Block base xs) :
    ∀ x ∈ xs, x.payload? = none := by
  cases h with
  | leaf hx =>
    rintro x (_ | ⟨_, ⟨⟩⟩)
    cases hx <;> rfl
  | arr hitems =>
    rintro x (_ | ⟨_, hx⟩)
    · rfl
    · exact hitems.payload?_eq_none x hx

theorem Blocks.payload?_eq_none {base : Nat} {vs : List Json} {hs : List Handle}
    {xs : List Cell} (h : Blocks base vs hs xs) : ∀ x ∈ xs, x.payload? = none := by
  cases h with
  | nil => nofun
  | cons hv hvs =>
    intro x hx
    rcases List.mem_append.mp hx with hx | hx
    · exact hv.payload?_eq_none x hx
    · exact hvs.payload?_eq_none x hx

end

end Json

namespace Arena

/-- What reading a token gives, if it is of the kind of the cell. -/
def Shows (a : Arena) (h : Handle) : Cell → Prop
  | .seq hs => (·.toList) <$> a.elementsOf h = .ok hs
  | .bytes data => a.bytesOf h = .ok data
  | .sint value => a.sintOf h = .ok value
  | .uint value => a.uintOf h = .ok value
  | .user tag value => a.payloadOf tag value.type h = .ok value

theorem Layout.shows {a : Arena} (ha : a.Layout) {h : Handle} {x : Cell}
    (hx : a.cells[h.index]? = some x) : a.Shows h x := by
  have hfind : a.cells.find h = .ok x := by simp only [Cells.find, hx]
  cases x with
  | seq hs => exact (ha.elementsOf_cells h).trans (Cells.cast_of_find hfind rfl)
  | bytes data => exact (ha.bytesOf_cells h).trans (Cells.cast_of_find hfind rfl)
  | sint value => exact (ha.sintOf_cells h).trans (Cells.cast_of_find hfind rfl)
  | uint value => exact (ha.uintOf_cells h).trans (Cells.cast_of_find hfind rfl)
  | user tag value =>
    refine (ha.payloadOf_cells tag value.type h).trans ?_
    simp [Cells.payloadOf, -find_cells, hfind, Cell.tag, Cell.payload?]

theorem Shows.join {a b : Arena} {h : Handle} {x : Cell} (hx : b.Shows h x) :
    (a.join b).Shows (h.shift a.size) (x.shift a.size) := by
  cases x with
  | seq hs =>
    simp only [Shows, Cell.shift] at hx ⊢
    rw [elementsOf_join, ← Outcome.map_ok, ← hx, Functor.map_map, Functor.map_map]
    simp only [Elements.toList_shift]
  | bytes data => exact (bytesOf_join a b h).trans hx
  | sint value => exact (sintOf_join a b h).trans hx
  | uint value => exact (uintOf_join a b h).trans hx
  | user tag value => exact (payloadOf_join a b h tag value.type).trans hx

/-- An import into an empty arena. -/
theorem addJson_empty {v : Json} {h : Handle} {b : Arena} (hok : empty.addJson v = (.ok h, b)) :
    v.Importable 0 ∧ h = ⟨0⟩ ∧ b.payloads = #[] ∧
      ∃ xs, v.Block 0 xs ∧ b.size = xs.length ∧ ∀ k x, xs[k]? = some x → b.Shows ⟨k⟩ x := by
  have hb : b.Layout := by
    have := (empty.addValue_moves 0 v).preserve Move.layout layout_empty
    rwa [← addJson, hok] at this
  have hseen := layout_empty.seen_addValue 0 v
  rw [← addJson, hok] at hseen
  obtain ⟨hv, rfl, xs, hblock, hcells⟩ := Cells.addValue_of_ok v 0 hseen.symm
  have hxs : b.cells = xs := hcells
  refine ⟨hv, rfl, ?_, xs, hblock, ?_, fun k x hx => hb.shows (hxs ▸ hx)⟩
  · have hnone : b.cells.countP (fun x => x.payload?.isSome) = 0 := by
      rw [hxs, List.countP_eq_zero]
      intro x hx
      simp [hblock.payload?_eq_none x hx]
    have hsize : b.cells.stats.payloads = b.payloads.size := congrArg Stats.payloads hb.stats_cells
    exact Array.eq_empty_of_size_eq_zero (hsize.symm.trans hnone)
  · rw [← length_cells, hxs]

/-- An import succeeds exactly on the documents of the grammar. It then adds their block behind
what is in the arena, which stays as it is. -/
theorem addJson_block (a : Arena) (v : Json) :
    ((∃ h, (a.addJson v).1 = .ok h) ↔ v.Importable 0) ∧
      (v.Importable 0 → ∃ b xs, a.addJson v = (.ok ⟨a.size⟩, b) ∧ v.Block a.size xs ∧
        b.size = a.size + xs.length ∧ (∀ k x, xs[k]? = some x → b.Shows ⟨a.size + k⟩ x) ∧
        a.tokens.toList <+: b.tokens.toList ∧ a.lists.toList <+: b.lists.toList ∧
        a.pool.toList <+: b.pool.toList ∧ b.payloads = a.payloads) ∧
      a.addJson v = (Handle.shift a.size <$> (empty.addJson v).1, a.join (empty.addJson v).2) := by
  have hjoin := a.addJson_eq_join v
  have hempty : v.Importable 0 → ∃ h b, empty.addJson v = (.ok h, b) := by
    intro hv
    obtain ⟨h, cs, hc⟩ := Cells.addValue_succeeds hv empty.cells
    rw [← layout_empty.seen_addValue] at hc
    have hfst := congrArg Prod.fst hc
    exact ⟨h, (empty.addJson v).2, Prod.ext hfst rfl⟩
  refine ⟨⟨?_, ?_⟩, ?_, hjoin⟩
  · rintro ⟨h, hok⟩
    rcases hadd : empty.addJson v with ⟨r, b⟩
    cases r with
    | ok h => exact (addJson_empty hadd).1
    | error e => simp [hjoin, hadd] at hok
  · intro hv
    obtain ⟨h, b, hadd⟩ := hempty hv
    exact ⟨h.shift a.size, by rw [hjoin, hadd]; rfl⟩
  · intro hv
    obtain ⟨h, b, hadd⟩ := hempty hv
    obtain ⟨-, rfl, hpayloads, xs, hblock, hsize, hshows⟩ := addJson_empty hadd
    refine ⟨a.join b, xs.map (Cell.shift a.size), ?_, hblock.shift a.size, ?_, ?_, ?_⟩
    · rw [hjoin, hadd]
      rfl
    · rw [size_join, hsize, List.length_map]
    · intro k x hx
      obtain ⟨y, hy, rfl⟩ : ∃ y, xs[k]? = some y ∧ y.shift a.size = x := by simpa using hx
      exact (hshows k y hy).join
    · simp [join, hpayloads]

/-- An empty array and `-3` in an array. -/
def nested : Json := .arr [.arr [], .num (.int (.ofInt64 (-3)))]

theorem nested_importable : nested.Importable 0 := by
  refine .arr (by decide) ?_
  rintro v (_ | ⟨_, _ | ⟨_, ⟨⟩⟩⟩)
  · exact .arr (by decide) nofun
  · exact .int _ (by decide)

/-- Behind one token, the root is number 1 and its items are numbers 2 and 3. -/
theorem addJson_block_nested :
    nested.Importable 0 ∧ ∃ b, (empty.addUint 7).2.addJson nested = (.ok ⟨1⟩, b) ∧ b.size = 4 ∧
      b.Shows ⟨1⟩ (.seq [⟨2⟩, ⟨3⟩]) ∧ b.Shows ⟨2⟩ (.seq []) ∧ b.Shows ⟨3⟩ (.sint (-3)) := by
  obtain ⟨b, xs, hadd, hblock, hsize, hshows, -⟩ :=
    (addJson_block (empty.addUint 7).2 nested).2.1 nested_importable
  refine ⟨nested_importable, b, hadd, ?_⟩
  cases hblock with
  | leaf hx => cases hx
  | arr hitems =>
    obtain _ | ⟨hfirst, hrest⟩ := hitems
    obtain ⟨⟨⟩⟩ | ⟨⟨⟩⟩ := hfirst
    obtain _ | ⟨⟨hlast⟩, ⟨⟩⟩ := hrest
    cases hlast with
    | @nonneg _ m hm =>
      have hm : (m.toNat : Int) = -3 := hm
      omega
    | @neg _ m hn hm =>
      obtain rfl : m = -3 := Int64.toInt_inj.mp hm
      exact ⟨hsize, hshows 0 _ rfl, hshows 1 _ rfl, hshows 2 _ rfl⟩

end Arena

end TokenStore
