import TokenStore.Proofs.Depth
import TokenStore.Proofs.Paths
import TokenStore.Proofs.Refusal
import TokenStore.Proofs.Scalars

/-!
# Paths in what was imported

A path of indices leads through the tokens that an import has made as it leads through the arrays
of the document. It comes to the token whose number is that of the position in the document, and
the import of the value at the position stands there as if it had been imported alone. Where the
path leaves the document, it fails.

## Main definitions

* `Json.LeadsOut`: how a path leaves a document.
-/

namespace TokenStore

theorem Cells.elementsOf_of_other {cs : Cells} {h : Handle} {x : Cell}
    (hx : cs[h.index]? = some x) (hother : x.elements? = none) :
    cs.elementsOf h = .error (x.mismatch Tag.sequence) := by
  simp [elementsOf, cast, find_eq_ok_iff.mpr hx, hother]

namespace Json

variable {v w : Json} {path : List Nat}

/-- What can be imported at some depth can be imported at any lesser one. -/
theorem Importable.mono {depth less : Nat} (hv : v.Importable depth) (hle : less ≤ depth) :
    v.Importable less := by
  induction hv generalizing less with
  | arr hd _ ih => exact .arr (hle.trans hd) fun v hv => ih v hv (Nat.succ_le_succ hle)
  | str s hd => exact .str s (hle.trans hd)
  | int n hd => exact .int n (hle.trans hd)
  | sint hd hn => exact .sint (hle.trans hd) hn
  | uint hd hn => exact .uint (hle.trans hd) hn

/-- A path leads out of the document at the first index to which there is no item: it is past the
end of the array that the path has come to, or the path has come to a scalar. The failure says
which. -/
inductive LeadsOut : Json → List Nat → Failure → Prop
  | past {items : List Json} {i : Nat} {rest : List Nat} (hi : items.length ≤ i) :
      LeadsOut (.arr items) (i :: rest) (.misuse (.pastEnd i items.length))
  | scalar {v : Json} {x : Cell} {i : Nat} {rest : List Nat} (hx : v.Leaf x) :
      LeadsOut v (i :: rest) (.misuse (.wrongKind Tag.sequence x.tag))
  | item {items : List Json} {v : Json} {i : Nat} {rest : List Nat} {e : Failure}
      (hi : items[i]? = some v) (hrest : LeadsOut v rest e) : LeadsOut (.arr items) (i :: rest) e

section blocks

variable {cs : Cells} {base : Nat} {xs : List Cell}

/-- Among the blocks of items there is that of each item, and its positions are numbered in a
row. -/
theorem Blocks.item {vs : List Json} {hs : List Handle} (h : Blocks base vs hs xs)
    (hxs : cs.Contains base xs) {i : Nat} (hv : vs[i]? = some v) (index : Nat) :
    ∃ k ys, v.Block (base + k) ys ∧ cs.Contains (base + k) ys ∧ hs[i]? = some ⟨base + k⟩ ∧
      ∀ (j : Nat) (q : List Nat), v.positions[j]? = some q →
        (itemPositions index vs)[k + j]? = some ((index + i) :: q) := by
  induction vs generalizing base hs xs i index with
  | nil => cases hv
  | cons u vs ih =>
    cases h with
    | @cons _ _ _ hs xs ys hu hvs =>
      cases i with
      | zero =>
        cases hv
        refine ⟨0, xs, hu, hxs.left, rfl, fun j q hq => ?_⟩
        have hj : j < (v.positions.map (index :: ·)).length := by
          rw [List.length_map]
          exact (List.getElem?_eq_some_iff.mp hq).1
        rw [itemPositions, Nat.zero_add, List.getElem?_append_left hj, List.getElem?_map, hq]
        rfl
      | succ i =>
        obtain ⟨k, zs, hblock, hzs, hroot, hpositions⟩ := ih hvs hxs.right hv (index + 1)
        rw [Nat.add_assoc] at hblock hzs hroot
        refine ⟨xs.length + k, zs, hblock, hzs, hroot, fun j q hq => ?_⟩
        have hfirst : xs.length = (u.positions.map (index :: ·)).length := by
          rw [List.length_map, hu.spelled.length_eq]
        rw [itemPositions, hfirst, Nat.add_assoc, List.getElem?_append_right (Nat.le_add_right _ _),
          Nat.add_sub_cancel_left, hpositions j q hq, Nat.add_right_comm, Nat.add_assoc]

/-- In the block of a document, a path leads to the block of the value that it leads to in the
document. -/
theorem Block.follow (h : v.Block base xs) (hxs : cs.Contains base xs)
    (hw : v.follow? path = some w) :
    ∃ k ys, w.Block (base + k) ys ∧ cs.Contains (base + k) ys ∧ v.positions[k]? = some path ∧
      cs.follow ⟨base⟩ path = .ok ⟨base + k⟩ := by
  induction path generalizing v base xs with
  | nil =>
    rw [follow?_nil, Option.some.injEq] at hw
    subst hw
    exact ⟨0, xs, h, hxs, by cases v <;> rfl, rfl⟩
  | cons i path ih =>
    cases h with
    | leaf hx => cases hx <;> cases hw
    | @arr _ items hs xs hitems =>
      obtain ⟨u, hu, hw⟩ := Option.bind_eq_some_iff.mp hw
      obtain ⟨k, ys, hblock, hys, hroot, hpositions⟩ := hitems.item hxs.tail hu 0
      obtain ⟨j, zs, hblock, hzs, hj, hfollow⟩ := ih hblock hys hw
      have hnumber : base + 1 + k + j = base + (k + j + 1) := by omega
      rw [hnumber] at hblock hzs hfollow
      refine ⟨k + j + 1, zs, hblock, hzs, ?_, ?_⟩
      · rw [positions, List.getElem?_cons_succ, hpositions j path hj, Nat.zero_add]
      · exact Cells.follow_cons_iff.mpr
          ⟨hs, _, Cells.links_eq_seq_iff.mpr hxs.head, hroot, hfollow⟩

/-- In the block of a document, a path that leads out of the document fails where it does. -/
theorem Block.leadsOut (h : v.Block base xs) (hxs : cs.Contains base xs)
    (hnone : v.follow? path = none) :
    ∃ e, v.LeadsOut path e ∧ cs.follow ⟨base⟩ path = .error e := by
  induction path generalizing v base xs with
  | nil => simp at hnone
  | cons i path ih =>
    rw [Cells.follow, List.foldlM_cons, Cells.element]
    cases h with
    | leaf hx =>
      rw [Cells.elementsOf_of_other hxs.head hx.elements?_eq_none]
      exact ⟨_, .scalar hx, rfl⟩
    | @arr _ items hs xs hitems =>
      have hlength : hs.length = items.length := (hitems.spelled [] []).2.1
      rw [Cells.elementsOf_eq_ok_iff.mpr hxs.head, Outcome.ok_bind]
      cases hi : items[i]? with
      | none =>
        have hpast : items.length ≤ i := List.getElem?_eq_none_iff.mp hi
        have hroot : hs[i]? = none := List.getElem?_eq_none (by omega)
        exact ⟨_, .past hpast, by simp [hroot, hlength]⟩
      | some u =>
        rw [follow?_arr_cons, hi, Option.bind_some] at hnone
        obtain ⟨k, ys, hblock, hys, hroot, -⟩ := hitems.item hxs.tail hi 0
        obtain ⟨e, hout, herror⟩ := ih hblock hys hnone
        exact ⟨e, .item hi hout, by rw [hroot]; exact herror⟩

end blocks

end Json

namespace Arena

variable {a b : Arena} {v w : Json} {root : Handle} {path : List Nat}

/-- Index paths lead through what was imported as they lead through the document. The token at the
end of a path is as far behind the root as there are positions before it in the document, and is
exported as the value at the position. A path that leads out of the document fails. -/
theorem follow_addJson (ha : a.Built) (hadd : a.addJson v = (.ok root, b)) (path : List Nat) :
    ((∃ h, b.follow root path = .ok h) ↔ ∃ w, v.follow? path = some w) ∧
    (∀ w, v.follow? path = some w →
      path ∈ v.positions ∧
        b.follow root path = .ok ⟨root.index + v.positions.idxOf path⟩ ∧
        b.toJson ⟨root.index + v.positions.idxOf path⟩ = .ok w.strip) ∧
    (v.follow? path = none → ∃ e, v.LeadsOut path e ∧ b.follow root path = .error e) := by
  obtain ⟨hv, rfl, hb, xs, hblock, hcells⟩ := ha.layout.addJson_ok hadd
  have hxs : b.cells.Contains a.size xs := contains_behind hcells
  rw [hb.follow_cells]
  cases hpath : v.follow? path with
  | some w =>
    obtain ⟨k, ys, hblock, hys, hk, hfollow⟩ := hblock.follow hxs hpath
    have hw : w.Importable 0 := (hv.follow? hpath).mono (Nat.zero_le _)
    obtain ⟨t, ht, hjson⟩ := hb.exportTree_block hw hblock hys
    rw [Json.idxOf_positions hk, hfollow]
    refine ⟨by simp, ?_, nofun⟩
    rintro w' ⟨⟩
    exact ⟨Json.mem_positions.mpr ⟨w, hpath⟩, rfl, hjson ▸ (toJson_of_exportTree ht).1⟩
  | none =>
    obtain ⟨e, hout, herror⟩ := hblock.leadsOut hxs hpath
    exact ⟨by simp [herror], nofun, fun _ => ⟨e, hout, herror⟩⟩

/-- Behind one token, the root is number 1, and the `-1` is the last of eight values. The array has
three items, and the second is a string. -/
theorem follow_addJson_scattered :
    ∃ b, empty.addSeq.2.addJson scattered = (.ok ⟨1⟩, b) ∧
      b.follow ⟨1⟩ [2, 0, 0] = .ok ⟨8⟩ ∧ b.toJson ⟨8⟩ = .ok (.num (.int (.ofInt64 (-1)))) ∧
      b.follow ⟨1⟩ [7, 0] = .error (.misuse (.pastEnd 7 3)) ∧
      b.follow ⟨1⟩ [1, 4] = .error (.misuse (.wrongKind Tag.sequence Tag.bytes)) := by
  have hbuilt : empty.addSeq.2.Built := built_after [.change .addSeq]
  rcases hadd : empty.addSeq.2.addJson scattered with ⟨r, b⟩
  have hr : (empty.addSeq.2.addJson scattered).1 = .ok ⟨1⟩ := by decide +kernel
  obtain rfl : r = .ok ⟨1⟩ := by rwa [hadd] at hr
  obtain ⟨-, hlast, hjson⟩ := (follow_addJson hbuilt hadd [2, 0, 0]).2.1 _ rfl
  obtain ⟨e, hpast, hpasterror⟩ := (follow_addJson hbuilt hadd [7, 0]).2.2 rfl
  obtain ⟨f, hscalar, hscalarerror⟩ := (follow_addJson hbuilt hadd [1, 4]).2.2 rfl
  refine ⟨b, rfl, hlast, hjson, ?_, ?_⟩
  · rw [hpasterror]
    cases hpast with
    | past hi => rfl
    | scalar hx => cases hx
    | item hi hrest => cases hi
  · rw [hscalarerror]
    cases hscalar with
    | past hi => exact absurd hi (by decide)
    | scalar hx => cases hx
    | item hi hrest =>
      cases hi
      cases hrest with
      | scalar hx =>
        cases hx
        rfl

end Arena

end TokenStore
