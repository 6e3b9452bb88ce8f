import TokenStore.Proofs.Depth

/-!
# What exports forget

An export does not tell whether an integer that is not negative was signed, nor whether an array of
bytes was a byte string or a sequence of numbers. All else in a tree can be read from its document,
an application's values by their tags.

## Main definitions

* `Tree.settled`: the tree with one choice made wherever an export leaves two.
* `Json.tree`: the tree that is read from an export.
-/

namespace TokenStore

namespace Tree

mutual

/-- The tree with all integers unsigned that are not negative, and with sequences of their bytes in
place of byte strings that are no text. -/
def settled : Tree Empty → Tree Empty
  | .bytes data =>
    if ByteArray.IsValidUTF8 ⟨data.toArray⟩ then .bytes data
    else .seq (data.map fun b => .uint b.toUInt64)
  | .sint value => if 0 ≤ value.toInt then .uint (.ofNat value.toInt.toNat) else .sint value
  | .seq ts => .seq (settledAll ts)
  | t => t

def settledAll : List (Tree Empty) → List (Tree Empty)
  | [] => []
  | t :: ts => settled t :: settledAll ts

end

theorem settled_seq (ts : List (Tree Empty)) : settled (.seq ts) = .seq (ts.map settled) := by
  have hall : settledAll ts = ts.map settled := by
    induction ts with
    | nil => rfl
    | cons t ts ih => rw [settledAll, ih, List.map_cons]
  rw [settled, hall]

end Tree

/-- An integer is read as unsigned if it is not negative. -/
def WideInt.tree (n : WideInt) : Tree Empty :=
  if 0 ≤ n.val then .uint (.ofNat n.val.toNat) else .sint (.ofInt n.val)

namespace Json

mutual

/-- The tree that is read from an export. What no export gives is read as an empty sequence. -/
def tree : Json → Tree Empty
  | .str s => .bytes s.toUTF8.data.toList
  | .num (.int n) => n.tree
  | .obj [(_, .num (.int n))] => .user ⟨.ofNat n.val.toNat⟩
  | .arr items => .seq (treeAll items)
  | _ => .seq []

def treeAll : List Json → List (Tree Empty)
  | [] => []
  | v :: vs => tree v :: treeAll vs

end

theorem tree_arr (items : List Json) : tree (.arr items) = .seq (items.map tree) := by
  have hall : treeAll items = items.map tree := by
    induction items with
    | nil => rfl
    | cons v vs ih => rw [treeAll, ih, List.map_cons]
  rw [tree, hall]

end Json

namespace WideInt

theorem tree_ofUInt64 (value : UInt64) : (ofUInt64 value).tree = .uint value := by
  simp [tree, ofUInt64]

theorem tree_ofByte (b : UInt8) : (ofByte b).tree = .uint b.toUInt64 := by
  have hb : UInt64.ofNat b.toNat = b.toUInt64 := UInt64.toNat_inj.mp (by simp)
  simp [tree, ofByte, hb]

theorem ofUInt64_toUInt64 (b : UInt8) : ofUInt64 b.toUInt64 = ofByte b := by
  simp [ofUInt64, ofByte]

theorem ofUInt64_toNat {value : Int64} (hvalue : 0 ≤ value.toInt) :
    ofUInt64 (.ofNat value.toInt.toNat) = ofInt64 value := by
  have hlt : value.toInt.toNat < UInt64.size := by
    have := value.toInt_lt
    simp only [UInt64.size]
    omega
  refine ofUInt64_eq ?_
  rw [UInt64.toNat_ofNat_of_lt' hlt, Int.toNat_of_nonneg hvalue, ofInt64]

end WideInt

namespace Tree

/-- A settled tree has the same document. -/
theorem toJson_settled (t : Tree Empty) : t.settled.toJson = t.toJson := by
  induction t using childrenInduction with
  | seq ts ih =>
    rw [settled_seq, toJson, toJson, toJsonAll_eq_map, toJsonAll_eq_map, List.map_map]
    exact congrArg Json.arr (List.map_congr_left ih)
  | leaf t hleaf =>
    cases t with
    | bytes data =>
      rw [settled]
      split
      next => rfl
      next hdata =>
        rw [toJson, toJson, toJsonAll_eq_map, List.map_map, utf8?_eq_none_iff.mpr hdata]
        refine congrArg Json.arr (List.map_congr_left fun b _ => ?_)
        rw [Function.comp_apply, toJson, WideInt.ofUInt64_toUInt64]
    | sint value =>
      rw [settled]
      split
      next hvalue => rw [toJson, toJson, WideInt.ofUInt64_toNat hvalue]
      next => rfl
    | seq ts => exact absurd rfl (hleaf ts)
    | _ => rfl

/-- A settled tree can be read from its document. -/
theorem tree_toJson (t : Tree Empty) : t.toJson.tree = t.settled := by
  induction t using childrenInduction with
  | seq ts ih =>
    rw [toJson, toJsonAll_eq_map, Json.tree_arr, List.map_map, settled_seq]
    exact congrArg seq (List.map_congr_left ih)
  | leaf t hleaf =>
    cases t with
    | bytes data =>
      rw [toJson, settled]
      cases hdata : utf8? data with
      | some s => rw [if_pos (isValidUTF8_of_utf8? hdata), Json.tree, toUTF8_of_utf8? hdata]
      | none =>
        rw [if_neg (utf8?_eq_none_iff.mp hdata), Json.ofBytes, Json.tree_arr, List.map_map]
        refine congrArg seq (List.map_congr_left fun b _ => ?_)
        rw [Function.comp_apply, Json.tree, WideInt.tree_ofByte]
    | sint value => simp [toJson, settled, Json.tree, WideInt.tree, WideInt.ofInt64]
    | uint value => simp [toJson, settled, Json.tree, WideInt.tree_ofUInt64]
    | user tag => simp [toJson, settled, Json.tree, WideInt.ofTag]
    | seq ts => exact absurd rfl (hleaf ts)
    | cut stub => cases stub

theorem toJson_eq_toJson_iff {t u : Tree Empty} :
    t.toJson = u.toJson ↔ t.settled = u.settled := by
  constructor
  · intro h
    rw [← tree_toJson, ← tree_toJson, h]
  · intro h
    rw [← toJson_settled t, ← toJson_settled u, h]

end Tree

namespace Arena

variable {a b : Arena} {h k : Handle} {v w : Json}

/-- An export shows the tree below a token. -/
theorem Layout.unfolding_of_exportTree (ha : a.Layout) {t : Tree Empty}
    (ht : a.exportTree h = .ok t) : t.unfolding Empty.elim = a.unfolding h := by
  rw [ha.exportTree_cells] at ht
  rw [ha.unfolding_cells]
  exact (Cells.unfolding_of_export ht).1

theorem Layout.exists_tree (ha : a.Layout) (hv : a.toJson h = .ok v) :
    ∃ t : Tree Empty, t.unfolding Empty.elim = a.unfolding h ∧ t.toJson = v := by
  obtain ⟨t, ht, rfl⟩ : ∃ t, a.exportTree h = .ok t ∧ t.toJson = v := by
    simpa [toJson, Outcome.bind_eq_ok_iff] using hv
  exact ⟨t, ha.unfolding_of_exportTree ht, rfl⟩

/-- Two tokens have the same export exactly if the trees below them are the same once they are
settled, and then the settled tree can be read from the export. In these trees an application's
value stands by its tag. -/
theorem toJson_eq_iff (ha : a.Built) (hb : b.Built) (hv : a.toJson h = .ok v)
    (hw : b.toJson k = .ok w) :
    ∃ t u : Tree Empty,
      t.unfolding Empty.elim = a.unfolding h ∧ u.unfolding Empty.elim = b.unfolding k ∧
      (v = w ↔ t.settled = u.settled) ∧ v.tree = t.settled ∧ w.tree = u.settled := by
  obtain ⟨t, ht, rfl⟩ := ha.layout.exists_tree hv
  obtain ⟨u, hu, rfl⟩ := hb.layout.exists_tree hw
  exact ⟨t, u, ht, hu, Tree.toJson_eq_toJson_iff, t.tree_toJson, u.tree_toJson⟩

/-- A signed `5` with a byte string that is no text, and an unsigned `5` with a sequence of a
number. -/
def lookalikes : Arena :=
  empty.after [.change (.addSint 5), .change (.addBytes [255]), .change .addSeq,
    .change (.push ⟨2⟩ ⟨0⟩), .change (.push ⟨2⟩ ⟨1⟩), .change (.addUint 5),
    .change (.addUint 255), .change .addSeq, .change (.push ⟨5⟩ ⟨4⟩), .change .addSeq,
    .change (.push ⟨6⟩ ⟨3⟩), .change (.push ⟨6⟩ ⟨5⟩)]

theorem toJson_eq_iff_lookalikes :
    ∃ v, lookalikes.toJson ⟨2⟩ = .ok v ∧ lookalikes.toJson ⟨6⟩ = .ok v ∧
      lookalikes.unfolding ⟨2⟩ ≠ lookalikes.unfolding ⟨6⟩ ∧
      v.tree = .seq [.uint 5, .seq [.uint 255]] := by
  have hbuilt : lookalikes.Built := built_after _
  have hfirst : lookalikes.exportTree ⟨2⟩ = .ok (.seq [.sint 5, .bytes [255]]) := by
    rw [hbuilt.layout.exportTree_cells]
    exact Cells.unfold_seq rfl
      (.cons (Cells.unfold_leaf rfl rfl _) (.cons (Cells.unfold_leaf rfl rfl _) .nil))
  have hsecond : lookalikes.exportTree ⟨6⟩ = .ok (.seq [.uint 5, .seq [.uint 255]]) := by
    rw [hbuilt.layout.exportTree_cells]
    have hinner : lookalikes.cells.unfold Tree.exportLimit 255 ⟨5⟩ = .ok (.seq [.uint 255]) :=
      Cells.unfold_seq rfl (.cons (Cells.unfold_leaf rfl rfl _) .nil)
    exact Cells.unfold_seq rfl (.cons (Cells.unfold_leaf rfl rfl _) (.cons hinner .nil))
  have hv := (toJson_of_exportTree hfirst).1
  have hw := (toJson_of_exportTree hsecond).1
  obtain ⟨t, u, ht, hu, hsame, htree, -⟩ := toJson_eq_iff hbuilt hbuilt hv hw
  obtain rfl : t = .seq [.sint 5, .bytes [255]] := Tree.ext_unfolding
    (Function.injective_of_subsingleton _)
    (ht.trans (hbuilt.layout.unfolding_of_exportTree hfirst).symm)
  obtain rfl : u = .seq [.uint 5, .seq [.uint 255]] := Tree.ext_unfolding
    (Function.injective_of_subsingleton _)
    (hu.trans (hbuilt.layout.unfolding_of_exportTree hsecond).symm)
  have hsettled : Tree.settled (.seq [.sint 5, .bytes [255]]) =
      .seq [.uint 5, .seq [.uint 255]] := rfl
  refine ⟨_, hv, by rw [hw, hsame.mpr hsettled], ?_, htree.trans hsettled⟩
  intro heq
  cases congrFun heq [0]

end Arena

end TokenStore
