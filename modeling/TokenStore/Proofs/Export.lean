import TokenStore.Proofs.Frame
import TokenStore.Proofs.Unfolding

/-!
# Exports of imported documents

An export gives an imported document back, except that numbers no longer show that their kind was
chosen. The text of an export is the text of that document, although it is written without it.

## Main definitions

* `Json.strip`: a document in which no kinds of numbers are chosen.
* `Json.TreeReading`: a way to read trees as documents; `Json.exported`: that of an export.
* `Cells.Contains`: cells among others.
-/

namespace TokenStore

namespace Json

/-- The number of an object that is there to choose its kind. -/
def forced? : List (String × Json) → Option Number
  | [(key, .num n)] => if key = "sint" ∨ key = "uint" then some n else none
  | _ => none

mutual

/-- The document with plain numbers in place of the objects that choose their kinds. -/
def strip : Json → Json
  | .arr items => .arr (stripAll items)
  | .obj members =>
    match forced? members with
    | some n => .num n
    | none => .obj (stripMembers members)
  | v => v

def stripAll : List Json → List Json
  | [] => []
  | v :: vs => strip v :: stripAll vs

def stripMembers : List (String × Json) → List (String × Json)
  | [] => []
  | (key, v) :: ms => (key, strip v) :: stripMembers ms

end

theorem stripAll_eq_map (vs : List Json) : stripAll vs = vs.map strip := by
  induction vs with
  | nil => rfl
  | cons v vs ih => rw [stripAll, ih, List.map_cons]

/-- Only objects are replaced. -/
theorem strip_eq_self {v : Json} (hv : ∀ path members, v.follow? path ≠ some (.obj members)) :
    v.strip = v := by
  induction v using itemsInduction with
  | arr items ih =>
    have hitems : ∀ w ∈ items, w.strip = w := by
      intro w hw
      obtain ⟨i, hi⟩ := List.getElem?_of_mem hw
      refine ih w hw fun path members hpath => hv (i :: path) members ?_
      rw [follow?_arr_cons, hi, Option.bind_some, hpath]
    rw [strip, stripAll_eq_map, List.map_congr_left hitems, List.map_id']
  | other v hscalar =>
    cases v with
    | arr items => exact absurd rfl (hscalar items)
    | obj members => exact absurd (follow?_nil _) (hv [] members)
    | _ => rfl

end Json

/-! ## The text of a tree -/

namespace Tree

theorem write_ofByte (out : String) (b : UInt8) :
    Json.write out (.num (.int (.ofByte b))) = out ++ toString b.toNat := rfl

/-- Bytes as numbers are written like the items of an array. -/
theorem writeItems_bytes (out : String) (b : UInt8) (data : List UInt8) :
    Json.writeItems (Json.write out (.num (.int (.ofByte b))))
        (data.map fun b => .num (.int (.ofByte b))) =
      out ++ byteNumbers (b :: data) := by
  induction data generalizing out b with
  | nil => simp [Json.writeItems, write_ofByte, byteNumbers]
  | cons c data ih =>
    have hcomma : (out ++ toString b.toNat).push ',' = out ++ (toString b.toNat ++ ",") := by
      rw [← String.append_assoc]
      rfl
    rw [List.map_cons, Json.writeItems, ih, write_ofByte, hcomma, String.append_assoc]
    simp only [byteNumbers, List.map_cons, String.intercalate_cons_cons]

theorem write_ofBytes (out : String) (data : List UInt8) :
    Json.write out (.ofBytes data) = out ++ "[" ++ byteNumbers data ++ "]" := by
  cases data with
  | nil => simp [Json.ofBytes, Json.write, byteNumbers, String.append_assoc]
  | cons b data =>
    have hitems := writeItems_bytes (out.push '[') b data
    rw [Json.ofBytes, List.map_cons, Json.write, hitems]
    rfl

theorem write_user (out : String) (tag : Tag) :
    Json.write out (toJson (.user tag)) =
      out ++ "\x7b\"user\":" ++ toString tag.code.toNat ++ "\x7d" := by
  have hkey : Json.quoted "user" = "\"user\"" := by decide
  have hnumber : (Number.int (.ofTag tag.code)).text = toString tag.code.toNat := rfl
  simp only [toJson, Json.write, Json.writeMembers, hkey, hnumber]
  rw [← String.toList_inj]
  simp

mutual

theorem writeJson_eq (out : String) (t : Tree Empty) :
    writeJson out t = Json.write out t.toJson := by
  cases t with
  | bytes data =>
    rw [writeJson, toJson]
    cases utf8? data with
    | some s => rfl
    | none => exact (write_ofBytes out data).symm
  | sint value => rfl
  | uint value => rfl
  | user tag => exact (write_user out tag).symm
  | seq children =>
    cases children with
    | nil => rfl
    | cons t ts =>
      rw [writeJson, toJson, toJsonAll, Json.write, writeJson_eq, writeJsonMore_eq]
  | cut stub => cases stub

theorem writeJsonMore_eq (out : String) (ts : List (Tree Empty)) :
    writeJsonMore out ts = Json.writeItems out (toJsonAll ts) := by
  cases ts with
  | nil => rfl
  | cons t ts => rw [writeJsonMore, toJsonAll, Json.writeItems, writeJson_eq, writeJsonMore_eq]

end

/-- The text is that of the document. -/
theorem jsonText_eq (t : Tree Empty) : t.jsonText = t.toJson.compact := writeJson_eq "" t

end Tree

/-! ## Trees of imported documents -/

namespace Tree

/-- What an export does with a sequence at the greatest depth, given how many elements it has. -/
def exportLimit (size : Nat) : Except Failure (Tree Empty) :=
  if size = 0 then .ok (.seq []) else .error Arena.tooDeep

theorem utf8?_toUTF8 (s : String) : utf8? s.toUTF8.data.toList = some s := by
  have hdata : String.fromUTF8? s.toUTF8 = some s := by
    simp only [String.fromUTF8?, String.toUTF8_eq_toByteArray, dif_pos s.isValidUTF8]
    rfl
  rw [utf8?, Array.toArray_toList]
  exact hdata

theorem toJsonAll_eq_map (ts : List (Tree Empty)) : toJsonAll ts = ts.map toJson := by
  induction ts with
  | nil => rfl
  | cons t ts ih => rw [toJsonAll, ih, List.map_cons]

end Tree

theorem WideInt.ofInt64_eq {n : WideInt} {m : Int64} (hm : m.toInt = n.val) : ofInt64 m = n := by
  cases n
  simpa [ofInt64] using hm

theorem WideInt.ofUInt64_eq {n : WideInt} {m : UInt64} (hm : (m.toNat : Int) = n.val) :
    ofUInt64 m = n := by
  cases n
  simpa [ofUInt64] using hm

namespace Cells

/-- The cells of `xs` are among the others from number `base` on. -/
def Contains (cs : Cells) (base : Nat) (xs : List Cell) : Prop :=
  ∀ k x, xs[k]? = some x → cs[base + k]? = some x

theorem Contains.head {cs : Cells} {base : Nat} {x : Cell} {xs : List Cell}
    (h : Contains cs base (x :: xs)) : cs[base]? = some x := h 0 x rfl

theorem Contains.tail {cs : Cells} {base : Nat} {x : Cell} {xs : List Cell}
    (h : Contains cs base (x :: xs)) : Contains cs (base + 1) xs := by
  intro k y hy
  rw [Nat.add_assoc, Nat.add_comm 1]
  exact h (k + 1) y hy

theorem Contains.left {cs : Cells} {base : Nat} {xs ys : List Cell}
    (h : Contains cs base (xs ++ ys)) : Contains cs base xs := by
  intro k x hx
  exact h k x (getElem?_append_of_some hx ys)

theorem Contains.right {cs : Cells} {base : Nat} {xs ys : List Cell}
    (h : Contains cs base (xs ++ ys)) : Contains cs (base + xs.length) ys := by
  intro k y hy
  rw [Nat.add_assoc]
  refine h (xs.length + k) y ?_
  rw [List.getElem?_append_right (Nat.le_add_right _ _), Nat.add_sub_cancel_left, hy]

end Cells

namespace Json

/-- The cell of a scalar shows the scalar. -/
theorem Leaf.toJson {v : Json} {x : Cell} (hx : v.Leaf x) :
    ∃ t, x.tree? = some t ∧ t.toJson = v.strip := by
  cases hx with
  | str s =>
    refine ⟨_, rfl, ?_⟩
    rw [Tree.toJson, Tree.utf8?_toUTF8]
    rfl
  | nonneg hm => exact ⟨_, rfl, congrArg (fun n => num (.int n)) (WideInt.ofUInt64_eq hm)⟩
  | neg hn hm => exact ⟨_, rfl, congrArg (fun n => num (.int n)) (WideInt.ofInt64_eq hm)⟩
  | sint hm => exact ⟨_, rfl, congrArg (fun n => num (.int n)) (WideInt.ofInt64_eq hm)⟩
  | uint hm => exact ⟨_, rfl, congrArg (fun n => num (.int n)) (WideInt.ofUInt64_eq hm)⟩

/-- A way to read trees as documents, by which what was imported is read as what it keeps of the
document. -/
structure TreeReading (Stub : Type) where
  /-- What takes the place of a sequence at the greatest depth, given how many elements it has. -/
  limit : Nat → Except Failure (Tree Stub)
  read : Tree Stub → Json
  kept : Json → Json
  leaf : ∀ {v : Json} {x : Cell}, v.Leaf x → ∃ t, x.tree? = some t ∧ read t = kept v
  seq : ∀ ts, read (.seq ts) = .arr (ts.map read)
  arr : ∀ items, kept (.arr items) = .arr (items.map kept)
  nil : ∃ t, limit 0 = .ok t ∧ read t = .arr []

/-- An export keeps all but the kinds of numbers. -/
def exported : TreeReading Empty where
  limit := Tree.exportLimit
  read := Tree.toJson
  kept := strip
  leaf := Leaf.toJson
  seq ts := by rw [Tree.toJson, Tree.toJsonAll_eq_map]
  arr items := by rw [strip, stripAll_eq_map]
  nil := ⟨.seq [], rfl, rfl⟩

section blocks

variable {Stub : Type} (r : TreeReading Stub) {cs : Cells}

mutual

/-- A block unfolds into the document that it stands for. The levels that a rendering has left and
those that the import has used are the greatest depth together, so both end at the same level. -/
theorem Block.unfold {base : Nat} {v : Json} {xs : List Cell} (h : v.Block base xs)
    (hxs : cs.Contains base xs) {depth room : Nat} (hv : v.Importable depth)
    (hroom : depth + room = 256) :
    ∃ t, cs.unfold r.limit room ⟨base⟩ = .ok t ∧ r.read t = r.kept v := by
  cases h with
  | leaf hx =>
    obtain ⟨t, ht, hread⟩ := r.leaf hx
    exact ⟨t, Cells.unfold_leaf hxs.head ht room, hread⟩
  | @arr _ items hs xs hitems =>
    have hseq := hxs.head
    cases hv with
    | arr hd hall =>
      cases room with
      | zero =>
        -- items would stand one level deeper than any import goes
        have hnil : items = [] := by
          refine List.eq_nil_iff_forall_not_mem.mpr fun v hv => ?_
          have hdeep : depth + 1 ≤ 256 := (hall v hv).depth_le
          omega
        subst hnil
        cases hitems
        obtain ⟨t, ht, hread⟩ := r.nil
        exact ⟨t, (Cells.unfold_seq_zero hseq).trans ht, hread.trans (r.arr []).symm⟩
      | succ room =>
        have hroom : depth + 1 + room = 256 := by omega
        obtain ⟨ts, hts, hread⟩ := hitems.unfold hxs.tail hall hroom
        exact ⟨.seq ts, Cells.unfold_seq hseq hts, by rw [r.seq, hread, r.arr]⟩

theorem Blocks.unfold {base : Nat} {vs : List Json} {hs : List Handle} {xs : List Cell}
    (h : Blocks base vs hs xs) (hxs : cs.Contains base xs) {depth room : Nat}
    (hvs : ∀ v ∈ vs, v.Importable depth) (hroom : depth + room = 256) :
    ∃ ts, List.Forall₂ (fun h t => cs.unfold r.limit room h = .ok t) hs ts ∧
      ts.map r.read = vs.map r.kept := by
  cases h with
  | nil => exact ⟨[], .nil, rfl⟩
  | cons hv hrest =>
    obtain ⟨hfirst, hothers⟩ := List.forall_mem_cons.mp hvs
    obtain ⟨t, ht, hread⟩ := hv.unfold hxs.left hfirst hroom
    obtain ⟨ts, hts, hreads⟩ := hrest.unfold hxs.right hothers hroom
    exact ⟨t :: ts, .cons ht hts, by rw [List.map_cons, List.map_cons, hread, hreads]⟩

end

end blocks

end Json

namespace Arena

variable {a b : Arena} {v : Json} {h root : Handle}

/-! ## Exports -/

theorem toJson_of_exportTree {t : Tree Empty} (ht : a.exportTree h = .ok t) :
    a.toJson h = .ok t.toJson ∧ a.jsonText h = .ok t.toJson.compact := by
  simp [toJson, jsonText, ht, Tree.jsonText_eq]

theorem Layout.exportTree_cells (ha : a.Layout) (h : Handle) :
    a.exportTree h = a.cells.unfold Tree.exportLimit maxDepth h :=
  ha.unfold_cells Tree.exportLimit maxDepth h

/-- What is below a token stays the same when the arena is laid behind another. -/
theorem unfold_join {Stub : Type} (a b : Arena) (limit : Nat → Except Failure (Tree Stub))
    (depth : Nat) (h : Handle) :
    (a.join b).unfold limit depth (h.shift a.size) = b.unfold limit depth h := by
  induction depth using Nat.strongRecOn generalizing h with
  | ind depth ih =>
    unfold unfold
    rw [token_join]
    cases b.token h with
    | error e => rfl
    | ok t =>
      cases t with
      | bytes s => simp [moved, slice_join]
      | sequence id =>
        simp only [Outcome.map_ok, Outcome.ok_bind, moved, list_join]
        cases b.list id with
        | error e => rfl
        | ok e =>
          cases depth with
          | zero => simp [Elements.shift, Elements.size]
          | succ depth =>
            have hbelow := ih depth (Nat.lt_succ_self depth)
            simp [List.mapM_map, Function.comp_def, hbelow]
      | _ => rfl

/-- A block of cells is read as its document. -/
theorem Layout.unfold_block (ha : a.Layout) {Stub : Type} (r : Json.TreeReading Stub) {base : Nat}
    {xs : List Cell} (hv : v.Importable 0) (hblock : v.Block base xs)
    (hxs : a.cells.Contains base xs) :
    ∃ t, a.unfold r.limit maxDepth ⟨base⟩ = .ok t ∧ r.read t = r.kept v := by
  rw [ha.unfold_cells]
  exact hblock.unfold r hxs hv rfl

theorem Layout.exportTree_block (ha : a.Layout) {base : Nat} {xs : List Cell}
    (hv : v.Importable 0) (hblock : v.Block base xs) (hxs : a.cells.Contains base xs) :
    ∃ t, a.exportTree ⟨base⟩ = .ok t ∧ t.toJson = v.strip :=
  ha.unfold_block Json.exported hv hblock hxs

theorem Layout.addJson_ok (ha : a.Layout) (hadd : a.addJson v = (.ok root, b)) :
    v.Importable 0 ∧ root = ⟨a.size⟩ ∧ b.Layout ∧
      ∃ xs, v.Block a.size xs ∧ b.cells = a.cells ++ xs := by
  have hb : b.Layout := by
    have := (a.addValue_moves 0 v).preserve Move.layout ha
    rwa [← addJson, hadd] at this
  have hseen := ha.seen_addValue 0 v
  rw [← addJson, hadd] at hseen
  obtain ⟨hv, hroot, xs, hblock, hcells⟩ := Cells.addValue_of_ok v 0 hseen.symm
  rw [length_cells] at hroot hblock
  exact ⟨hv, hroot, hb, xs, hblock, hcells⟩

theorem contains_behind {xs : List Cell} (hcells : b.cells = a.cells ++ xs) :
    b.cells.Contains a.size xs := by
  intro k x hx
  rw [hcells, ← length_cells, List.getElem?_append_right (Nat.le_add_right _ _),
    Nat.add_sub_cancel_left, hx]

/-- What is imported is the same to see as in an arena of its own. -/
theorem unfold_addJson (hadd : a.addJson v = (.ok root, b)) :
    ∃ k c, empty.addJson v = (.ok k, c) ∧
      ∀ {Stub : Type} (limit : Nat → Except Failure (Tree Stub)) depth,
        b.unfold limit depth root = c.unfold limit depth k := by
  rcases hempty : empty.addJson v with ⟨r, c⟩
  rw [a.addJson_eq_join v, hempty] at hadd
  cases r with
  | error e => cases hadd
  | ok k =>
    cases hadd
    exact ⟨k, c, rfl, fun limit depth => unfold_join a c limit depth k⟩

/-- What was imported is read as what is kept of it. -/
theorem read_addJson {Stub : Type} (r : Json.TreeReading Stub)
    (hadd : a.addJson v = (.ok root, b)) :
    ∃ t, b.unfold r.limit maxDepth root = .ok t ∧ r.read t = r.kept v := by
  -- through an import into an empty arena, since nothing is known of how `a` is laid out
  obtain ⟨k, c, hempty, hsame⟩ := unfold_addJson hadd
  obtain ⟨hv, rfl, hc, xs, hblock, hcells⟩ := layout_empty.addJson_ok hempty
  rw [hsame]
  exact hc.unfold_block r hv hblock (contains_behind hcells)

/-- What was imported is exported as it was, but for the kinds of numbers. -/
theorem exportTree_addJson (hadd : a.addJson v = (.ok root, b)) :
    ∃ t, b.exportTree root = .ok t ∧ t.toJson = v.strip :=
  read_addJson Json.exported hadd

end Arena

end TokenStore
