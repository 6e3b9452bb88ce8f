import TokenStore.Proofs.Import

/-!
# Positions in a document

A value of a document is found by a path of array indices from the root. The paths in the order in
which the values begin in the text number the tokens that an import makes of them.

## Main definitions

* `Json.follow?`: the value at the end of a path.
* `Json.positions`: the paths to all values, in the order of the text.
* `Json.Made`: what an import makes of the value at a position.
-/

namespace TokenStore

namespace Json

/-- The value that a path of array indices leads to. -/
def follow? : Json → List Nat → Option Json
  | v, [] => some v
  | .arr items, i :: path => items[i]?.bind (follow? · path)
  | _, _ :: _ => none

mutual

/-- The paths to all values of a document: an array before its items, and the items in order. -/
def positions : Json → List (List Nat)
  | .arr items => [] :: itemPositions 0 items
  | _ => [[]]

/-- The paths into items that stand in an array from number `index` on. -/
def itemPositions (index : Nat) : List Json → List (List Nat)
  | [] => []
  | v :: vs => (positions v).map (index :: ·) ++ itemPositions (index + 1) vs

end

/-- If the positions `ps` are numbered from `base` on, then `h` has the number of `q`. -/
def Numbers (base : Nat) (ps : List (List Nat)) (q : List Nat) (h : Handle) : Prop :=
  ∃ k, ps[k]? = some q ∧ h = ⟨base + k⟩

/-- What an import makes of the value at position `q`: the cell of a scalar, or a sequence of
`count n` of the `n` items of an array, which go by their names. -/
inductive Made (name : List Nat → Handle → Prop) (count : Nat → Nat) (q : List Nat) :
    Json → Cell → Prop
  | leaf {v : Json} {x : Cell} (hx : v.Leaf x) : Made name count q v x
  | arr {items : List Json} {hs : List Handle} (length : hs.length = count items.length)
      (names : ∀ i h, hs[i]? = some h → name (q ++ [i]) h) :
      Made name count q (.arr items) (.seq hs)

/-! ## Paths -/

@[simp] theorem follow?_nil (v : Json) : v.follow? [] = some v := by
  cases v <;> rfl

@[simp] theorem follow?_arr_cons (items : List Json) (i : Nat) (path : List Nat) :
    (arr items).follow? (i :: path) = items[i]?.bind (follow? · path) := rfl

theorem positions_of_scalar {v : Json} (hv : ∀ items, v ≠ .arr items) : v.positions = [[]] := by
  cases v with
  | arr items => exact absurd rfl (hv items)
  | _ => rfl

theorem itemPositions_append (index : Nat) (vs ws : List Json) :
    itemPositions index (vs ++ ws) =
      itemPositions index vs ++ itemPositions (index + vs.length) ws := by
  induction vs generalizing index with
  | nil => simp [itemPositions]
  | cons v vs ih =>
    simp only [List.cons_append, itemPositions, ih, List.append_assoc, List.length_cons]
    rw [Nat.add_right_comm, Nat.add_assoc]

theorem mem_itemPositions {index : Nat} {vs : List Json} {q : List Nat}
    (hq : q ∈ itemPositions index vs) : ∃ i path, i < vs.length ∧ q = (index + i) :: path := by
  induction vs generalizing index with
  | nil => cases hq
  | cons v vs ih =>
    rcases List.mem_append.mp hq with hq | hq
    · obtain ⟨path, -, rfl⟩ := List.mem_map.mp hq
      exact ⟨0, path, Nat.succ_pos _, rfl⟩
    · obtain ⟨i, path, hi, rfl⟩ := ih hq
      refine ⟨i + 1, path, Nat.succ_lt_succ hi, ?_⟩
      rw [Nat.add_right_comm, Nat.add_assoc]

/-! ## Numbers among more positions -/

section numbers

variable {base : Nat} {ps : List (List Nat)} {q : List Nat} {h : Handle}

theorem Numbers.append_left (front : List (List Nat)) (hq : Numbers (base + front.length) ps q h) :
    Numbers base (front ++ ps) q h := by
  obtain ⟨k, hk, rfl⟩ := hq
  refine ⟨front.length + k, ?_, by rw [Nat.add_assoc]⟩
  rw [List.getElem?_append_right (Nat.le_add_right _ _), Nat.add_sub_cancel_left, hk]

theorem Numbers.append_right (back : List (List Nat)) (hq : Numbers base ps q h) :
    Numbers base (ps ++ back) q h := by
  obtain ⟨k, hk, rfl⟩ := hq
  obtain ⟨hlt, -⟩ := List.getElem?_eq_some_iff.mp hk
  exact ⟨k, by rw [List.getElem?_append_left hlt, hk], rfl⟩

theorem Numbers.below (i : Nat) (hq : Numbers base ps q h) :
    Numbers base (ps.map (i :: ·)) (i :: q) h := by
  obtain ⟨k, hk, rfl⟩ := hq
  exact ⟨k, by rw [List.getElem?_map, hk, Option.map_some], rfl⟩

end numbers

theorem Made.imp {name name' : List Nat → Handle → Prop} {count : Nat → Nat} {q q' : List Nat}
    {v : Json} {x : Cell} (hx : Made name count q v x)
    (hname : ∀ i h, name (q ++ [i]) h → name' (q' ++ [i]) h) : Made name' count q' v x := by
  cases hx with
  | leaf hx => exact .leaf hx
  | arr length names => exact .arr length fun i h hi => hname i h (names i h hi)

/-! ## Blocks by positions -/

/-- Cell by cell, what an import makes of the values at the positions. -/
def Spelled (look : List Nat → Option Json) (name : List Nat → Handle → Prop)
    (count : List Nat → Nat → Nat) : List (List Nat) → List Cell → Prop :=
  List.Forall₂ fun q x => ∃ v, look q = some v ∧ Made name (count q) q v x

section spelled

variable {look : List Nat → Option Json} {name name' : List Nat → Handle → Prop}
  {count count' : List Nat → Nat → Nat} {ps : List (List Nat)} {xs : List Cell}

theorem Spelled.getElem? (h : Spelled look name count ps xs) {k : Nat} {q : List Nat}
    (hq : ps[k]? = some q) :
    ∃ v x, look q = some v ∧ Made name (count q) q v x ∧ xs[k]? = some x := by
  obtain ⟨hk, rfl⟩ := List.getElem?_eq_some_iff.mp hq
  have hk' : k < xs.length := h.length_eq ▸ hk
  obtain ⟨v, hv, hx⟩ := List.Forall₂.get h hk hk'
  exact ⟨v, xs[k], hv, hx, List.getElem?_eq_getElem hk'⟩

theorem Spelled.imp (h : Spelled look name count ps xs) (hname : ∀ q h, name q h → name' q h) :
    Spelled look name' count ps xs := by
  refine List.Forall₂.imp ?_ h
  rintro q x ⟨v, hv, hx⟩
  exact ⟨v, hv, hx.imp fun i h => hname (q ++ [i]) h⟩

theorem Spelled.congr (h : Spelled look name count ps xs) (hcount : ∀ q ∈ ps, count q = count' q) :
    Spelled look name count' ps xs := by
  refine List.Forall₂.imp ?_ ((List.forall₂_and_left ps xs).mpr ⟨hcount, h⟩)
  rintro q x ⟨hq, v, hv, hx⟩
  exact ⟨v, hv, hq ▸ hx⟩

/-- Positions in an item become positions in the array. -/
theorem Spelled.below {items : List Json} {i : Nat} {v : Json} (hi : items[i]? = some v)
    (h : Spelled v.follow? name count ps xs) (hname : ∀ q h, name q h → name' (i :: q) h)
    (hcount : ∀ q, count' (i :: q) = count q) :
    Spelled (arr items).follow? name' count' (ps.map (i :: ·)) xs := by
  refine List.forall₂_map_left_iff.mpr (List.Forall₂.imp ?_ h)
  rintro q x ⟨w, hw, hx⟩
  refine ⟨w, by simp [hi, hw], ?_⟩
  rw [hcount]
  exact hx.imp fun j h => hname (q ++ [j]) h

end spelled

/-- Every item of every array. -/
def every (_ : List Nat) (n : Nat) : Nat := n

mutual

theorem Block.spelled {base : Nat} {v : Json} {xs : List Cell} (h : v.Block base xs) :
    Spelled v.follow? (Numbers base v.positions) every v.positions xs := by
  cases h with
  | leaf hx =>
    rw [positions_of_scalar (by rintro items rfl; cases hx)]
    exact .cons ⟨v, follow?_nil v, .leaf hx⟩ .nil
  | @arr _ items hs xs hitems =>
    obtain ⟨hspelled, hlength, hnames⟩ := hitems.spelled [] []
    rw [List.nil_append, List.append_nil] at hspelled
    refine .cons ⟨.arr items, rfl, .arr hlength fun i h hi => ?_⟩ ?_
    · have hnumber := hnames i h hi
      rw [List.length_nil, Nat.zero_add] at hnumber
      exact hnumber.append_left [[]]
    · exact hspelled.imp fun q h hq => hq.append_left [[]]

/-- The blocks of items that stand between other items of an array. -/
theorem Blocks.spelled {base : Nat} {vs : List Json} {hs : List Handle} {xs : List Cell}
    (h : Blocks base vs hs xs) (front back : List Json) :
    Spelled (arr (front ++ vs ++ back)).follow? (Numbers base (itemPositions front.length vs)) every
        (itemPositions front.length vs) xs ∧
      hs.length = vs.length ∧
        ∀ i h, hs[i]? = some h →
          Numbers base (itemPositions front.length vs) [front.length + i] h := by
  cases h with
  | nil => exact ⟨.nil, rfl, nofun⟩
  | @cons _ v vs hs xs ys hv hvs =>
    have hfirst := hv.spelled
    obtain ⟨hrest, hlength, hnames⟩ := hvs.spelled (front ++ [v]) back
    have hxs : xs.length = (v.positions.map (front.length :: ·)).length := by
      rw [List.length_map, hfirst.length_eq]
    have hmove : ∀ q h, Numbers (base + xs.length) (itemPositions (front.length + 1) vs) q h →
        Numbers base (itemPositions front.length (v :: vs)) q h := by
      intro q h hq
      rw [hxs] at hq
      exact hq.append_left _
    rw [List.length_append, List.length_singleton] at hrest hnames
    refine ⟨?_, congrArg (· + 1) hlength, ?_⟩
    · refine List.rel_append (hfirst.below ?_ ?_ fun _ => rfl) ?_
      · simp
      · exact fun q h hq => (hq.below front.length).append_right _
      · rw [List.append_cons]
        exact hrest.imp hmove
    · rintro (_ | i) h hi
      · obtain rfl : ⟨base⟩ = h := by simpa using hi
        refine Numbers.append_right _ ?_
        refine Numbers.below front.length (q := []) ⟨0, ?_, rfl⟩
        cases v <;> rfl
      · have hnumber := hmove _ _ (hnames i h hi)
        rwa [Nat.add_right_comm, Nat.add_assoc] at hnumber

end

end Json

end TokenStore
