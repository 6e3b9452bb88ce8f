import Mathlib.Data.List.Lex
import TokenStore.Proofs.Positions

/-!
# The order of paths

A tree has its root before what is below it, and what is below the first child before what is below
the second. Paths that are listed in this order are in lexicographic order, each of them once. The
values of a document are numbered in this order.

## Main definitions

* `pathsBelow`: the paths of trees that stand side by side.
-/

namespace TokenStore

/-- The paths of trees that stand side by side, where the paths within each are given and the first
tree is number `index`. -/
def pathsBelow (index : Nat) : List (List (List Nat)) → List (List Nat)
  | [] => []
  | ps :: pss => ps.map (index :: ·) ++ pathsBelow (index + 1) pss

section paths

variable {index : Nat} {pss : List (List (List Nat))} {path : List Nat}

theorem mem_pathsBelow :
    path ∈ pathsBelow index pss ↔
      ∃ i ps rest, pss[i]? = some ps ∧ rest ∈ ps ∧ path = (index + i) :: rest := by
  induction pss generalizing index with
  | nil => simp [pathsBelow]
  | cons ps pss ih =>
    rw [pathsBelow, List.mem_append, List.mem_map, ih]
    constructor
    · rintro (⟨rest, hrest, rfl⟩ | ⟨i, qs, rest, hi, hrest, rfl⟩)
      · exact ⟨0, ps, rest, rfl, hrest, rfl⟩
      · exact ⟨i + 1, qs, rest, hi, hrest, by grind⟩
    · rintro ⟨_ | i, qs, rest, hi, hrest, rfl⟩
      · cases hi
        exact .inl ⟨rest, hrest, rfl⟩
      · exact .inr ⟨i, qs, rest, hi, hrest, by grind⟩

/-- Paths that are in order within every tree are in order. -/
theorem pairwise_pathsBelow (hpss : ∀ ps ∈ pss, ps.Pairwise (· < ·)) :
    (pathsBelow index pss).Pairwise (· < ·) := by
  induction pss generalizing index with
  | nil => exact .nil
  | cons ps pss ih =>
    obtain ⟨hps, hpss⟩ := List.forall_mem_cons.mp hpss
    refine List.pairwise_append.mpr ⟨?_, ih hpss, ?_⟩
    · exact hps.map _ fun p q hpq => List.cons_lt_cons_iff.mpr (.inr ⟨rfl, hpq⟩)
    · intro p hp q hq
      obtain ⟨p, -, rfl⟩ := List.mem_map.mp hp
      obtain ⟨i, -, q, -, -, rfl⟩ := mem_pathsBelow.mp hq
      exact List.cons_lt_cons_iff.mpr (.inl (by omega))

/-- Where what the paths of every tree lead to is listed in their order, what all of them lead to is
listed in order by one list after the other. -/
theorem forall₂_pathsBelow {α : Type} {R : List Nat → α → Prop} {xss : List (List α)}
    (hlength : pss.length = xss.length)
    (h : ∀ i ps xs, pss[i]? = some ps → xss[i]? = some xs →
      List.Forall₂ (fun path x => R ((index + i) :: path) x) ps xs) :
    List.Forall₂ R (pathsBelow index pss) xss.flatten := by
  induction pss generalizing index xss with
  | nil =>
    obtain rfl := List.length_eq_zero_iff.mp hlength.symm
    exact .nil
  | cons ps pss ih =>
    obtain _ | ⟨xs, xss⟩ := xss
    · cases hlength
    have hfirst := h 0 ps xs rfl rfl
    have hrest : List.Forall₂ R (pathsBelow (index + 1) pss) xss.flatten :=
      ih (by simpa using hlength) fun i ps xs hps hxs => by
        have := h (i + 1) ps xs hps hxs
        rwa [Nat.add_right_comm]
    exact List.rel_append (List.forall₂_map_left_iff.mpr hfirst) hrest

end paths

namespace Json

variable {v : Json} {path : List Nat}

theorem itemPositions_eq (index : Nat) (vs : List Json) :
    itemPositions index vs = pathsBelow index (vs.map positions) := by
  induction vs generalizing index with
  | nil => rfl
  | cons v vs ih => rw [itemPositions, ih, List.map_cons, pathsBelow]

/-- The positions are all paths that lead to a value. -/
theorem mem_positions : path ∈ v.positions ↔ ∃ w, v.follow? path = some w := by
  induction v using itemsInduction generalizing path with
  | arr items ih =>
    rw [positions, List.mem_cons, itemPositions_eq, mem_pathsBelow]
    cases path with
    | nil => simp
    | cons i path =>
      simp only [reduceCtorEq, false_or, Nat.zero_add, follow?_arr_cons, List.getElem?_map]
      constructor
      · rintro ⟨j, ps, rest, hps, hrest, hcons⟩
        cases hcons
        obtain ⟨u, hu, rfl⟩ := Option.map_eq_some_iff.mp hps
        rw [hu, Option.bind_some]
        exact (ih u (List.mem_of_getElem? hu)).mp hrest
      · rintro ⟨w, hw⟩
        obtain ⟨u, hu, hw⟩ := Option.bind_eq_some_iff.mp hw
        have hpath := (ih u (List.mem_of_getElem? hu)).mpr ⟨w, hw⟩
        exact ⟨i, _, path, by rw [hu, Option.map_some], hpath, rfl⟩
  | other v hscalar =>
    rw [positions_of_scalar hscalar, List.mem_singleton]
    cases path with
    | nil => simp
    | cons i path =>
      cases v with
      | arr items => exact absurd rfl (hscalar items)
      | _ => simp [follow?]

theorem pairwise_positions (v : Json) : v.positions.Pairwise (· < ·) := by
  induction v using itemsInduction with
  | arr items ih =>
    rw [positions, itemPositions_eq]
    refine .cons ?_ (pairwise_pathsBelow (List.forall_mem_map.mpr ih))
    intro p hp
    obtain ⟨i, -, rest, -, -, rfl⟩ := mem_pathsBelow.mp hp
    exact List.nil_lt_cons _ _
  | other v hscalar => simp [positions_of_scalar hscalar]

/-- The number of a position is how many others stand before it. -/
theorem idxOf_positions {k : Nat} (hk : v.positions[k]? = some path) :
    v.positions.idxOf path = k := by
  have hnodup : v.positions.Nodup := v.pairwise_positions.imp fun h => ne_of_lt h
  obtain ⟨hlt, rfl⟩ := List.getElem?_eq_some_iff.mp hk
  exact hnodup.idxOf_getElem k hlt

end Json

end TokenStore
