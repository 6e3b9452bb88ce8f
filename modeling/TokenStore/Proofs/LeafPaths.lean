import Mathlib.Data.Finset.Sort
import TokenStore.Proofs.Depth
import TokenStore.Proofs.Leaves
import TokenStore.Proofs.Paths

/-!
# Paths to leaves

Flattening goes through the leaves of a tree with a worklist of its own. It finds what is found by
going down the paths of the tree, one after the other in lexicographic order: a leaf for each path
that ends at one. A token to which several paths lead is found once for each of them.

## Main definitions

* `Links.leafPaths`: the paths to leaves, level by level.
* `Arena.LeafPath`: a path that ends at a leaf.
-/

namespace TokenStore

namespace Links

/-- The paths from `h` to tokens that are no sequences, as far as they have at most `depth`
indices. -/
def leafPaths (f : Links) : Nat → Handle → List (List Nat)
  | 0, h =>
    match f h with
    | .ok none => [[]]
    | _ => []
  | depth + 1, h =>
    match f h with
    | .ok (some es) => pathsBelow 0 (es.map (leafPaths f depth))
    | .ok none => [[]]
    | .error _ => []

variable {f : Links} {h : Handle} {es : List Handle}

theorem leafPaths_leaf (hf : f h = .ok none) (depth : Nat) : f.leafPaths depth h = [[]] := by
  cases depth <;> simp [leafPaths, hf]

theorem leafPaths_succ (hf : f h = .ok (some es)) (depth : Nat) :
    f.leafPaths (depth + 1) h = pathsBelow 0 (es.map (f.leafPaths depth)) := by
  simp [leafPaths, hf]

theorem pairwise_leafPaths (f : Links) (depth : Nat) (h : Handle) :
    (f.leafPaths depth h).Pairwise (· < ·) := by
  induction depth generalizing h with
  | zero =>
    unfold leafPaths
    split <;> simp
  | succ depth ih =>
    unfold leafPaths
    split
    · exact pairwise_pathsBelow (List.forall_mem_map.mpr fun x _ => ih x)
    · simp
    · exact .nil

end Links

namespace Cells

variable {cs : Cells} {h x : Handle} {path : List Nat}

/-- If a search has levels enough, so has the list of the paths. -/
theorem mem_leafPaths {depth : Nat} {ls : List Handle}
    (hls : cs.links.leavesWithin depth h = .ok ls) :
    path ∈ cs.links.leafPaths depth h ↔
      ∃ x, cs.follow h path = .ok x ∧ cs.links x = .ok none := by
  induction depth using Nat.strongRecOn generalizing h path ls with
  | ind depth ih =>
    rcases Links.leavesWithin_ok_cases hls with ⟨hleaf, -⟩ | ⟨es, below, lss, hes, rfl, -, hlss⟩
    · rw [Links.leafPaths_leaf hleaf, List.mem_singleton]
      constructor
      · rintro rfl
        exact ⟨h, rfl, hleaf⟩
      · rintro ⟨x, hx, -⟩
        cases path with
        | nil => rfl
        | cons i path =>
          obtain ⟨es, y, hes, -⟩ := follow_cons_iff.mp hx
          cases hleaf.symm.trans hes
    · have hbelow : ∀ y ∈ es, ∀ path, path ∈ cs.links.leafPaths below y ↔
          ∃ x, cs.follow y path = .ok x ∧ cs.links x = .ok none := by
        intro y hy path
        obtain ⟨ls, hls⟩ := Outcome.exists_of_forall₂ hlss hy
        exact ih below (Nat.lt_succ_self below) hls
      rw [Links.leafPaths_succ hes, mem_pathsBelow]
      constructor
      · rintro ⟨i, ps, rest, hps, hrest, rfl⟩
        rw [List.getElem?_map, Option.map_eq_some_iff] at hps
        obtain ⟨y, hy, rfl⟩ := hps
        obtain ⟨x, hx, hleaf⟩ := (hbelow y (List.mem_of_getElem? hy) rest).mp hrest
        rw [Nat.zero_add]
        exact ⟨x, follow_cons_iff.mpr ⟨es, y, hes, hy, hx⟩, hleaf⟩
      · rintro ⟨x, hx, hleaf⟩
        cases path with
        | nil =>
          cases hx
          cases hes.symm.trans hleaf
        | cons i path =>
          obtain ⟨es', y, hes', hy, hx⟩ := follow_cons_iff.mp hx
          cases hes.symm.trans hes'
          refine ⟨i, _, path, by rw [List.getElem?_map, hy, Option.map_some], ?_, by simp⟩
          exact (hbelow y (List.mem_of_getElem? hy) path).mpr ⟨x, hx, hleaf⟩

/-- The leaves that a search finds are those at the end of the paths, one for each. -/
theorem forall₂_leafPaths {depth : Nat} {ls : List Handle}
    (hls : cs.links.leavesWithin depth h = .ok ls) :
    List.Forall₂ (fun path x => cs.follow h path = .ok x) (cs.links.leafPaths depth h) ls := by
  induction depth using Nat.strongRecOn generalizing h ls with
  | ind depth ih =>
    rcases Links.leavesWithin_ok_cases hls with ⟨hleaf, rfl⟩ | ⟨es, below, lss, hes, rfl, rfl, hlss⟩
    · rw [Links.leafPaths_leaf hleaf]
      exact .cons rfl .nil
    · rw [Links.leafPaths_succ hes]
      refine forall₂_pathsBelow (by rw [List.length_map, hlss.length_eq]) ?_
      intro i ps ls hps hls
      rw [List.getElem?_map, Option.map_eq_some_iff] at hps
      obtain ⟨y, hy, rfl⟩ := hps
      have hls' : cs.links.leavesWithin below y = .ok ls := by
        obtain ⟨hi, rfl⟩ := List.getElem?_eq_some_iff.mp hy
        obtain ⟨hi', rfl⟩ := List.getElem?_eq_some_iff.mp hls
        exact hlss.get hi hi'
      rw [Nat.zero_add]
      refine List.Forall₂.imp ?_ (ih below (Nat.lt_succ_self below) hls')
      exact fun path x hx => follow_cons_iff.mpr ⟨es, y, hes, hy, hx⟩

end Cells

namespace Arena

/-- The path leads from `h` to a token that is no sequence. -/
def LeafPath (a : Arena) (h : Handle) (path : List Nat) : Prop :=
  ∃ x t, a.follow h path = .ok x ∧ a.token x = .ok t ∧ t.isSequence = false

variable {a : Arena} {h : Handle} {path : List Nat}

theorem Layout.leafPath_iff (ha : a.Layout) :
    a.LeafPath h path ↔ ∃ x, a.cells.follow h path = .ok x ∧ a.cells.links x = .ok none := by
  have hkind : ∀ t : Token, t.list? = none ↔ t.isSequence = false := by
    rintro ⟨⟩ <;> simp [Token.list?, Token.isSequence]
  simp only [LeafPath, ha.follow_cells, ha.links_cells, links_eq_none_iff, hkind]
  grind

/-- Flattening lists the leaves of a tree that is all there and ends everywhere. There is one for
each path from the token to a token that is no sequence, in the order of the paths. -/
theorem flattened_leafPaths (ha : a.Built) (hh : a.Entire h) :
    ∃ (paths : Finset (List Nat)) (ls : List Handle),
      (∀ path, path ∈ paths ↔ a.LeafPath h path) ∧
      a.flattened h = .ok ls ∧
      ls.length = paths.card ∧
      List.Forall₂ (fun path x => a.follow h path = .ok x) paths.sort ls ∧
      ((∃ t, a.token h = .ok t ∧ t.isSequence = false) → paths = {[]}) := by
  have hlayout := ha.layout
  obtain ⟨ls, hls⟩ := (hlayout.entire_cells hh).exists_leaves
  have hsorted := a.cells.links.pairwise_leafPaths a.cells.length h
  have hends := Cells.forall₂_leafPaths hls
  have hmem : ∀ path, path ∈ a.cells.links.leafPaths a.cells.length h ↔ a.LeafPath h path :=
    fun path => (Cells.mem_leafPaths hls).trans hlayout.leafPath_iff.symm
  have honly : a.cells.links h = .ok none → a.cells.links.leafPaths a.cells.length h = [[]] :=
    fun hleaf => Links.leafPaths_leaf hleaf a.cells.length
  generalize a.cells.links.leafPaths a.cells.length h = ps at hsorted hends hmem honly
  have hnodup : ps.Nodup := hsorted.imp fun hlt => hlt.ne
  have hsort : ps.toFinset.sort = ps :=
    (List.toFinset_sort _ hnodup).mpr (hsorted.imp fun hlt => hlt.le)
  refine ⟨ps.toFinset, ls, fun path => ?_, ?_, ?_, ?_, ?_⟩
  · rw [List.mem_toFinset, hmem]
  · rw [hlayout.flattened_cells, hls]
  · rw [List.toFinset_card_of_nodup hnodup, hends.length_eq]
  · simp only [hsort, hlayout.follow_cells]
    exact hends
  · rintro ⟨t, ht, hkind⟩
    have hroot : a.LeafPath h [] := ⟨h, t, rfl, ht, hkind⟩
    obtain ⟨x, hx, hleaf⟩ := hlayout.leafPath_iff.mp hroot
    cases hx
    rw [honly hleaf]
    rfl

/-- The number is found at the ends of three paths through the sharing sequences. -/
theorem flattened_leafPaths_sharing :
    ∃ paths : Finset (List Nat), paths.card = 3 ∧ [3, 0] ∈ paths ∧ [1] ∉ paths ∧
      List.Forall₂ (fun path x => sharing.follow ⟨3⟩ path = .ok x) paths.sort
        [⟨0⟩, ⟨0⟩, ⟨0⟩] := by
  have hentire : sharing.Entire ⟨3⟩ := entire_sharing (mem_handles.mpr (by decide))
  obtain ⟨paths, ls, hmem, hls, hcard, hends, -⟩ :=
    flattened_leafPaths (built_after _) hentire
  cases hls.symm.trans flattened_sharing.1
  refine ⟨paths, hcard.symm, (hmem _).mpr ⟨⟨0⟩, _, rfl, rfl, rfl⟩, ?_, hends⟩
  intro hsecond
  obtain ⟨x, t, hx, ht, hkind⟩ := (hmem _).mp hsecond
  cases hx
  cases ht
  cases hkind

end Arena

end TokenStore
