import Mathlib.Data.Finset.Sort
import TokenStore.Proofs.Depth
import TokenStore.Proofs.Leaves
import TokenStore.Proofs.Lines

/-!
# What a sweep visits

A sweep visits a token once for every path that leads to it, in the order of the paths, and then it
is done. At any time what it has found and the leaves of what is pending are the leaves of the token
that it started from.

## Main definitions

* `Sweep.Visits`: the tokens that a sweep visits on the way from one state to another.
* `Sweep.Accounts`: nothing is lost or added on the way.
* `Links.visited`: the tokens that paths lead to, in the order of the paths.
-/

namespace TokenStore

namespace Sweep

variable {a : Arena} {h x : Handle} {room : Nat} {rest : List (Nat × Handle)}
  {hs hs' es : List Handle} {s s' s'' : Sweep} {found : Array Handle}

/-! ## Single visits -/

theorem visit_leaf (hx : a.links x = .ok none) :
    visit a room x rest found = .ok ⟨rest, found.push x⟩ := by
  simp [visit_eq, hx]

theorem visit_seq (hx : a.links x = .ok (some es)) :
    visit a (room + 1) x rest found = .ok ⟨es.map (room, ·) ++ rest, found⟩ := by
  simp [visit_eq, hx]

/-- How a visit goes. -/
theorem visit_ok_cases (hvisit : visit a room x rest found = .ok s) :
    (a.links x = .ok none ∧ s = ⟨rest, found.push x⟩) ∨
      ∃ es below, a.links x = .ok (some es) ∧ room = below + 1 ∧
        s = ⟨es.map (below, ·) ++ rest, found⟩ := by
  rw [visit_eq] at hvisit
  obtain ⟨o, ho, hvisit⟩ := Outcome.bind_eq_ok_iff.mp hvisit
  cases o with
  | none =>
    cases hvisit
    exact .inl ⟨ho, rfl⟩
  | some es =>
    cases room with
    | zero => cases hvisit
    | succ room =>
      cases hvisit
      exact .inr ⟨es, room, ho, rfl, rfl⟩

/-! ## Visits one after the other -/

/-- From the first state to the second, the sweep visits these tokens. -/
inductive Visits (a : Arena) : List Handle → Sweep → Sweep → Prop where
  | done (s : Sweep) : Visits a [] s s
  | next {room : Nat} {x : Handle} {rest : List (Nat × Handle)} {found : Array Handle}
      {hs : List Handle} {s s' : Sweep} (hvisit : visit a room x rest found = .ok s)
      (hmore : Visits a hs s s') : Visits a (x :: hs) ⟨(room, x) :: rest, found⟩ s'

theorem Visits.trans (h : Visits a hs s s') (h' : Visits a hs' s' s'') :
    Visits a (hs ++ hs') s s'' := by
  induction h with
  | done s => exact h'
  | next hvisit hmore ih => exact .next hvisit (ih h')

/-- Sweeps do not choose: one that is under way goes on to the end that there is. -/
theorem Visits.exists_more (h : Visits a hs s s') (hall : Visits a hs' s ⟨[], found⟩) :
    ∃ more, hs' = hs ++ more ∧ Visits a more s' ⟨[], found⟩ := by
  induction h generalizing hs' with
  | done s => exact ⟨hs', rfl, hall⟩
  | next hvisit hmore ih =>
    cases hall with
    | next hvisit' hmore' =>
      cases hvisit.symm.trans hvisit'
      obtain ⟨more, rfl, hrest⟩ := ih hmore'
      exact ⟨more, rfl, hrest⟩

/-- Running is visiting until nothing is pending. -/
theorem Visits.run_eq (h : Visits a hs s s') : s.run a = s'.run a := by
  induction h with
  | done s => rfl
  | next hvisit hmore ih =>
    rw [run, ← ih]
    split
    next s heq =>
      cases heq.symm.trans hvisit
      rfl
    next e heq => cases heq.symm.trans hvisit

/-! ## What visits keep -/

/-- What was found and the leaves of what is pending are the leaves of `h`, and all that is pending
can be reached from there. -/
structure Accounts (a : Arena) (h : Handle) (leaves : Handle → List Handle) (s : Sweep) : Prop where
  reached : ∀ p ∈ s.pending, a.links.Reaches h p.2
  leaves : s.found.toList ++ s.pending.flatMap (leaves ·.2) = leaves h

section accounts

variable {leaves : Handle → List Handle}

theorem accounts_start (a : Arena) (room : Nat) (h : Handle) (leaves : Handle → List Handle) :
    Accounts a h leaves (start room h) := by
  refine ⟨?_, by simp [start]⟩
  intro p hp
  obtain rfl : p = (room, h) := List.mem_singleton.mp hp
  exact .refl h

variable (hrule : a.links.LeafRule h leaves)
include hrule

theorem Accounts.visit (hbefore : Accounts a h leaves ⟨(room, x) :: rest, found⟩)
    (hvisit : Sweep.visit a room x rest found = .ok s) : Accounts a h leaves s := by
  obtain ⟨hx, hrest⟩ := List.forall_mem_cons.mp hbefore.reached
  have hleaves := hbefore.leaves
  have hroot := hrule x hx
  rw [List.flatMap_cons] at hleaves
  rcases visit_ok_cases hvisit with ⟨hleaf, rfl⟩ | ⟨es, below, hes, rfl, rfl⟩
  · rw [hleaf] at hroot
    exact ⟨hrest, by simpa [hroot] using hleaves⟩
  · rw [hes] at hroot
    refine ⟨List.forall_mem_append.mpr ⟨?_, hrest⟩, ?_⟩
    case refine_2 => simpa [hroot, List.flatMap_map] using hleaves
    exact List.forall_mem_map.mpr fun y hy => hx.trans (.head ⟨es, hes, hy⟩ (.refl y))

theorem Accounts.visits (hbefore : Accounts a h leaves s) (hvisits : Visits a hs s s') :
    Accounts a h leaves s' := by
  induction hvisits with
  | done s => exact hbefore
  | next hvisit hmore ih => exact ih (hbefore.visit hrule hvisit)

end accounts

end Sweep

/-! ## The tokens at the ends of paths -/

namespace Links

/-- The tokens that paths from `h` lead to, as far as they have at most `depth` indices. -/
def visited (f : Links) : Nat → Handle → List Handle
  | 0, h => [h]
  | depth + 1, h =>
    match f h with
    | .ok (some es) => h :: es.flatMap (visited f depth)
    | _ => [h]

variable {f : Links} {h : Handle} {es : List Handle}

theorem visited_leaf (hf : f h = .ok none) (depth : Nat) : f.visited depth h = [h] := by
  cases depth <;> simp [visited, hf]

theorem visited_succ (hf : f h = .ok (some es)) (depth : Nat) :
    f.visited (depth + 1) h = h :: es.flatMap (f.visited depth) := by
  simp [visited, hf]

end Links

namespace Sweep

variable {a : Arena} {h : Handle} {ls : List Handle}

/-- A sweep goes through tokens that are pending side by side one after the other. -/
theorem visits_flatMap {below : Nat} {es : List Handle} {lss : List (List Handle)}
    (hes : List.Forall₂ (fun x (ls : List Handle) => ∀ rest found,
      Visits a (a.links.visited below x) ⟨(below, x) :: rest, found⟩ ⟨rest, found ++ ls⟩) es lss)
    (rest : List (Nat × Handle)) (found : Array Handle) :
    Visits a (es.flatMap (a.links.visited below)) ⟨es.map (below, ·) ++ rest, found⟩
      ⟨rest, found ++ lss.flatten⟩ := by
  induction hes generalizing found with
  | nil => simpa using .done _
  | @cons x ls es lss hx hes ih =>
    have hfound : found ++ (ls :: lss).flatten = found ++ ls ++ lss.flatten :=
      Array.ext' (by simp)
    rw [hfound, List.flatMap_cons]
    exact (hx _ found).trans (ih (found ++ ls))

/-- Where a search has levels enough, a sweep goes along its paths, and what else is pending stays
so. -/
theorem visits_visited {depth : Nat} (hls : a.links.leavesWithin depth h = .ok ls)
    (rest : List (Nat × Handle)) (found : Array Handle) :
    Visits a (a.links.visited depth h) ⟨(depth, h) :: rest, found⟩ ⟨rest, found ++ ls⟩ := by
  induction depth using Nat.strongRecOn generalizing h ls rest found with
  | ind depth ih =>
    rcases Links.leavesWithin_ok_cases hls with ⟨hleaf, rfl⟩ | ⟨es, below, lss, hes, rfl, rfl, hlss⟩
    · rw [Links.visited_leaf hleaf]
      exact .next (visit_leaf hleaf) (by simpa using .done _)
    · rw [Links.visited_succ hes]
      exact .next (visit_seq hes)
        (visits_flatMap (hlss.imp fun x ls hx => ih below (Nat.lt_succ_self below) hx) rest found)

end Sweep

namespace Cells

variable {cs : Cells} {h : Handle} {ls : List Handle} {depth : Nat}

/-- A tree that is all there and ends everywhere has its leaves told by a search. -/
theorem Entire.leafRule (hh : cs.Entire h) :
    cs.links.LeafRule h (cs.links.leaves cs.length) := by
  intro x hx
  obtain ⟨ls, hls⟩ := (hh.of_reaches hx).exists_leaves
  obtain ⟨o, ho⟩ := Links.exists_of_leavesWithin_ok hls (.refl x)
  rw [ho]
  cases o with
  | none => exact Links.leaves_leaf ho cs.length
  | some es => exact Links.leaves_seq hls ho

/-- The paths through a sequence lead to the sequence itself and to what is visited below it. -/
theorem forall₂_visited {below : Nat} {es : List Handle} {ts : List (Tree Empty)}
    (hes : cs.links h = .ok (some es))
    (hts : List.Forall₂ (fun x t => List.Forall₂ (fun path y => cs.follow x path = .ok y) t.paths
      (cs.links.visited below x)) es ts) :
    List.Forall₂ (fun path y => cs.follow h path = .ok y) (Tree.seq ts).paths
      (cs.links.visited (below + 1) h) := by
  rw [Tree.paths_eq, Links.visited_succ hes, List.flatMap_def]
  refine .cons rfl (forall₂_pathsBelow (by simp [Tree.children, hts.length_eq]) ?_)
  intro i ps xs hps hxs
  rw [List.getElem?_map, Option.map_eq_some_iff] at hps hxs
  obtain ⟨t, ht, rfl⟩ := hps
  obtain ⟨x, hx, rfl⟩ := hxs
  have hbelow : List.Forall₂ (fun path y => cs.follow x path = .ok y) t.paths
      (cs.links.visited below x) := by
    obtain ⟨hi, rfl⟩ := List.getElem?_eq_some_iff.mp hx
    obtain ⟨hi', rfl⟩ := List.getElem?_eq_some_iff.mp ht
    exact hts.get hi hi'
  rw [Nat.zero_add]
  exact hbelow.imp fun path y hy => follow_cons_iff.mpr ⟨es, x, hes, hx, hy⟩

/-- Where a search has levels enough, so has an unfolding. The paths of the tree that it makes lead
to the tokens that are visited, one after the other. -/
theorem exists_tree (hls : cs.links.leavesWithin depth h = .ok ls) :
    ∃ t, cs.unfold Tree.exportLimit depth h = .ok t ∧
      List.Forall₂ (fun path x => cs.follow h path = .ok x) t.paths (cs.links.visited depth h) := by
  induction depth using Nat.strongRecOn generalizing h ls with
  | ind depth ih =>
    rcases Links.leavesWithin_ok_cases hls with ⟨hleaf, -⟩ | ⟨es, below, lss, hes, rfl, -, hlss⟩
    · rw [Links.visited_leaf hleaf]
      obtain ⟨x, hx, hleaf⟩ := Outcome.bind_eq_ok_iff.mp hleaf
      have hunfold {t : Tree Empty} (ht : x.tree? = some t) :
          cs.unfold Tree.exportLimit depth h = .ok t := unfold_leaf (find_eq_ok_iff.mp hx) ht depth
      cases x with
      | seq es => cases hleaf
      | _ => exact ⟨_, hunfold rfl, .cons rfl .nil⟩
    · have hbelow : ∀ x ∈ es, ∃ t, cs.unfold Tree.exportLimit below x = .ok t ∧
          List.Forall₂ (fun path y => cs.follow x path = .ok y) t.paths
            (cs.links.visited below x) := by
        intro x hx
        obtain ⟨l, hl⟩ := Outcome.exists_of_forall₂ hlss hx
        exact ih below (Nat.lt_succ_self below) hl
      obtain ⟨ts, hts⟩ := Outcome.exists_forall₂ hbelow
      exact ⟨.seq ts, unfold_seq (links_eq_seq_iff.mp hes) (hts.imp fun _ _ ht => ht.1),
        forall₂_visited hes (hts.imp fun _ _ ht => ht.2)⟩

theorem mem_paths_iff (hfound : ∀ x, cs.links.Reaches h x → x.index < cs.length) {t : Tree Empty}
    (ht : cs.unfold Tree.exportLimit depth h = .ok t) (path : List Nat) :
    path ∈ t.paths ↔ ∃ x, cs.follow h path = .ok x := by
  rw [Tree.mem_paths, ← exists_unfolding_iff hfound, ← (unfolding_of_export ht).1,
    Tree.unfolding_eq_map_at?]
  cases t.at? path <;> simp

end Cells

namespace Arena

variable {a : Arena} {h : Handle}

/-- Below a token whose tree is all there and ends everywhere, there are finitely many paths. A
sweep visits the token at the end of each of them, in their order, and then it is done. However far
it has come, nothing was lost: what it has found and the leaves of what is pending are the leaves of
the token. -/
theorem sweep_visits_paths (ha : a.Built) (hh : a.Entire h) :
    ∃ (paths : Finset (List Nat)) (leaves : Handle → List Handle) (visited : List Handle)
      (found : Array Handle),
      (∀ path, path ∈ paths ↔ ∃ x, a.follow h path = .ok x) ∧
      a.links.LeafRule h leaves ∧
      Sweep.Visits a visited (Sweep.start a.size h) ⟨[], found⟩ ∧
      visited.length = paths.card ∧
      List.Forall₂ (fun path x => a.follow h path = .ok x) paths.sort visited ∧
      a.leaves h = .ok found ∧ found.toList = leaves h ∧
      ∀ hs s, Sweep.Visits a hs (Sweep.start a.size h) s →
        (∃ more, visited = hs ++ more ∧ Sweep.Visits a more s ⟨[], found⟩) ∧
        s.found.toList ++ s.pending.flatMap (fun p => leaves p.2) = leaves h := by
  have hlayout := ha.layout
  have hcells := hlayout.entire_cells hh
  obtain ⟨ls, hls⟩ := hcells.exists_leaves
  obtain ⟨t, ht, hends⟩ := Cells.exists_tree hls
  have hmem := Cells.mem_paths_iff hcells.found ht
  rw [hlayout.links_cells, length_cells] at hls hends
  simp only [← hlayout.follow_cells] at hends hmem
  have hnodup : t.paths.Nodup := t.pairwise_paths.imp fun hlt => hlt.ne
  have hsort : t.paths.toFinset.sort = t.paths :=
    (List.toFinset_sort _ hnodup).mpr (t.pairwise_paths.imp fun hlt => hlt.le)
  have hvisits : Sweep.Visits a (a.links.visited a.size h) (Sweep.start a.size h)
      ⟨[], ls.toArray⟩ := by simpa [Sweep.start] using Sweep.visits_visited hls [] #[]
  have hrule := hcells.leafRule
  rw [hlayout.links_cells] at hrule
  refine ⟨t.paths.toFinset, _, a.links.visited a.size h, ls.toArray, ?_, hrule, hvisits, ?_, ?_, ?_,
    ?_, ?_⟩
  · intro path
    rw [List.mem_toFinset, hmem]
  · rw [List.toFinset_card_of_nodup hnodup, hends.length_eq]
  · rwa [hsort]
  · rw [Arena.leaves, hvisits.run_eq, Sweep.run]
  · rw [hrule.eq hls]
  · intro hs s hreach
    have haccounts := (Sweep.accounts_start a a.size h _).visits hrule hreach
    exact ⟨hreach.exists_more hvisits, haccounts.leaves⟩

/-- Seven paths lead through the sharing sequences, and four tokens are visited for them. -/
theorem sweep_visits_paths_sharing :
    ∃ paths : Finset (List Nat), paths.card = 7 ∧ [3, 0] ∈ paths ∧
      List.Forall₂ (fun path x => sharing.follow ⟨3⟩ path = .ok x) paths.sort
        [⟨3⟩, ⟨1⟩, ⟨0⟩, ⟨2⟩, ⟨0⟩, ⟨1⟩, ⟨0⟩] := by
  obtain ⟨paths, leaves, visited, found, hmem, -, -, hcard, hends, -, -, hall⟩ :=
    sweep_visits_paths (built_after _) (entire_sharing (h := ⟨3⟩) (mem_handles.mpr (by decide)))
  have hvisits : Sweep.Visits sharing [⟨3⟩, ⟨1⟩, ⟨0⟩, ⟨2⟩, ⟨0⟩, ⟨1⟩, ⟨0⟩] (Sweep.start 4 ⟨3⟩)
      ⟨[], #[⟨0⟩, ⟨0⟩, ⟨0⟩]⟩ :=
    .next rfl (.next rfl (.next rfl (.next rfl (.next rfl (.next rfl (.next rfl (.done _)))))))
  obtain ⟨⟨more, rfl, hmore⟩, -⟩ := hall _ _ hvisits
  cases hmore
  exact ⟨paths, hcard.symm, (hmem _).mpr ⟨⟨0⟩, rfl⟩, hends⟩

end Arena

end TokenStore
