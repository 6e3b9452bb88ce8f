import TokenStore.Proofs.Readability

/-!
# What compact texts tell

Two tokens, of whatever arenas, have the same compact text exactly if the trees below them are the
same down to the greatest depth. Handles, sharing and an application's values are not seen.

## Main definitions

* `Tree.compactLimit`, `Arena.elided`: what becomes of a sequence at the greatest depth.
-/

namespace TokenStore

/-- A tree that has no sequence at a depth ends there, if only sequences have anything below. -/
theorem Unfolding.eq_none_of_flat {u : Unfolding} {depth : Nat}
    (hu : ∀ path i rest l, u (path ++ i :: rest) = some l → ∃ n, u path = some (.sequence n))
    (hflat : ∀ path n, path.length = depth → u path ≠ some (.sequence n)) {path : List Nat}
    (hpath : depth < path.length) : u path = none := by
  cases hl : u path with
  | none => rfl
  | some l =>
    have hsplit : path.take depth ++ path[depth] :: path.drop (depth + 1) = path := by
      rw [← List.drop_eq_getElem_cons, List.take_append_drop]
    rw [← hsplit] at hl
    obtain ⟨n, hn⟩ := hu _ _ _ l hl
    exact absurd hn (hflat _ n (List.length_take_of_le hpath.le))

/-- Such a tree is seen whole by a compact text. -/
theorem Unfolding.cut_of_flat {u : Unfolding} {stub : Nat → Label} {depth : Nat}
    (hu : ∀ path i rest l, u (path ++ i :: rest) = some l → ∃ n, u path = some (.sequence n))
    (hflat : ∀ path n, path.length = depth → u path ≠ some (.sequence n)) :
    u.cut stub depth = u := by
  refine cut_eq_self (fun path l hpath hl => ?_) fun path => eq_none_of_flat hu hflat
  cases l with
  | sequence n => exact absurd hl (hflat path n hpath)
  | _ => rfl

namespace Cells

/-- Only sequences have anything below them. -/
theorem unfolding_append {cs : Cells} {h : Handle} {path rest : List Nat} {i : Nat} {l : Label}
    (hl : cs.unfolding h (path ++ i :: rest) = some l) :
    ∃ n, cs.unfolding h path = some (.sequence n) := by
  induction path generalizing h with
  | nil =>
    cases hx : cs[h.index]? with
    | none => simp [unfolding, hx] at hl
    | some x =>
      cases x with
      | seq es => exact ⟨es.length, by simp [hx, Cell.label]⟩
      | _ => simp [unfolding, hx, Cell.elements?] at hl
  | cons j path ih =>
    obtain ⟨es, hes, hl⟩ := Option.bind_eq_some_iff.mp hl
    obtain ⟨x, hx, hl⟩ := Option.bind_eq_some_iff.mp hl
    obtain ⟨n, hn⟩ := ih hl
    exact ⟨n, by simp [unfolding, hes, hx, hn]⟩

end Cells

/-- What a compact text does with a sequence at the greatest depth. -/
def Tree.compactLimit (_ : Nat) : Except Failure (Tree Unit) := .ok (.cut ())

namespace Arena

variable {a b : Arena} {h k : Handle}

/-- The stub that a compact text has in place of a sequence at the greatest depth, whatever the
sequence holds. -/
def elided (_ : Nat) : Label := .stub none

theorem Layout.unfolding_append (ha : a.Layout) (path : List Nat) (i : Nat) (rest : List Nat)
    (l : Label) (hl : a.unfolding h (path ++ i :: rest) = some l) :
    ∃ n, a.unfolding h path = some (.sequence n) := by
  rw [ha.unfolding_cells] at hl ⊢
  exact Cells.unfolding_append hl

/-- A compact text is written from the tree below the token, cut at the greatest depth. -/
theorem Layout.exists_compact (ha : a.Layout) (hh : ∀ x, a.links.Reaches h x → x ∈ a.handles) :
    ∃ t : Tree Unit, a.compact h = .ok t.compact ∧
      t.unfolding (fun _ => none) = (a.unfolding h).cut elided 256 := by
  have hlimit : ∀ n, ∃ t, Tree.compactLimit n = .ok t ∧ t.children = [] ∧
      t.label (fun _ => none) = elided n := fun _ => ⟨_, rfl, rfl, rfl⟩
  obtain ⟨t, ht, htree⟩ := ha.exists_unfold hh hlimit maxDepth
  have hcompact : a.compactTree h = .ok t := ht
  exact ⟨t, by rw [compact, hcompact]; rfl, htree⟩

/-- Tokens that have no missing token below them, even in a cycle, have compact texts. The texts of
two are the same exactly if their trees are, cut at the greatest depth, and if no sequence stands
there, if their whole trees are. -/
theorem compact_eq_iff (ha : a.Built) (hb : b.Built)
    (hh : ∀ x, a.links.Reaches h x → x ∈ a.handles)
    (hk : ∀ x, b.links.Reaches k x → x ∈ b.handles) :
    ∃ s t, a.compact h = .ok s ∧ b.compact k = .ok t ∧
      (s = t ↔ (a.unfolding h).cut elided 256 = (b.unfolding k).cut elided 256) ∧
      ((∀ path n, path.length = 256 → a.unfolding h path ≠ some (.sequence n)) →
        (∀ path n, path.length = 256 → b.unfolding k path ≠ some (.sequence n)) →
        (s = t ↔ a.unfolding h = b.unfolding k)) := by
  obtain ⟨t, ht, htree⟩ := ha.layout.exists_compact hh
  obtain ⟨u, hu, hutree⟩ := hb.layout.exists_compact hk
  have hmark : Function.Injective fun _ : Unit => (none : Option Nat) := fun _ _ _ => rfl
  have hiff : t.compact = u.compact ↔
      (a.unfolding h).cut elided 256 = (b.unfolding k).cut elided 256 := by
    rw [← htree, ← hutree, Tree.compact_injective.eq_iff]
    exact ⟨fun heq => heq ▸ rfl, Tree.ext_unfolding hmark⟩
  refine ⟨t.compact, u.compact, ht, hu, hiff, fun hflat hflat' => ?_⟩
  rwa [Unfolding.cut_of_flat ha.layout.unfolding_append hflat,
    Unfolding.cut_of_flat hb.layout.unfolding_append hflat'] at hiff

/-- A sequence in itself. -/
def loop : Arena := empty.after [.change .addSeq, .change (.push ⟨0⟩ ⟨0⟩)]

/-- Two sequences in each other. -/
def ring : Arena :=
  empty.after [.change .addSeq, .change .addSeq, .change (.push ⟨0⟩ ⟨1⟩), .change (.push ⟨1⟩ ⟨0⟩)]

/-- Nothing is missing below a token if all elements of all sequences are there. -/
theorem Layout.mem_handles_of_reaches (ha : a.Layout)
    (hclosed : ∀ x ∈ a.cells, ∀ y ∈ x.elements?.getD [], y ∈ a.handles) (hh : h ∈ a.handles)
    (y : Handle) (hy : a.links.Reaches h y) : y ∈ a.handles := by
  have hcells : a.cells.Closed := by
    intro s x hx
    obtain ⟨es, hes, hmem⟩ := Cells.holds_iff.mp hx
    rw [length_cells]
    exact mem_handles.mp (hclosed _ (List.mem_of_getElem? hes) x hmem)
  exact ha.issued_of_reaches hcells hh y hy

/-- Every path leads to a sequence of one element, or out of the tree. -/
theorem unfolding_loop_ring (path : List Nat) :
    loop.cells.unfolding ⟨0⟩ path = ring.cells.unfolding ⟨0⟩ path ∧
      loop.cells.unfolding ⟨0⟩ path = ring.cells.unfolding ⟨1⟩ path := by
  induction path with
  | nil => exact ⟨rfl, rfl⟩
  | cons i path ih =>
    have hloop : loop.cells[(⟨0⟩ : Handle).index]? = some (.seq [⟨0⟩]) := rfl
    have hfirst : ring.cells[(⟨0⟩ : Handle).index]? = some (.seq [⟨1⟩]) := rfl
    have hsecond : ring.cells[(⟨1⟩ : Handle).index]? = some (.seq [⟨0⟩]) := rfl
    rw [Cells.unfolding_cons_of_seq hloop, Cells.unfolding_cons_of_seq hfirst,
      Cells.unfolding_cons_of_seq hsecond]
    cases i with
    | zero => exact ih.symm
    | succ i => exact ⟨rfl, rfl⟩

/-- Neither ends, so both are seen cut at the greatest depth, and there is no telling them apart. -/
theorem compact_eq_iff_loop :
    ∃ s, loop.compact ⟨0⟩ = .ok s ∧ ring.compact ⟨0⟩ = .ok s := by
  have hloop : loop.Built := built_after _
  have hring : ring.Built := built_after _
  obtain ⟨s, t, hs, ht, hiff, -⟩ := compact_eq_iff hloop hring
    (hloop.layout.mem_handles_of_reaches (h := ⟨0⟩) (by decide) (by decide))
    (hring.layout.mem_handles_of_reaches (h := ⟨0⟩) (by decide) (by decide))
  have hsame : loop.unfolding ⟨0⟩ = ring.unfolding ⟨0⟩ := by
    rw [hloop.layout.unfolding_cells, hring.layout.unfolding_cells]
    exact funext fun path => (unfolding_loop_ring path).1
  exact ⟨s, hs, by rw [ht, hiff.mpr (by rw [hsame])]⟩

end Arena

end TokenStore
