import TokenStore.Proofs.Compact
import TokenStore.Proofs.Legibility

/-!
# What outlines tell

Two tokens, of whatever arenas, have the same outline exactly if the trees below them are the same
when cut at the depth of the outline. A sequence that is cut still tells its length, and one that is
empty has nothing to be cut. Handles, sharing and an application's values are not seen, and indents
add nothing.

## Main definitions

* `Tree.outlineLimit`, `Arena.lengthOnly`: what becomes of a sequence at the greatest depth.
-/

namespace TokenStore

/-- What an outline does with a sequence at the greatest depth. -/
def Tree.outlineLimit (size : Nat) : Except Failure (Tree Nat) :=
  .ok (if size = 0 then .seq [] else .cut size)

namespace Arena

variable {a b : Arena} {h k : Handle}

/-- The stub that an outline has in place of a sequence at the greatest depth. -/
def lengthOnly (size : Nat) : Label :=
  if size = 0 then .sequence 0 else .stub (some size)

/-- An outline is written from the tree below the token, cut at the depth asked for. -/
theorem Layout.exists_outline (ha : a.Layout) (hh : ∀ x, a.links.Reaches h x → x ∈ a.handles)
    (o : OutlineOptions) (names : Option TagTable) :
    ∃ t : Tree Nat,
      a.outline o names h = .ok (t.outline o.indent fun tag => names.bind (·.name? tag)) ∧
        t.unfolding some = (a.unfolding h).cut lengthOnly o.maxDepth := by
  have hlimit : ∀ n, ∃ t, Tree.outlineLimit n = .ok t ∧ t.children = [] ∧
      t.label some = lengthOnly n := by
    intro n
    refine ⟨_, rfl, ?_⟩
    by_cases hn : n = 0 <;> simp [hn, Tree.children, Tree.label, lengthOnly]
  obtain ⟨t, ht, htree⟩ := ha.exists_unfold hh hlimit o.maxDepth
  have houtline : a.outlineTree o.maxDepth h = .ok t := ht
  exact ⟨t, by rw [outline, houtline]; rfl, htree⟩

/-- Tokens that have no missing token below them, even in a cycle, have outlines. Without a table of
names, those of two are the same exactly if their trees are, cut at the depth of the outline,
however far lines are indented. -/
theorem outline_eq_iff (ha : a.Built) (hb : b.Built)
    (hh : ∀ x, a.links.Reaches h x → x ∈ a.handles)
    (hk : ∀ x, b.links.Reaches k x → x ∈ b.handles) (o : OutlineOptions) :
    ∃ s t, a.outline o none h = .ok s ∧ b.outline o none k = .ok t ∧
      (s = t ↔
        (a.unfolding h).cut lengthOnly o.maxDepth = (b.unfolding k).cut lengthOnly o.maxDepth) := by
  obtain ⟨t, ht, htree⟩ := ha.layout.exists_outline hh o none
  obtain ⟨u, hu, hutree⟩ := hb.layout.exists_outline hk o none
  refine ⟨_, _, ht, hu, ?_⟩
  rw [← htree, ← hutree]
  have htext : (t.outline o.indent fun _ => none) = (u.outline o.indent fun _ => none) ↔ t = u :=
    (Tree.outline_injective o.indent).eq_iff
  exact htext.trans ⟨fun heq => heq ▸ rfl, Tree.ext_unfolding fun _ _ h => Option.some.inj h⟩

/-- `[[7], 7]` is token 3, `[[7, 7]]` is token 5 and `[[7, 8]]` is token 7. -/
def shapes : Arena :=
  empty.after [.change (.addUint 7), .change (.addUint 8), .change .addSeq,
    .change (.push ⟨2⟩ ⟨0⟩), .change .addSeq, .change (.push ⟨3⟩ ⟨2⟩), .change (.push ⟨3⟩ ⟨0⟩),
    .change .addSeq, .change (.push ⟨4⟩ ⟨0⟩), .change (.push ⟨4⟩ ⟨0⟩), .change .addSeq,
    .change (.push ⟨5⟩ ⟨4⟩), .change .addSeq, .change (.push ⟨6⟩ ⟨0⟩), .change (.push ⟨6⟩ ⟨1⟩),
    .change .addSeq, .change (.push ⟨7⟩ ⟨6⟩)]

/-- Without indents the counts still tell `[[7], 7]` from `[[7, 7]]`. Cut below the root, `[[7, 7]]`
and `[[7, 8]]` are the same, as their outlines are. -/
theorem outline_eq_iff_shapes :
    (∃ s t, shapes.outline ⟨0, 256⟩ none ⟨3⟩ = .ok s ∧ shapes.outline ⟨0, 256⟩ none ⟨5⟩ = .ok t ∧
      s ≠ t) ∧
    (shapes.unfolding ⟨5⟩).cut lengthOnly 1 = (shapes.unfolding ⟨7⟩).cut lengthOnly 1 := by
  have hshapes : shapes.Built := built_after _
  have hthree := hshapes.layout.mem_handles_of_reaches (h := ⟨3⟩) (by decide) (by decide)
  have hfive := hshapes.layout.mem_handles_of_reaches (h := ⟨5⟩) (by decide) (by decide)
  have hseven := hshapes.layout.mem_handles_of_reaches (h := ⟨7⟩) (by decide) (by decide)
  refine ⟨?_, ?_⟩
  · obtain ⟨s, t, hs, ht, hiff⟩ := outline_eq_iff hshapes hshapes hthree hfive ⟨0, 256⟩
    refine ⟨s, t, hs, ht, fun heq => ?_⟩
    exact absurd (congrFun (hiff.mp heq) []) (by decide)
  · obtain ⟨s, t, hs, ht, hiff⟩ := outline_eq_iff hshapes hshapes hfive hseven ⟨2, 1⟩
    have htext : shapes.outline ⟨2, 1⟩ none ⟨5⟩ = shapes.outline ⟨2, 1⟩ none ⟨7⟩ := by
      decide +kernel
    rw [hs, ht, Except.ok.injEq] at htext
    exact hiff.mp htext

end Arena

end TokenStore
