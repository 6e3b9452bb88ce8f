import TokenStore.Proofs.Frame

/-!
# How sequences grow

What an operation does to the elements of sequences is little: it adds cells behind the others, it
adds elements to one sequence, or it leaves all elements alone. Elements of an added sequence are
added with it and stand behind it, or they are tokens that are no sequences.

## Main definitions

* `Cells.Rising`: cells whose elements are among them, each behind the sequence that holds it.
* `Cells.Grown`: all that an operation can do to elements.
-/

namespace TokenStore

namespace Cells

/-- Every element of a sequence among the cells is a later one of them, if the first of them is cell
number `base`. -/
def Rising (base : Nat) (xs : List Cell) : Prop :=
  ∀ k es, xs[k]? = some (.seq es) → ∀ y ∈ es, base + k < y.index ∧ y.index < base + xs.length

theorem rising_nil (base : Nat) : Rising base [] := nofun

theorem Rising.append {base : Nat} {xs ys : List Cell} (hxs : Rising base xs)
    (hys : Rising (base + xs.length) ys) : Rising base (xs ++ ys) := by
  intro k es hes y hy
  rw [List.length_append]
  by_cases hk : k < xs.length
  · rw [List.getElem?_append_left hk] at hes
    have := hxs k es hes y hy
    omega
  · rw [List.getElem?_append_right (Nat.le_of_not_lt hk)] at hes
    have := hys _ es hes y hy
    omega

/-- A sequence in front of rising cells may hold any of them. -/
theorem Rising.cons {base : Nat} {hs : List Handle} {xs : List Cell} (hxs : Rising (base + 1) xs)
    (hhs : ∀ y ∈ hs, base + 1 ≤ y.index ∧ y.index < base + 1 + xs.length) :
    Rising base (.seq hs :: xs) := by
  rintro (_ | k) es hes y hy
  · cases hes
    have := hhs y hy
    rw [List.length_cons]
    omega
  · have := hxs k es hes y hy
    rw [List.length_cons]
    omega

end Cells

namespace Json

theorem Leaf.elements?_eq_none {v : Json} {x : Cell} (hx : v.Leaf x) : x.elements? = none := by
  cases hx <;> rfl

theorem Block.length_pos {base : Nat} {v : Json} {xs : List Cell} (h : v.Block base xs) :
    0 < xs.length := by
  cases h <;> exact Nat.zero_lt_succ _

mutual

theorem Block.rising {base : Nat} {v : Json} {xs : List Cell} (h : v.Block base xs) :
    Cells.Rising base xs := by
  cases h with
  | leaf hx =>
    rintro (_ | k) es hes
    · cases hes
      cases hx.elements?_eq_none
    · cases hes
  | arr hitems =>
    obtain ⟨hrising, hroots⟩ := hitems.rising
    exact hrising.cons hroots

/-- The roots of the blocks are among their cells. -/
theorem Blocks.rising {base : Nat} {vs : List Json} {hs : List Handle} {xs : List Cell}
    (h : Blocks base vs hs xs) :
    Cells.Rising base xs ∧ ∀ y ∈ hs, base ≤ y.index ∧ y.index < base + xs.length := by
  cases h with
  | nil => exact ⟨Cells.rising_nil base, nofun⟩
  | cons hv hvs =>
    obtain ⟨hrising, hroots⟩ := hvs.rising
    refine ⟨hv.rising.append hrising, fun y hy => ?_⟩
    have hpos := hv.length_pos
    rw [List.length_append]
    rcases List.mem_cons.mp hy with rfl | hy
    · exact ⟨Nat.le_refl base, Nat.lt_add_of_pos_right (Nat.add_pos_left hpos _)⟩
    · have := hroots y hy
      omega

end

theorem Torn.rising {depth base : Nat} {v : Json} {path : List Nat} {f : ImportFault}
    {xs : List Cell} (h : Torn depth base v path f xs) : Cells.Rising base xs := by
  induction h with
  | here hf => exact Cells.rising_nil _
  | inside hd hdone hblocks _ ih =>
    obtain ⟨hrising, hroots⟩ := hblocks.rising
    refine (hrising.append ih).cons fun y hy => ?_
    have := hroots y hy
    rw [List.length_append]
    omega

end Json

namespace Cells

variable {cs : Cells} {h s x : Handle}

/-- Adding elements to a sequence adds the links to them. -/
theorem holds_put_iff {es more : List Handle} (hes : cs[s.index]? = some (.seq es)) {t : Handle} :
    (cs.put s (.seq (es ++ more))).links.Holds t x ↔
      cs.links.Holds t x ∨ (t = s ∧ x ∈ more) := by
  rw [holds_iff, holds_iff]
  by_cases hts : t = s
  · subst hts
    simp [getElem?_put hes, hes]
  · simp [getElem?_put_of_ne (Ne.symm hts), hts]

/-- Adding cells adds the links that go out from them. -/
theorem holds_append_iff {xs : List Cell} :
    Links.Holds (links (cs ++ xs)) s x ↔
      cs.links.Holds s x ∨
        ∃ k es, s.index = cs.length + k ∧ xs[k]? = some (.seq es) ∧ x ∈ es := by
  rw [holds_iff, holds_iff]
  by_cases hs : s.index < cs.length
  · rw [List.getElem?_append_left hs]
    refine ⟨.inl, fun h => h.resolve_right ?_⟩
    rintro ⟨k, es, hk, -⟩
    omega
  · have hnone : cs[s.index]? = none := List.getElem?_eq_none (Nat.le_of_not_lt hs)
    rw [List.getElem?_append_right (Nat.le_of_not_lt hs), hnone]
    constructor
    · rintro ⟨es, hes, hx⟩
      exact .inr ⟨_, es, by omega, hes, hx⟩
    · rintro (⟨es, ⟨⟩, -⟩ | ⟨k, es, hk, hes, hx⟩)
      exact ⟨es, by rwa [hk, Nat.add_sub_cancel_left], hx⟩

/-- Tokens that are no sequences have no links. -/
theorem links_put {y z : Cell} (hy : cs[h.index]? = some y) (hyz : y.elements? = z.elements?) :
    (cs.put h z).links = cs.links := by
  funext k
  by_cases hk : k = h
  · subst hk
    obtain ⟨hlt, rfl⟩ := List.getElem?_eq_some_iff.mp hy
    simp [links, find, put, hlt, hyz]
  · simp [links, find, getElem?_put_of_ne (Ne.symm hk)]

/-- All that an operation can do to the elements of sequences, whether or not it fails. -/
inductive Grown (cs : Cells) : Update → Cells → Prop where
  | cleared : Grown cs .clear []
  | kept {u : Update} {cs' : Cells} (hlength : cs'.length = cs.length)
      (hlinks : cs'.links = cs.links) : Grown cs u cs'
  /-- An added sequence holds what is added behind it, or tokens that are no sequences. -/
  | added {u : Update} {xs : List Cell}
      (hxs : ∀ k es, xs[k]? = some (.seq es) → ∀ y ∈ es,
        (cs.length + k < y.index ∧ y.index < cs.length + xs.length) ∨ cs.links y = .ok none) :
      Grown cs u (cs ++ xs)
  | pushed {seq value : Handle} {es : List Handle} (hes : cs[seq.index]? = some (.seq es)) :
      Grown cs (.push seq value) (cs.put seq (.seq (es ++ [value])))
  | appended {dst src : Handle} {es more : List Handle} (hes : cs[dst.index]? = some (.seq es))
      (hmore : cs[src.index]? = some (.seq more)) :
      Grown cs (.append dst src) (cs.put dst (.seq (es ++ more)))

theorem Grown.refl (cs : Cells) (u : Update) : Grown cs u cs := .kept rfl rfl

theorem Grown.rising {u : Update} {xs : List Cell} (hxs : Rising cs.length xs) :
    Grown cs u (cs ++ xs) :=
  .added fun k es hes y hy => .inl (hxs k es hes y hy)

theorem rising_singleton {x : Cell} (hx : x.elements?.getD [] = []) (base : Nat) :
    Rising base [x] := by
  rintro (_ | k) es hes
  · cases hes
    cases hx
    nofun
  · cases hes

/-- One step: what an operation can do to elements is all that it does. -/
theorem grown_update (cs : Cells) (u : Update) : Grown cs u (cs.update u).2 := by
  have heffect := cs.effect_update u
  generalize cs.update u = r at heffect ⊢
  cases heffect with
  | cleared => exact .cleared
  | refused | unfit => exact .refl cs _
  | added hx => exact .rising (rising_singleton (Update.elements?_of_cell? hx) _)
  | imported hxs => exact .rising hxs.rising
  | torn hxs => exact .rising hxs.rising
  | flattened hls =>
    refine .added ?_
    rintro (_ | k) es hes y hy
    · cases hes
      exact .inr (Links.links_of_mem_leavesWithin hls hy)
    · cases hes
  | pushed hes => exact .pushed hes
  | appended hes hmore => exact .appended hes hmore
  | written hold => exact .kept (by simp [put]) (links_put hold rfl)
  | stored hold => exact .kept (by simp [put]) (links_put hold rfl)

end Cells

end TokenStore
