import Mathlib.Data.List.Chain
import Mathlib.Data.List.Nodup
import Mathlib.Data.List.Perm.Subperm
import TokenStore.Arena.Flatten
import TokenStore.Proofs.Stores

/-!
# Links between tokens

How the tokens of a store hang together is all that a search for leaves looks at. The search is
defined here by recursion on the number of levels that may lie below a token, and the worklist of a
sweep is shown to compute it.

## Main definitions

* `Links`: the elements of every sequence; `Links.Holds`, `Links.Reaches`, `Links.AcyclicFrom`.
* `Links.leavesWithin`: the leaves of a token, some levels of sequences deep.
* `Arena.links`: the links of an arena.
-/

namespace TokenStore

/-- The elements of a sequence, and none at all for a token of another kind. -/
abbrev Links : Type := Handle → Except Failure (Option (List Handle))

namespace Links

variable (f : Links)

/-- `s` is a sequence, and `x` is one of its elements. -/
def Holds (s x : Handle) : Prop := ∃ es, f s = .ok (some es) ∧ x ∈ es

def Reaches : Handle → Handle → Prop := Relation.ReflTransGen f.Holds

/-- No sequence that is reachable from `h` contains itself, directly or through others. -/
def AcyclicFrom (h : Handle) : Prop := ∀ s, f.Reaches h s → ¬ Relation.TransGen f.Holds s s

/-- The leaves of `h`, with at most `depth` levels of sequences below it. -/
def leavesWithin (depth : Nat) (h : Handle) : Except Failure (List Handle) := do
  match ← f h with
  | none => return [h]
  | some es =>
    match depth with
    | 0 => throw .endless
    | depth + 1 => return (← es.mapM (leavesWithin depth)).flatten

variable {f}

theorem Reaches.refl (h : Handle) : f.Reaches h h := Relation.ReflTransGen.refl

theorem Reaches.head {h s x : Handle} (hs : f.Holds h s) (hx : f.Reaches s x) : f.Reaches h x :=
  Relation.ReflTransGen.head hs hx

theorem Reaches.trans {h s x : Handle} (hs : f.Reaches h s) (hx : f.Reaches s x) : f.Reaches h x :=
  Relation.ReflTransGen.trans hs hx

theorem AcyclicFrom.of_reaches {h s : Handle} (hf : f.AcyclicFrom h) (hs : f.Reaches h s) :
    f.AcyclicFrom s :=
  fun t ht => hf t (hs.trans ht)

/-- Where every sequence is younger than its elements, there is no cycle. -/
theorem acyclicFrom_of_lt (hlt : ∀ s x, f.Holds s x → x.index < s.index) (h : Handle) :
    f.AcyclicFrom h := by
  intro s _ hcycle
  have hless : ∀ x, Relation.TransGen f.Holds s x → x.index < s.index := by
    intro x hx
    induction hx with
    | single hsx => exact hlt s _ hsx
    | tail _ hxy ih => exact (hlt _ _ hxy).trans ih
  exact absurd (hless s hcycle) (Nat.lt_irrefl _)

/-! ## The levels of a search -/

theorem leavesWithin_leaf {h : Handle} (hf : f h = .ok none) (depth : Nat) :
    f.leavesWithin depth h = .ok [h] := by
  cases depth <;> simp [leavesWithin, hf]

theorem leavesWithin_error {h : Handle} {e : Failure} (hf : f h = .error e) (depth : Nat) :
    f.leavesWithin depth h = .error e := by
  cases depth <;> simp [leavesWithin, hf]

theorem leavesWithin_zero {h : Handle} {es : List Handle} (hf : f h = .ok (some es)) :
    f.leavesWithin 0 h = .error .endless := by
  simp [leavesWithin, hf]

theorem leavesWithin_succ {h : Handle} {es : List Handle} (hf : f h = .ok (some es))
    (depth : Nat) :
    f.leavesWithin (depth + 1) h =
      (es.mapM (f.leavesWithin depth)).map List.flatten := by
  simp only [leavesWithin, hf, Outcome.ok_bind]
  cases es.mapM (f.leavesWithin depth) <;> rfl

/-- How a search succeeds. -/
theorem leavesWithin_ok_cases {depth : Nat} {h : Handle} {ls : List Handle}
    (hd : f.leavesWithin depth h = .ok ls) :
    (f h = .ok none ∧ ls = [h]) ∨
      ∃ es below lss, f h = .ok (some es) ∧ depth = below + 1 ∧ ls = lss.flatten ∧
        List.Forall₂ (fun x l => f.leavesWithin below x = .ok l) es lss := by
  cases hf : f h with
  | error e => simp [leavesWithin_error hf] at hd
  | ok o =>
    cases o with
    | none =>
      rw [leavesWithin_leaf hf, Except.ok.injEq] at hd
      exact .inl ⟨rfl, hd.symm⟩
    | some es =>
      cases depth with
      | zero => simp [leavesWithin_zero hf] at hd
      | succ below =>
        rw [leavesWithin_succ hf] at hd
        cases hes : es.mapM (f.leavesWithin below) with
        | error e => simp [hes, Except.map] at hd
        | ok lss =>
          obtain rfl : lss.flatten = ls := by simpa [hes, Except.map] using hd
          exact .inr ⟨es, below, lss, rfl, rfl, rfl, Outcome.mapM_eq_ok_iff.mp hes⟩

/-- How a search fails. -/
theorem leavesWithin_error_cases {depth : Nat} {h : Handle} {e : Failure}
    (hd : f.leavesWithin depth h = .error e) :
    f h = .error e ∨
      ∃ es, f h = .ok (some es) ∧
        ((depth = 0 ∧ e = .endless) ∨
          ∃ below, depth = below + 1 ∧ ∃ x ∈ es, f.leavesWithin below x = .error e) := by
  cases hf : f h with
  | error e' =>
    obtain rfl : e' = e := by simpa [leavesWithin_error hf] using hd
    exact .inl rfl
  | ok o =>
    cases o with
    | none => simp [leavesWithin_leaf hf] at hd
    | some es =>
      refine .inr ⟨es, rfl, ?_⟩
      cases depth with
      | zero =>
        rw [leavesWithin_zero hf, Except.error.injEq] at hd
        exact .inl ⟨rfl, hd.symm⟩
      | succ below =>
        rw [leavesWithin_succ hf] at hd
        cases hes : es.mapM (f.leavesWithin below) with
        | ok lss => simp [hes, Except.map] at hd
        | error e' =>
          obtain rfl : e' = e := by simpa [hes, Except.map] using hd
          exact .inr ⟨below, rfl, Outcome.exists_of_mapM_eq_error hes⟩

/-- Levels to spare change nothing. -/
theorem leavesWithin_mono {depth more : Nat} {h : Handle} {ls : List Handle}
    (hd : f.leavesWithin depth h = .ok ls) (hle : depth ≤ more) :
    f.leavesWithin more h = .ok ls := by
  induction depth generalizing more h ls with
  | zero =>
    obtain ⟨hf, rfl⟩ | ⟨_, _, _, _, h0, _⟩ := leavesWithin_ok_cases hd
    · exact leavesWithin_leaf hf more
    · cases h0
  | succ depth ih =>
    obtain ⟨hf, rfl⟩ | ⟨es, below, lss, hf, hbelow, rfl, hlss⟩ := leavesWithin_ok_cases hd
    · exact leavesWithin_leaf hf more
    · cases hbelow
      obtain ⟨more, rfl⟩ : ∃ m, more = m + 1 := ⟨more - 1, by omega⟩
      have hmore : es.mapM (f.leavesWithin more) = .ok lss :=
        Outcome.mapM_eq_ok_iff.mpr (hlss.imp fun x l hx => ih hx (by omega))
      simp [leavesWithin_succ hf, hmore, Except.map]

/-- A search that succeeds has met everything that is reachable. -/
theorem exists_of_leavesWithin_ok {depth : Nat} {h : Handle} {ls : List Handle}
    (hd : f.leavesWithin depth h = .ok ls) {x : Handle} (hx : f.Reaches h x) :
    ∃ o, f x = .ok o := by
  induction hx using Relation.ReflTransGen.head_induction_on generalizing depth ls with
  | refl =>
    obtain ⟨hf, -⟩ | ⟨es, _, _, hf, _⟩ := leavesWithin_ok_cases hd
    · exact ⟨_, hf⟩
    · exact ⟨_, hf⟩
  | head hstep _ ih =>
    obtain ⟨es, hes, hmem⟩ := hstep
    obtain ⟨hf, -⟩ | ⟨es', below, lss, hf, -, -, hlss⟩ := leavesWithin_ok_cases hd
    · cases hes.symm.trans hf
    · obtain rfl : es = es' := by simpa using hes.symm.trans hf
      obtain ⟨l, hl⟩ := Outcome.exists_of_forall₂ hlss hmem
      exact ih hl

/-- What a search finds can be reached and is no sequence. -/
theorem leaf_of_mem_leavesWithin {depth : Nat} {h : Handle} {ls : List Handle}
    (hd : f.leavesWithin depth h = .ok ls) {x : Handle} (hx : x ∈ ls) :
    f.Reaches h x ∧ f x = .ok none := by
  induction depth generalizing h ls with
  | zero =>
    obtain ⟨hf, rfl⟩ | ⟨_, _, _, _, h0, _⟩ := leavesWithin_ok_cases hd
    · rw [List.mem_singleton.mp hx]
      exact ⟨.refl h, hf⟩
    · cases h0
  | succ depth ih =>
    obtain ⟨hf, rfl⟩ | ⟨es, below, lss, hf, hbelow, rfl, hlss⟩ := leavesWithin_ok_cases hd
    · rw [List.mem_singleton.mp hx]
      exact ⟨.refl h, hf⟩
    · cases hbelow
      obtain ⟨l, hl, hxl⟩ := List.mem_flatten.mp hx
      obtain ⟨i, hi, rfl⟩ := List.getElem_of_mem hl
      have hi' : i < es.length := hlss.length_eq ▸ hi
      obtain ⟨hreach, hleaf⟩ := ih (hlss.get hi' hi) hxl
      exact ⟨.head ⟨es, hf, List.get_mem es ⟨i, hi'⟩⟩ hreach, hleaf⟩

theorem links_of_mem_leavesWithin {depth : Nat} {h : Handle} {ls : List Handle}
    (hd : f.leavesWithin depth h = .ok ls) {x : Handle} (hx : x ∈ ls) : f x = .ok none :=
  (leaf_of_mem_leavesWithin hd hx).2

/-- A search fails on a look-up of its own, unless it runs out of levels. -/
theorem exists_of_leavesWithin_error {depth : Nat} {h : Handle} {e : Failure}
    (hd : f.leavesWithin depth h = .error e) (he : e ≠ .endless) :
    ∃ x, f.Reaches h x ∧ f x = .error e := by
  induction depth generalizing h with
  | zero =>
    obtain hf | ⟨es, hf, ⟨-, rfl⟩ | ⟨_, h0, _⟩⟩ := leavesWithin_error_cases hd
    · exact ⟨h, .refl h, hf⟩
    · exact absurd rfl he
    · cases h0
  | succ depth ih =>
    obtain hf | ⟨es, hf, ⟨-, rfl⟩ | ⟨below, hbelow, x, hx, hd⟩⟩ := leavesWithin_error_cases hd
    · exact ⟨h, .refl h, hf⟩
    · exact absurd rfl he
    · cases hbelow
      obtain ⟨y, hy, hfy⟩ := ih hd
      exact ⟨y, .head ⟨es, hf, hx⟩ hy, hfy⟩

/-- A search that runs out of levels has gone down a chain of as many sequences. -/
theorem exists_chain_of_endless {depth : Nat} {h : Handle} (hne : ∀ x, f x ≠ .error .endless)
    (hd : f.leavesWithin depth h = .error .endless) :
    ∃ path : List Handle, path.length = depth ∧ (h :: path).IsChain f.Holds ∧
      ∀ s ∈ h :: path, ∃ es, f s = .ok (some es) := by
  induction depth generalizing h with
  | zero =>
    obtain hf | ⟨es, hf, -⟩ := leavesWithin_error_cases hd
    · exact absurd hf (hne h)
    · exact ⟨[], rfl, .singleton h, by simp [hf]⟩
  | succ depth ih =>
    obtain hf | ⟨es, hf, ⟨h0, -⟩ | ⟨below, hbelow, x, hx, hd⟩⟩ := leavesWithin_error_cases hd
    · exact absurd hf (hne h)
    · cases h0
    · cases hbelow
      obtain ⟨path, hlen, hchain, hseq⟩ := ih hd
      refine ⟨x :: path, by simp [hlen], .cons_cons ⟨es, hf, hx⟩ hchain, ?_⟩
      rw [List.forall_mem_cons]
      exact ⟨⟨es, hf⟩, hseq⟩

/-- Without cycles, a chain of sequences is shorter than there are handles for them. -/
theorem AcyclicFrom.length_lt {h : Handle} (hf : f.AcyclicFrom h) {path : List Handle}
    (hchain : (h :: path).IsChain f.Holds) {n : Nat} (hn : ∀ s ∈ h :: path, s.index < n) :
    path.length < n := by
  have hlater : (h :: path).Pairwise (Relation.TransGen f.Holds) :=
    (hchain.imp fun _ _ hst => .single hst).pairwise
  have hreach : ∀ s ∈ h :: path, f.Reaches h s := by
    intro s hs
    rcases List.mem_cons.mp hs with rfl | hs
    · exact .refl s
    · exact (List.rel_of_pairwise_cons hlater hs).to_reflTransGen
  have hnodup : (h :: path).Nodup := by
    refine hlater.imp_of_mem ?_
    rintro s t hs - hst rfl
    exact hf s (hreach s hs) hst
  have hindex : ((h :: path).map Handle.index).Nodup :=
    hnodup.map fun s t hst => congrArg Handle.mk hst
  have hsub : (h :: path).map Handle.index ⊆ List.range n := by
    intro i hi
    obtain ⟨s, hs, rfl⟩ := List.mem_map.mp hi
    exact List.mem_range.mpr (hn s hs)
  have hlen := (List.subperm_of_subset hindex hsub).length_le
  simp only [List.length_map, List.length_range, List.length_cons] at hlen
  omega

/-- As many levels as there are handles for sequences are enough for a search without cycles. -/
theorem AcyclicFrom.leavesWithin_ne_endless {h : Handle} (hf : f.AcyclicFrom h) {n : Nat}
    (hn : ∀ s es, f s = .ok (some es) → s.index < n) (hne : ∀ x, f x ≠ .error .endless) :
    f.leavesWithin n h ≠ .error .endless := by
  intro hd
  obtain ⟨path, hlen, hchain, hseq⟩ := exists_chain_of_endless hne hd
  have hlt : path.length < n := by
    refine hf.length_lt hchain fun s hs => ?_
    obtain ⟨es, hes⟩ := hseq s hs
    exact hn s es hes
  omega

/-- `leaves` tells the leaves of everything that is reachable from `h`: a token that is no sequence
is its own only leaf, and a sequence has those of its elements, one after the other. -/
def LeafRule (f : Links) (h : Handle) (leaves : Handle → List Handle) : Prop :=
  ∀ x, f.Reaches h x →
    leaves x = match f x with
      | .ok (some es) => es.flatMap leaves
      | _ => [x]

theorem LeafRule.of_reaches {h s : Handle} {leaves : Handle → List Handle}
    (hl : f.LeafRule h leaves) (hs : f.Reaches h s) : f.LeafRule s leaves :=
  fun x hx => hl x (hs.trans hx)

/-- Where a search succeeds, the rule has no other solution than what it finds. -/
theorem LeafRule.eq {depth : Nat} {h : Handle} {leaves : Handle → List Handle} {ls : List Handle}
    (hl : f.LeafRule h leaves) (hd : f.leavesWithin depth h = .ok ls) : leaves h = ls := by
  induction depth generalizing h ls with
  | zero =>
    obtain ⟨hf, rfl⟩ | ⟨_, _, _, _, h0, _⟩ := leavesWithin_ok_cases hd
    · rw [hl h (.refl h), hf]
    · cases h0
  | succ depth ih =>
    obtain ⟨hf, rfl⟩ | ⟨es, below, lss, hf, hbelow, rfl, hlss⟩ := leavesWithin_ok_cases hd
    · rw [hl h (.refl h), hf]
    · cases hbelow
      have helem : ∀ x ∈ es, f.LeafRule x leaves := fun x hx =>
        hl.of_reaches (.head ⟨es, hf, hx⟩ (.refl x))
      have hboth := (List.forall₂_and_left es lss).mpr ⟨helem, hlss⟩
      have hmap : List.Forall₂ (· = ·) (es.map leaves) lss :=
        List.forall₂_map_left_iff.mpr (hboth.imp fun x l hx => ih hx.1 hx.2)
      rw [List.forall₂_eq_eq_eq] at hmap
      rw [hl h (.refl h), hf, ← hmap]
      exact List.flatMap_def

/-- The leaves that a search finds, and none where it fails. -/
def leaves (f : Links) (depth : Nat) (h : Handle) : List Handle :=
  match f.leavesWithin depth h with
  | .ok ls => ls
  | .error _ => []

theorem leaves_eq {depth : Nat} {h : Handle} {ls : List Handle}
    (hd : f.leavesWithin depth h = .ok ls) : f.leaves depth h = ls := by
  simp [leaves, hd]

/-- The leaves of a sequence are those of its elements, one after the other. -/
theorem leaves_seq {depth : Nat} {h : Handle} {ls es : List Handle}
    (hd : f.leavesWithin depth h = .ok ls) (hf : f h = .ok (some es)) :
    f.leaves depth h = es.flatMap (f.leaves depth) := by
  obtain ⟨hf', -⟩ | ⟨es', below, lss, hf', rfl, rfl, hlss⟩ := leavesWithin_ok_cases hd
  · cases hf.symm.trans hf'
  · obtain rfl : es = es' := by simpa using hf.symm.trans hf'
    have hmap : List.Forall₂ (· = ·) (es.map (f.leaves (below + 1))) lss :=
      List.forall₂_map_left_iff.mpr
        (hlss.imp fun x l hx => leaves_eq (leavesWithin_mono hx (Nat.le_succ below)))
    rw [List.forall₂_eq_eq_eq] at hmap
    rw [leaves_eq hd, List.flatMap, hmap]

theorem leaves_leaf {h : Handle} (hf : f h = .ok none) (depth : Nat) : f.leaves depth h = [h] :=
  leaves_eq (leavesWithin_leaf hf depth)

end Links

/-! ## The links of an arena -/

namespace Arena

/-- The elements of a sequence, as a soft look-up. -/
def links (a : Arena) : Links := fun h => do
  match (← a.token h).list? with
  | none => return none
  | some id => return some (← a.list id).toList

end Arena

namespace Sweep

variable {a : Arena} {h : Handle} {rest : List (Nat × Handle)} {found : Array Handle}

theorem visit_eq (a : Arena) (room : Nat) (h : Handle) (rest : List (Nat × Handle))
    (found : Array Handle) :
    visit a room h rest found = (do
      match ← a.links h with
      | none => return ⟨rest, found.push h⟩
      | some es =>
        match room with
        | 0 => throw .endless
        | room + 1 => return ⟨es.map (room, ·) ++ rest, found⟩) := by
  unfold visit Arena.links
  cases a.token h with
  | error e => rfl
  | ok t =>
    cases hl : t.list? with
    | none => simp [hl]
    | some id =>
      cases he : a.list id with
      | error e => simp [hl, he]
      | ok e => cases room <;> simp [hl, he]

/-- A sweep finds the leaves of what is pending, one after the other. The worklist is read from its
front, so the first failure of a sweep is the first that the recursion meets. -/
theorem run_eq (a : Arena) (s : Sweep) :
    s.run a = (s.pending.mapM fun p => a.links.leavesWithin p.1 p.2).map
      fun ls => s.found ++ ls.flatten.toArray := by
  fun_induction run a s with
  | case1 found => simp [Except.map]
  | case2 room h rest found s hv ih =>
    rw [ih]
    rw [visit_eq] at hv
    cases hf : a.links h with
    | error e => simp [hf] at hv
    | ok o =>
      cases o with
      | none =>
        obtain rfl : s = ⟨rest, found.push h⟩ := by simpa [hf, eq_comm] using hv
        simp only [List.mapM_cons, Links.leavesWithin_leaf hf]
        cases rest.mapM fun p => a.links.leavesWithin p.1 p.2 <;> simp [Except.map]
      | some es =>
        cases room with
        | zero => simp [hf] at hv
        | succ room =>
          obtain rfl : s = ⟨es.map (room, ·) ++ rest, found⟩ := by simpa [hf, eq_comm] using hv
          simp only [List.mapM_append, List.mapM_map, List.mapM_cons, Links.leavesWithin_succ hf,
            Function.comp_def]
          cases es.mapM (a.links.leavesWithin room) with
          | error e => rfl
          | ok ls =>
            cases rest.mapM fun p => a.links.leavesWithin p.1 p.2 <;> simp [Except.map]
  | case3 room h rest found e hv =>
    rw [visit_eq] at hv
    cases hf : a.links h with
    | error e =>
      obtain rfl : e = _ := by simpa [hf] using hv
      simp [List.mapM_cons, Links.leavesWithin_error hf, Except.map]
    | ok o =>
      cases o with
      | none => simp [hf] at hv
      | some es =>
        cases room with
        | zero =>
          obtain rfl : Failure.endless = _ := by simpa [hf] using hv
          simp [List.mapM_cons, Links.leavesWithin_zero hf, Except.map]
        | succ room => simp [hf] at hv

end Sweep

end TokenStore
