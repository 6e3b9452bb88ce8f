import TokenStore.Proofs.Cells.Simulation
import TokenStore.Arena.Render

/-!
# Unfolded trees

The tree below a token is a function from paths of indices to what stands at their ends. It has no
handles in it, a token that is shared stands in it wherever a path leads to it, and below a cycle it
is infinite. A rendering shows as much of it as is left when it is cut at some depth.

## Main definitions

* `Label`, `Unfolding`, `Unfolding.cut`: trees by their paths, and what a cut leaves of them.
* `Arena.unfolding`: the tree below a token.
* `Cells.unfold`, `Cells.unfolding`: the same for cells.
* `Cells.Closed`: the stores in which no element is missing.
* `Tree.unfolding`: a finite tree by its paths.
-/

namespace TokenStore

/-- What is to be seen of a token by itself. Of a sequence it is the length, and where it was cut
perhaps not even that. -/
inductive Label where
  | sequence (length : Nat)
  | stub (length : Option Nat)
  | bytes (data : List UInt8)
  | sint (value : Int64)
  | uint (value : UInt64)
  | user (tag : Tag)
  deriving DecidableEq

/-- What stands at the end of each path, if the path does not lead out of the tree. -/
abbrev Unfolding : Type := List Nat → Option Label

/-- A stub in place of a sequence. -/
def Label.cut (stub : Nat → Label) : Label → Label
  | .sequence length => stub length
  | l => l

/-- The tree cut at `depth`. There every sequence gives way to a stub, and with it all below. -/
def Unfolding.cut (stub : Nat → Label) (depth : Nat) (u : Unfolding) : Unfolding := fun path =>
  if path.length < depth then u path
  else if path.length = depth then (u path).map (Label.cut stub)
  else none

theorem Unfolding.cut_nil {stub : Nat → Label} {depth : Nat} (u : Unfolding) :
    u.cut stub depth [] = if depth = 0 then (u []).map (Label.cut stub) else u [] := by
  cases depth <;> simp [cut]

theorem Unfolding.cut_zero_cons {stub : Nat → Label} (u : Unfolding) (i : Nat) (path : List Nat) :
    u.cut stub 0 (i :: path) = none := by
  simp [cut]

theorem Unfolding.cut_succ_cons {stub : Nat → Label} {depth : Nat} (u : Unfolding) (i : Nat)
    (path : List Nat) :
    u.cut stub (depth + 1) (i :: path) = cut stub depth (fun rest => u (i :: rest)) path := by
  simp [cut]

/-- A cut takes nothing away from a tree that does not go on where it is made. -/
theorem Unfolding.cut_eq_self {stub : Nat → Label} {depth : Nat} {u : Unfolding}
    (hat : ∀ path l, path.length = depth → u path = some l → l.cut stub = l)
    (hbeyond : ∀ path, depth < path.length → u path = none) : u.cut stub depth = u := by
  funext path
  rcases Nat.lt_trichotomy path.length depth with hlt | heq | hgt
  · rw [cut, if_pos hlt]
  · rw [cut, if_neg heq.not_lt, if_pos heq]
    cases hl : u path with
    | none => rfl
    | some l => rw [Option.map_some, hat path l heq hl]
  · rw [cut, if_neg hgt.not_gt, if_neg hgt.ne', hbeyond path hgt]

/-- What a cut leaves stands where it stood, as it was or as a stub. -/
theorem Unfolding.cut_eq_some_iff {stub : Nat → Label} {depth : Nat} {u : Unfolding}
    {path : List Nat} {l' : Label} :
    u.cut stub depth path = some l' ↔ path.length ≤ depth ∧
      ∃ l, u path = some l ∧ l' = if path.length = depth then l.cut stub else l := by
  unfold cut
  rcases Nat.lt_trichotomy path.length depth with hlt | heq | hgt
  · simp [hlt, hlt.le, hlt.ne]
  · simp only [heq, Nat.lt_irrefl, if_false, if_true, Option.map_eq_some_iff, Nat.le_refl, true_and]
    grind
  · simp [hgt.not_gt, hgt.ne', hgt.not_ge]

/-! ## The tree below a token -/

namespace Arena

def label (a : Arena) (h : Handle) : Except Failure Label := do
  match ← a.token h with
  | .bytes span => return .bytes (← a.slice span)
  | .sint value => return .sint value
  | .uint value => return .uint value
  | .user tag _ => return .user tag
  | .sequence id => return .sequence (← a.list id).size

/-- The tree below a token, down to all depths. -/
def unfolding (a : Arena) (h : Handle) : Unfolding := fun path =>
  (a.follow h path >>= a.label).toOption

end Arena

def Cell.label : Cell → Label
  | .seq es => .sequence es.length
  | .bytes data => .bytes data
  | .sint value => .sint value
  | .uint value => .uint value
  | .user tag _ => .user tag

namespace Cells

def unfold {Stub : Type} (cs : Cells) (limit : Nat → Except Failure (Tree Stub)) (depth : Nat)
    (h : Handle) : Except Failure (Tree Stub) := do
  match ← cs.find h with
  | .bytes data => return .bytes data
  | .sint value => return .sint value
  | .uint value => return .uint value
  | .user tag _ => return .user tag
  | .seq es =>
    match depth with
    | 0 => limit es.length
    | depth + 1 => return .seq (← es.mapM (cs.unfold limit depth))

def unfolding (cs : Cells) : Handle → Unfolding
  | h, [] => cs[h.index]?.map Cell.label
  | h, i :: path =>
    (cs[h.index]?.bind Cell.elements?).bind fun es => es[i]?.bind (unfolding cs · path)

end Cells

/-! ## One level of a tree -/

/-- The tree of a cell that has nothing below it. -/
def Cell.tree? {Stub : Type} : Cell → Option (Tree Stub)
  | .seq _ => none
  | .bytes data => some (.bytes data)
  | .sint value => some (.sint value)
  | .uint value => some (.uint value)
  | .user tag _ => some (.user tag)

namespace Cells

section levels

variable {Stub : Type} {cs : Cells} {limit : Nat → Except Failure (Tree Stub)} {h : Handle}

theorem unfold_leaf {x : Cell} {t : Tree Stub} (hx : cs[h.index]? = some x) (ht : x.tree? = some t)
    (depth : Nat) : cs.unfold limit depth h = .ok t := by
  rw [← find_eq_ok_iff] at hx
  cases x with
  | seq es => cases ht
  | _ => cases ht; cases depth <;> simp [unfold, hx]

theorem unfold_seq_zero {es : List Handle} (hx : cs[h.index]? = some (.seq es)) :
    cs.unfold limit 0 h = limit es.length := by
  rw [← find_eq_ok_iff] at hx
  simp [unfold, hx]

theorem unfold_seq_succ {es : List Handle} (hx : cs[h.index]? = some (.seq es)) (depth : Nat) :
    cs.unfold limit (depth + 1) h = Tree.seq <$> es.mapM (cs.unfold limit depth) := by
  rw [← find_eq_ok_iff] at hx
  simp only [unfold, hx, Outcome.ok_bind]
  cases es.mapM (cs.unfold limit depth) <;> rfl

theorem unfold_seq {es : List Handle} (hx : cs[h.index]? = some (.seq es)) {depth : Nat}
    {ts : List (Tree Stub)}
    (hts : List.Forall₂ (fun x t => cs.unfold limit depth x = .ok t) es ts) :
    cs.unfold limit (depth + 1) h = .ok (.seq ts) := by
  rw [unfold_seq_succ hx, Outcome.mapM_eq_ok_iff.mpr hts, Outcome.map_ok]

/-- How an unfolding succeeds. -/
theorem unfold_ok_cases {depth : Nat} {t : Tree Stub} (ht : cs.unfold limit depth h = .ok t) :
    (∃ x, cs[h.index]? = some x ∧ x.tree? = some t) ∨
      ∃ es, cs[h.index]? = some (.seq es) ∧
        ((depth = 0 ∧ limit es.length = .ok t) ∨
          ∃ below ts, depth = below + 1 ∧ t = .seq ts ∧
            List.Forall₂ (fun x t => cs.unfold limit below x = .ok t) es ts) := by
  cases hx : cs[h.index]? with
  | none => cases depth <;> simp [unfold, find, hx] at ht
  | some x =>
    cases x with
    | seq es =>
      refine .inr ⟨es, rfl, ?_⟩
      cases depth with
      | zero => exact .inl ⟨rfl, by rwa [unfold_seq_zero hx] at ht⟩
      | succ below =>
        rw [unfold_seq_succ hx] at ht
        cases hes : es.mapM (cs.unfold limit below) with
        | error e => simp [hes] at ht
        | ok ts =>
          obtain rfl : Tree.seq ts = t := by simpa [hes] using ht
          exact .inr ⟨below, ts, rfl, rfl, Outcome.mapM_eq_ok_iff.mp hes⟩
    | _ =>
      rw [unfold_leaf hx rfl] at ht
      exact .inl ⟨_, rfl, congrArg some (Except.ok.inj ht)⟩

end levels

end Cells

/-! ## Arenas as cells -/

namespace Arena

variable {a : Arena}

theorem Layout.unfold_cells {Stub : Type} (ha : a.Layout)
    (limit : Nat → Except Failure (Tree Stub)) (depth : Nat) (h : Handle) :
    a.unfold limit depth h = a.cells.unfold limit depth h := by
  induction depth using Nat.strongRecOn generalizing h with
  | ind depth ih =>
    unfold unfold Cells.unfold
    rw [find_cells]
    cases ht : a.token h with
    | error e => rfl
    | ok t =>
      cases t with
      | bytes s => simp [ha.slice_eq ht, cell]
      | sequence id =>
        obtain ⟨e, he, hcell⟩ := ha.cell_sequence ht
        cases depth with
        | zero => simp [he, hcell]
        | succ depth => simp [he, hcell, funext (ih depth (Nat.lt_succ_self depth))]
      | _ => rfl

theorem Layout.label_cells (ha : a.Layout) (h : Handle) :
    a.label h = Cell.label <$> a.cells.find h := by
  simp only [label, find_cells]
  cases ht : a.token h with
  | error e => simp
  | ok t =>
    cases t with
    | bytes s => simp [ha.slice_eq ht, cell, Cell.label]
    | sequence id =>
      obtain ⟨e, he, hcell⟩ := ha.cell_sequence ht
      simp [he, hcell, Cell.label]
    | _ => simp [cell, Cell.label]

theorem Layout.unfolding_cells (ha : a.Layout) (h : Handle) :
    a.unfolding h = a.cells.unfolding h := by
  funext path
  rw [unfolding, ha.follow_cells]
  induction path generalizing h with
  | nil =>
    rw [Cells.follow, List.foldlM_nil, Outcome.pure_eq_ok, Outcome.ok_bind, ha.label_cells,
      Cells.unfolding]
    unfold Cells.find
    cases a.cells[h.index]? <;> rfl
  | cons i path ih =>
    rw [Cells.follow, List.foldlM_cons, Cells.unfolding]
    simp only [Cells.element, Cells.elementsOf, Cells.cast]
    unfold Cells.find
    cases a.cells[h.index]? with
    | none => rfl
    | some x =>
      simp only [Outcome.ok_bind, bind_assoc, Option.bind_some]
      cases x.elements? with
      | none => rfl
      | some es =>
        simp only [Outcome.pure_eq_ok, Outcome.ok_bind, Option.bind_some]
        cases es[i]? with
        | none => rfl
        | some y => exact ih y

end Arena

/-! ## Finite trees by their paths -/

namespace Tree

variable {Stub : Type}

/-- Induction over nested sequences. -/
@[elab_as_elim]
theorem childrenInduction {motive : Tree Stub → Prop}
    (seq : ∀ ts, (∀ t ∈ ts, motive t) → motive (.seq ts))
    (leaf : ∀ t, (∀ ts, t ≠ .seq ts) → motive t) : ∀ t, motive t
  | .seq ts => seq ts fun t _ => childrenInduction seq leaf t
  | .bytes _ => leaf _ nofun
  | .sint _ => leaf _ nofun
  | .uint _ => leaf _ nofun
  | .user _ => leaf _ nofun
  | .cut _ => leaf _ nofun

def children : Tree Stub → List (Tree Stub)
  | .seq ts => ts
  | _ => []

/-- What is to be seen of the root. What a stub tells of its length is up to `mark`. -/
def label (mark : Stub → Option Nat) : Tree Stub → Label
  | .bytes data => .bytes data
  | .sint value => .sint value
  | .uint value => .uint value
  | .user tag => .user tag
  | .seq ts => .sequence ts.length
  | .cut stub => .stub (mark stub)

def unfolding (mark : Stub → Option Nat) : Tree Stub → Unfolding
  | t, [] => some (t.label mark)
  | t, i :: path => t.children[i]?.bind (unfolding mark · path)

/-- Finite trees are the same if all their paths lead to the same. -/
theorem ext_unfolding {mark : Stub → Option Nat} (hmark : Function.Injective mark) {t u : Tree Stub}
    (h : t.unfolding mark = u.unfolding mark) : t = u := by
  induction t using childrenInduction generalizing u with
  | seq ts ih =>
    have hroot := congrFun h []
    cases u with
    | seq us =>
      have hlength : ts.length = us.length := by simpa [unfolding, label] using hroot
      refine congrArg _ (List.ext_getElem hlength fun i hi hi' => ?_)
      refine ih _ (List.getElem_mem hi) (funext fun path => ?_)
      simpa [unfolding, children, hi, hi'] using congrFun h (i :: path)
    | _ => simp [unfolding, label] at hroot
  | leaf t hleaf =>
    have hroot := congrFun h []
    cases t with
    | seq ts => exact absurd rfl (hleaf ts)
    | _ => cases u <;> simp_all [unfolding, label, hmark.eq_iff]

end Tree

namespace Cells

section paths

variable {Stub : Type} {cs : Cells} {h : Handle}

@[simp] theorem unfolding_nil : cs.unfolding h [] = cs[h.index]?.map Cell.label := rfl

theorem unfolding_cons_of_seq {es : List Handle} (hx : cs[h.index]? = some (.seq es)) (i : Nat)
    (path : List Nat) : cs.unfolding h (i :: path) = es[i]?.bind (cs.unfolding · path) := by
  simp [unfolding, hx, Cell.elements?]

theorem unfolding_cons_of_leaf {x : Cell} (hx : cs[h.index]? = some x)
    (hleaf : x.elements? = none) (i : Nat) (path : List Nat) :
    cs.unfolding h (i :: path) = none := by
  simp [unfolding, hx, hleaf]

/-- A scalar is seen whole, wherever a cut is made. -/
theorem tree?_eq_some {x : Cell} {t : Tree Stub} (ht : x.tree? = some t)
    (mark : Stub → Option Nat) (stub : Nat → Label) :
    x.elements? = none ∧ t.children = [] ∧ t.label mark = x.label ∧
      x.label.cut stub = x.label := by
  cases x <;> cases ht <;> exact ⟨rfl, rfl, rfl, rfl⟩

/-- Unfolding goes as deep as it is told and makes the tree that a cut there leaves, if the limit
puts a leaf in place of a sequence. -/
theorem unfolding_of_unfold {limit : Nat → Except Failure (Tree Stub)} {mark : Stub → Option Nat}
    {stub : Nat → Label}
    (hlimit : ∀ n t, limit n = .ok t → t.children = [] ∧ t.label mark = stub n)
    {depth : Nat} {t : Tree Stub} (ht : cs.unfold limit depth h = .ok t) :
    t.unfolding mark = (cs.unfolding h).cut stub depth := by
  induction depth using Nat.strongRecOn generalizing h t with
  | ind depth ih =>
    funext path
    rcases unfold_ok_cases ht with
      ⟨x, hx, hxt⟩ | ⟨es, hes, ⟨rfl, hstub⟩ | ⟨below, ts, rfl, rfl, hts⟩⟩
    · obtain ⟨hleaf, hchildren, hlabel, hcut⟩ := tree?_eq_some hxt mark stub
      have hnone := unfolding_cons_of_leaf hx hleaf
      cases path with
      | nil => simp [Tree.unfolding, Unfolding.cut_nil, hx, hlabel, hcut]
      | cons i path => simp [Tree.unfolding, Unfolding.cut, hchildren, hnone]
    · obtain ⟨hchildren, hlabel⟩ := hlimit _ _ hstub
      cases path with
      | nil => simp [Tree.unfolding, Unfolding.cut_nil, hes, hlabel, Cell.label, Label.cut]
      | cons i path => simp [Tree.unfolding, Unfolding.cut_zero_cons, hchildren]
    · cases path with
      | nil =>
        simp [Tree.unfolding, Unfolding.cut_nil, hes, Tree.label, Cell.label, hts.length_eq]
      | cons i path =>
        simp only [Tree.unfolding, Tree.children, Unfolding.cut_succ_cons,
          unfolding_cons_of_seq hes]
        by_cases hi : i < es.length
        · have hi' : i < ts.length := hts.length_eq ▸ hi
          have hbelow := ih below (Nat.lt_succ_self below) (hts.get hi hi')
          simpa [hi, hi'] using congrFun hbelow path
        · have hi' : ¬ i < ts.length := hts.length_eq ▸ hi
          simp [hi, hi', Unfolding.cut]

/-- No element of a sequence is missing. -/
def Closed (cs : Cells) : Prop := ∀ s x, cs.links.Holds s x → x.index < cs.length

theorem Closed.reaches (hcs : cs.Closed) (hh : h.index < cs.length) {x : Handle}
    (hx : cs.links.Reaches h x) : x.index < cs.length := by
  rcases hx.cases_tail with rfl | ⟨s, -, hsx⟩
  · exact hh
  · exact hcs s x hsx

/-- Unfolding goes through if there is a cell behind every handle that it meets. -/
theorem exists_unfold {limit : Nat → Except Failure (Tree Stub)}
    (hlimit : ∀ n, ∃ t, limit n = .ok t) (hfound : ∀ x, cs.links.Reaches h x → x.index < cs.length)
    (depth : Nat) : ∃ t, cs.unfold limit depth h = .ok t := by
  induction depth using Nat.strongRecOn generalizing h with
  | ind depth ih =>
    obtain ⟨x, hx⟩ : ∃ x, cs[h.index]? = some x :=
      ⟨_, List.getElem?_eq_getElem (hfound h (.refl h))⟩
    cases x with
    | seq es =>
      cases depth with
      | zero => exact unfold_seq_zero hx ▸ hlimit es.length
      | succ below =>
        have hlinks := links_eq_seq_iff.mpr hx
        rw [unfold_seq_succ hx]
        cases hes : es.mapM (cs.unfold limit below) with
        | ok ts => exact ⟨.seq ts, rfl⟩
        | error e =>
          obtain ⟨x, hmem, hfail⟩ := Outcome.exists_of_mapM_eq_error hes
          obtain ⟨t, ht⟩ := ih below (Nat.lt_succ_self below)
            fun y hy => hfound y (.head ⟨es, hlinks, hmem⟩ hy)
          cases ht.symm.trans hfail
    | _ => exact ⟨_, unfold_leaf hx rfl depth⟩

end paths

end Cells

namespace Arena

variable {a : Arena} {h : Handle}

theorem Layout.issued_of_reaches (ha : a.Layout) (hclosed : a.cells.Closed) (hh : h ∈ a.handles)
    (x : Handle) (hx : a.links.Reaches h x) : x ∈ a.handles := by
  rw [mem_handles, ← length_cells] at hh ⊢
  rw [← ha.links_cells] at hx
  exact hclosed.reaches hh hx

/-- Where no token is missing, every unfolding that puts leaves in place of sequences goes through,
and makes the tree below the token, cut where it ends. -/
theorem Layout.exists_unfold {Stub : Type} (ha : a.Layout)
    (hh : ∀ x, a.links.Reaches h x → x ∈ a.handles) {limit : Nat → Except Failure (Tree Stub)}
    {mark : Stub → Option Nat} {stub : Nat → Label}
    (hlimit : ∀ n, ∃ t, limit n = .ok t ∧ t.children = [] ∧ t.label mark = stub n) (depth : Nat) :
    ∃ t, a.unfold limit depth h = .ok t ∧ t.unfolding mark = (a.unfolding h).cut stub depth := by
  have hends : ∀ n, ∃ t, limit n = .ok t := fun n => (hlimit n).imp fun _ ht => ht.1
  obtain ⟨t, ht⟩ := Cells.exists_unfold hends (ha.found_of_issued hh) depth
  refine ⟨t, (ha.unfold_cells limit depth h).trans ht, ?_⟩
  rw [ha.unfolding_cells]
  refine Cells.unfolding_of_unfold (fun n u hu => ?_) ht
  obtain ⟨v, hv, hleaf⟩ := hlimit n
  cases hu.symm.trans hv
  exact hleaf

end Arena

end TokenStore
