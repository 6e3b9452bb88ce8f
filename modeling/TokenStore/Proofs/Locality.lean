import TokenStore.Proofs.Compact
import TokenStore.Proofs.Leaves
import TokenStore.Proofs.Reimport

/-!
# What a token is seen by

The texts of a token, its export and its leaves depend on nothing but the tokens that can be reached
from it, and of an application's token on no more than the tag. They stay the same as long as
operations leave these tokens alone, whatever else they add or change, and whether or not they fail.

## Main definitions

* `Cells.bare`: cells without the values of an application.
* `Arena.Passes`: the runs that change no more of some tokens than the values of an application.
* `Arena.SameView`: a token reads the same in two arenas.
-/

namespace TokenStore

namespace Links

variable {f g : Links} {h s t : Handle}

section agree

variable (hfg : ∀ x, f.Reaches h x → g x = f x)
include hfg

/-- Links that agree on all that can be reached lead from there to the same. -/
theorem transGen_of_agree (hs : f.Reaches h s) (ht : Relation.TransGen g.Holds s t) :
    Relation.TransGen f.Holds s t := by
  have hstep : ∀ x y, f.Reaches h x → g.Holds x y → f.Holds x y := by
    rintro x y hx ⟨es, hes, hy⟩
    exact ⟨es, (hfg x hx).symm.trans hes, hy⟩
  induction ht with
  | single hst => exact .single (hstep s _ hs hst)
  | tail _ htu ih => exact ih.tail (hstep _ _ (hs.trans ih.to_reflTransGen) htu)

theorem reaches_of_agree (ht : g.Reaches h t) : f.Reaches h t := by
  rcases Relation.reflTransGen_iff_eq_or_transGen.mp ht with rfl | ht
  · exact .refl t
  · exact (transGen_of_agree hfg (.refl h) ht).to_reflTransGen

theorem AcyclicFrom.of_agree (hf : f.AcyclicFrom h) : g.AcyclicFrom h := by
  intro s hs hcycle
  have hreach := reaches_of_agree hfg hs
  exact hf s hreach (transGen_of_agree hfg hreach hcycle)

end agree

end Links

/-- The cell without an application's value. -/
def Cell.bare : Cell → Cell
  | .user tag _ => .user tag .unit
  | x => x

namespace Cell

variable {x y : Cell}

theorem eq_seq_of_bare {es : List Handle} (h : y.bare = (seq es).bare) : y = .seq es := by
  cases y <;> simp_all [bare]

theorem elements?_of_bare (h : y.bare = x.bare) : y.elements? = x.elements? := by
  cases x <;> cases y <;> simp_all [bare, elements?]

theorem tree?_of_bare {Stub : Type} (h : y.bare = x.bare) :
    (y.tree? : Option (Tree Stub)) = x.tree? := by
  cases x <;> cases y <;> simp_all [bare, tree?]

end Cell

namespace Cells

/-- The cells without the values of an application. -/
def bare (cs : Cells) : Cells := cs.map Cell.bare

variable {cs ds : Cells} {h x : Handle}

theorem getElem?_bare (cs : Cells) (i : Nat) : cs.bare[i]? = cs[i]?.map Cell.bare :=
  List.getElem?_map

/-- Bare cells that are the same are both missing or both there. -/
theorem cases_of_bare (hx : ds.bare[x.index]? = cs.bare[x.index]?) :
    (cs[x.index]? = none ∧ ds[x.index]? = none) ∨
      ∃ c d, cs[x.index]? = some c ∧ ds[x.index]? = some d ∧ d.bare = c.bare := by
  rw [getElem?_bare, getElem?_bare] at hx
  cases hc : cs[x.index]? <;> cases hd : ds[x.index]? <;> simp_all

theorem links_of_bare (hx : ds.bare[x.index]? = cs.bare[x.index]?) : ds.links x = cs.links x := by
  rcases cases_of_bare hx with ⟨hc, hd⟩ | ⟨c, d, hc, hd, hdc⟩
  · simp [links, find, hc, hd]
  · simp [links, find, hc, hd, Cell.elements?_of_bare hdc]

section agree

variable (hagree : ∀ x, cs.links.Reaches h x → ds.bare[x.index]? = cs.bare[x.index]?)
include hagree

/-- An unfolding depends on nothing but the bare cells that can be reached. -/
theorem unfold_of_agree {Stub : Type} (limit : Nat → Except Failure (Tree Stub)) (depth : Nat) :
    ds.unfold limit depth h = cs.unfold limit depth h := by
  induction depth using Nat.strongRecOn generalizing h with
  | ind depth ih =>
    rcases cases_of_bare (hagree h (.refl h)) with ⟨hc, hd⟩ | ⟨c, d, hc, hd, hdc⟩
    · cases depth <;> simp [unfold, find, hc, hd]
    · cases c with
      | seq es =>
        rw [Cell.eq_seq_of_bare hdc] at hd
        cases depth with
        | zero => rw [unfold_seq_zero hc, unfold_seq_zero hd]
        | succ below =>
          have hbelow : ∀ y ∈ es, ds.unfold limit below y = cs.unfold limit below y :=
            fun y hy => ih below (Nat.lt_succ_self below)
              fun x hx => hagree x (.head (holds_iff.mpr ⟨es, hc, hy⟩) hx)
          rw [unfold_seq_succ hc, unfold_seq_succ hd, Outcome.mapM_congr hbelow]
      | _ => rw [unfold_leaf hc rfl, unfold_leaf hd (Cell.tree?_of_bare hdc)]

/-- A tree that is entire is so in all cells that agree on it, and has the same leaves there. -/
theorem Entire.leaves_of_agree (hh : cs.Entire h) :
    ∃ ls, cs.links.leavesWithin cs.length h = .ok ls ∧
      ds.links.leavesWithin ds.length h = .ok ls := by
  have hlinks : ∀ x, cs.links.Reaches h x → ds.links x = cs.links x :=
    fun x hx => links_of_bare (hagree x hx)
  have hentire : ds.Entire h := by
    refine ⟨fun x hx => ?_, hh.acyclic.of_agree hlinks⟩
    have hreach := Links.reaches_of_agree hlinks hx
    rcases cases_of_bare (hagree x hreach) with ⟨hc, -⟩ | ⟨c, d, -, hd, -⟩
    · exact absurd (hh.found x hreach) (List.getElem?_eq_none_iff.mp hc).not_gt
    · exact (List.getElem?_eq_some_iff.mp hd).1
  obtain ⟨ls, hls⟩ := hh.exists_leaves
  obtain ⟨ms, hms⟩ := hentire.exists_leaves
  refine ⟨ls, hls, ?_⟩
  -- the two searches may go to different depths, and both succeed at the sum of these
  have hdeep := Links.leavesWithin_mono hms (Nat.le_add_left ds.length cs.length)
  rw [Links.leavesWithin_congr hlinks,
    Links.leavesWithin_mono hls (Nat.le_add_right cs.length ds.length)] at hdeep
  rw [hms, hdeep]

end agree

/-- Replacing an application's value leaves the bare cells as they are. -/
theorem bare_setPayload (cs : Cells) (tag : Tag) (k : Handle) (value : Payload) :
    (cs.setPayload tag k value).2.bare = cs.bare := by
  unfold setPayload
  split
  next old hold =>
    obtain ⟨hlt, hcell⟩ := List.getElem?_eq_some_iff.mp (payloadOf_eq_ok_iff.mp hold).1
    have hsame : (Cell.user tag value).bare = (cs[k.index]).bare := by rw [hcell]; rfl
    rw [bare, put, List.map_set, hsame, ← List.map_set, List.set_getElem_self, ← bare]
  next => rfl

end Cells

/-- The operation keeps the tokens in `kept`, but for an application's values. -/
def Op.Passes (kept : Handle → Prop) (a : Arena) (op : Op) : Prop :=
  op.Spares kept a ∨ ∃ tag k value, op = .change (.setPayload tag k value)

namespace Arena

/-- Every operation of the run keeps the tokens in `kept`, but for an application's values. -/
def Passes (kept : Handle → Prop) : Arena → List Op → Prop
  | _, [] => True
  | a, op :: ops => op.Passes kept a ∧ Passes kept (op.run a).2 ops

/-- The token reads the same in both arenas: its texts, its export and, if there is an end to them,
its leaves. -/
structure SameView (a b : Arena) (h : Handle) : Prop where
  compact : b.compact h = a.compact h
  outline : ∀ o names, b.outline o names h = a.outline o names h
  toJson : b.toJson h = a.toJson h
  jsonText : b.jsonText h = a.jsonText h
  flattened : a.links.AcyclicFrom h → ∃ ls, a.flattened h = .ok ls ∧ b.flattened h = .ok ls

variable {a b : Arena} {kept : Handle → Prop} {h : Handle} {c : Cell}

namespace Layout

/-- What a token is seen by: no more than the bare cells of the tokens that it reaches. -/
theorem sameView (ha : a.Layout) (hb : b.Layout) (hh : ∀ x, a.links.Reaches h x → x ∈ a.handles)
    (hagree : ∀ x, a.links.Reaches h x → b.cells.bare[x.index]? = a.cells.bare[x.index]?) :
    SameView a b h := by
  have hcells : ∀ x, a.cells.links.Reaches h x →
      b.cells.bare[x.index]? = a.cells.bare[x.index]? := by
    rw [ha.links_cells]
    exact hagree
  have hunfold : ∀ {Stub : Type} (limit : Nat → Except Failure (Tree Stub)) depth,
      b.unfold limit depth h = a.unfold limit depth h := by
    intro Stub limit depth
    rw [ha.unfold_cells, hb.unfold_cells, Cells.unfold_of_agree hcells]
  constructor
  case compact => rw [Arena.compact, Arena.compact, compactTree, compactTree, hunfold]
  case outline =>
    intro o names
    rw [Arena.outline, Arena.outline, outlineTree, outlineTree, hunfold]
  case toJson => rw [Arena.toJson, Arena.toJson, exportTree, exportTree, hunfold]
  case jsonText => rw [Arena.jsonText, Arena.jsonText, exportTree, exportTree, hunfold]
  case flattened =>
    intro hacyclic
    have hentire := ha.entire_cells ⟨hh, hacyclic⟩
    simpa only [ha.flattened_cells, hb.flattened_cells] using hentire.leaves_of_agree hcells

/-- One step keeps the bare cells of the tokens that it passes by. -/
theorem run_keeps_bare (ha : a.Layout) {op : Op} (hop : op.Passes kept a) (hh : kept h)
    (hc : a.cells.bare[h.index]? = some c) : (op.run a).2.cells.bare[h.index]? = some c := by
  rcases hop with hspares | ⟨tag, k, value, rfl⟩
  · rw [Cells.getElem?_bare, Option.map_eq_some_iff] at hc ⊢
    obtain ⟨x, hx, rfl⟩ := hc
    exact ⟨x, ha.run_keeps hspares hh hx, rfl⟩
  · rw [ha.cells_run]
    exact (congrArg (·[h.index]?) (a.cells.bare_setPayload tag k value)).trans hc

theorem after_keeps_bare (ha : a.Layout) {ops : List Op} (hops : a.Passes kept ops) (hh : kept h)
    (hc : a.cells.bare[h.index]? = some c) : (a.after ops).cells.bare[h.index]? = some c := by
  induction ops generalizing a with
  | nil => exact hc
  | cons op ops ih =>
    obtain ⟨hop, hops⟩ := hops
    exact ih (ha.run op) hops (ha.run_keeps_bare hop hh hc)

end Layout

/-- A token reads the same after operations that add nothing to the sequences that it reaches and
write to none of its byte strings, whatever else they do, and whether or not they fail. -/
theorem sameView_after (ha : a.Built) (hh : ∀ x, a.links.Reaches h x → x ∈ a.handles) :
    (∀ op : Op, op.Passes (a.links.Reaches h) a → SameView a (op.run a).2 h) ∧
      ∀ ops, a.Passes (a.links.Reaches h) ops → SameView a (a.after ops) h := by
  have hrun : ∀ ops, a.Passes (a.links.Reaches h) ops → SameView a (a.after ops) h := by
    intro ops hops
    refine ha.layout.sameView (ha.layout.after ops) hh fun x hx => ?_
    have hlt : x.index < a.cells.length := a.length_cells ▸ mem_handles.mp (hh x hx)
    have hc : a.cells.bare[x.index]? = some (a.cells[x.index]).bare := by
      rw [Cells.getElem?_bare, List.getElem?_eq_getElem hlt, Option.map_some]
    rw [hc, ha.layout.after_keeps_bare hops hx hc]
  exact ⟨fun op hop => hrun [op] ⟨hop, trivial⟩, hrun⟩

theorem not_reaches_mixed : ¬ mixed.links.Reaches ⟨3⟩ ⟨2⟩ := by
  have hmixed : mixed.Built := built_after _
  have hnone : ∀ c ∈ mixed.cells, ⟨2⟩ ∉ c.elements?.getD [] := by decide
  intro hreach
  rcases hreach.cases_tail with heq | ⟨s, -, hs⟩
  · cases heq
  · rw [← hmixed.layout.links_cells] at hs
    obtain ⟨es, hes, hmem⟩ := Cells.holds_iff.mp hs
    exact hnone _ (List.mem_of_getElem? hes) hmem

/-- An application's value below the token is replaced, a sequence beside it gets the token itself,
and a document is refused midway. -/
theorem sameView_after_mixed :
    let ops : List Op := [.change (.setPayload ⟨64⟩ ⟨1⟩ (.uint 5)), .change (.push ⟨2⟩ ⟨3⟩),
      .change (.addJson refused)]
    SameView mixed (mixed.after ops) ⟨3⟩ ∧
      (mixed.after ops).payloadOf ⟨64⟩ .uint ⟨1⟩ = .ok (.uint 5) ∧
      (mixed.after ops).links ⟨2⟩ = .ok (some [⟨0⟩, ⟨3⟩]) := by
  intro ops
  have hmixed : mixed.Built := built_after _
  have hissued := hmixed.layout.mem_handles_of_reaches (h := ⟨3⟩) (by decide) (by decide)
  refine ⟨(sameView_after hmixed hissued).2 ops ⟨?_, ?_, ?_, trivial⟩, ?_, ?_⟩
  · exact .inr ⟨_, _, _, rfl⟩
  · refine .inl ⟨nofun, fun k hk hreach => ?_⟩
    cases hk
    exact absurd hreach not_reaches_mixed
  · exact .inl ⟨nofun, nofun⟩
  · decide +kernel
  · decide +kernel

end Arena

end TokenStore
