import TokenStore.Proofs.Effects

/-!
# What operations leave alone

An operation changes at most one token in place, the one it is given for that. All others stay as
they are, with everything they name, until the arena is cleared.

## Main definitions

* `Arena.Spares`: the runs that leave some tokens alone.
-/

namespace TokenStore

/-- The operation keeps the tokens in `kept`: it does not clear the arena, and if it is to change
one of them, it changes nothing. -/
def Op.Spares (kept : Handle → Prop) (a : Arena) : Op → Prop
  | .ask _ => True
  | .change u => u ≠ .clear ∧ ∀ h, u.target? = some h → kept h → (u.run a).2 = a

/-- Every operation of the run keeps the tokens in `kept`. -/
def Arena.Spares (kept : Handle → Prop) : Arena → List Op → Prop
  | _, [] => True
  | a, op :: ops => op.Spares kept a ∧ Arena.Spares kept (op.run a).2 ops

/-- A cell stays through an operation that is not to change it, or that changes nothing. -/
theorem Cells.update_keeps {cs : Cells} {h : Handle} {x : Cell} (hx : cs[h.index]? = some x)
    {u : Update} (hu : u ≠ .clear) (htarget : u.target? = some h → (cs.update u).2 = cs) :
    (cs.update u).2[h.index]? = some x := by
  by_cases hh : u.target? = some h
  · rwa [htarget hh]
  · exact (cs.effect_update u).keeps hu hh hx

namespace Arena

variable {a : Arena} {kept : Handle → Prop} {h : Handle} {x : Cell}

/-- One step keeps the layout, also if it fails. -/
theorem Layout.run (ha : a.Layout) (op : Op) : (op.run a).2.Layout := by
  cases op with
  | ask q => exact ha
  | change u =>
    by_cases hu : u = .clear
    · subst hu
      exact layout_empty
    · exact (run_moves a hu).preserve Move.layout ha

/-- One step leaves the cells alone that it is to keep. -/
theorem Layout.run_keeps (ha : a.Layout) {op : Op} (hop : op.Spares kept a) (hh : kept h)
    (hx : a.cells[h.index]? = some x) : (op.run a).2.cells[h.index]? = some x := by
  cases op with
  | ask q => exact hx
  | change u =>
    obtain ⟨hu, hspares⟩ := hop
    have hcells : (a.cells.update u).2 = (u.run a).2.cells := (ha.cells_run (.change u)).symm
    have hsame : u.target? = some h → (a.cells.update u).2 = a.cells := fun htarget => by
      rw [hcells, hspares h htarget hh]
    rw [Op.run, ← hcells]
    exact Cells.update_keeps hx hu hsame

theorem Layout.after (ha : a.Layout) (ops : List Op) : (a.after ops).Layout := by
  induction ops generalizing a with
  | nil => exact ha
  | cons op ops ih => exact ih (ha.run op)

/-- A run leaves the cells alone that each of its steps is to keep. -/
theorem Layout.after_keeps (ha : a.Layout) {ops : List Op} (hops : a.Spares kept ops) (hh : kept h)
    (hx : a.cells[h.index]? = some x) : (a.after ops).cells[h.index]? = some x := by
  induction ops generalizing a with
  | nil => exact hx
  | cons op ops ih =>
    obtain ⟨hop, hops⟩ := hops
    exact ih (ha.run op) hops (ha.run_keeps hop hh hx)

end Arena

end TokenStore
