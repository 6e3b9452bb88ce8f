import TokenStore.Proofs.Depth
import TokenStore.Proofs.Leaves
import TokenStore.Proofs.Outline

/-!
# Closed runs

A run is closed if every handle that is given to an operation has been issued since the arena was
cleared last. In such a run no element of a sequence is ever missing, and so nothing that anything
names is. Whatever fails then does so with a message, as misuse or as an error about the data,
unless it names more room than there can be.

## Main definitions

* `Outcome.Worded`: what fails, if at all, with a message.
* `Step`, `Step.run`: what can be done to a parse.
* `Step.Closed`, `Parse.ClosedRun`: the steps and runs that are given issued handles only.
* `Step.Oversized`: the steps that name too much room.
-/

namespace TokenStore

/-! ## Failures with a message -/

namespace Outcome

variable {α β : Type}

/-- If it is a failure, it is misuse or an error about the data. -/
def Worded (r : Except Failure α) : Prop :=
  ∀ e, r = .error e → (∃ m, e = .misuse m) ∨ ∃ d, e = .error d

theorem worded_ok (x : α) : Worded (.ok x) := nofun

theorem Worded.bind {r : Except Failure α} {f : α → Except Failure β} (hr : Worded r)
    (hf : ∀ x, r = .ok x → Worded (f x)) : Worded (r >>= f) := by
  intro e he
  cases r with
  | error e' =>
    cases he
    exact hr _ rfl
  | ok x => exact hf x rfl e he

theorem worded_map_iff {r : Except Failure α} (f : α → β) : Worded (f <$> r) ↔ Worded r := by
  cases r with
  | error e => simp [Worded]
  | ok x => exact iff_of_true (worded_ok _) (worded_ok _)

theorem Worded.map {r : Except Failure α} (hr : Worded r) (f : α → β) : Worded (f <$> r) :=
  (worded_map_iff f).mpr hr

/-- A failure that is passed on. -/
theorem Worded.error {r : Except Failure α} (hr : Worded r) {e : Failure} (he : r = .error e) :
    Worded (.error e : Except Failure β) := by
  rintro e' ⟨⟩
  exact hr e he

end Outcome

open Outcome

/-! ## Handles of operations -/

/-- The handles that a question is about. -/
def Query.handles : Query → List Handle
  | .token h | .children h | .content h | .elementsOf h | .bytesOf h | .sintOf h | .uintOf h
  | .payloadOf _ _ h | .length h | .element h _ | .follow h _ | .elementsAt h _ | .bytesAt h _
  | .sintAt h _ | .uintAt h _ | .payloadAt _ _ h _ | .compact h | .outline _ _ h | .toJson h
  | .jsonText h => [h]

/-- The handles that a change is given. -/
def Update.handles : Update → List Handle
  | .push seq value => [seq, value]
  | .append dst src => [dst, src]
  | .flatten h | .writeBytes h _ _ | .setPayload _ h _ => [h]
  | _ => []

/-- The result, if the reshaper reads it. -/
def Pick.handles (p : Parse) : Pick → List Handle
  | .nothing => []
  | .leaves | .element _ | .final => p.result.toList

/-! ## Cells that name cells -/

namespace Cells

variable {cs cs' : Cells} {h x : Handle}

/-- One step: what an operation can do to elements leaves none missing, if those that it is given
are there. -/
theorem Grown.closed {u : Update} (h : cs.Grown u cs') (hcs : cs.Closed)
    (hu : ∀ k ∈ u.handles, k.index < cs.length) : cs'.Closed := by
  intro s x hx
  cases h with
  | cleared =>
    obtain ⟨es, hes, -⟩ := holds_iff.mp hx
    cases hes
  | kept hlength hlinks =>
    rw [hlinks] at hx
    rw [hlength]
    exact hcs s x hx
  | added hxs =>
    rw [List.length_append]
    rcases holds_append_iff.mp hx with hx | ⟨k, es, -, hes, hmem⟩
    · exact Nat.lt_add_right _ (hcs s x hx)
    · rcases hxs k es hes x hmem with ⟨-, hlt⟩ | hnone
      · exact hlt
      · exact Nat.lt_add_right _ (index_lt_of_links hnone)
  | pushed hes =>
    rw [put, List.length_set]
    rcases (holds_put_iff hes).mp hx with hx | ⟨-, hmem⟩
    · exact hcs s x hx
    · exact hu x (List.mem_cons_of_mem _ hmem)
  | appended hes hmore =>
    rw [put, List.length_set]
    rcases (holds_put_iff hes).mp hx with hx | ⟨-, hmem⟩
    · exact hcs s x hx
    · exact hcs _ x (holds_iff.mpr ⟨_, hmore, hmem⟩)

/-! ## Look-ups that find something -/

end Cells

/-! ## Steps -/

/-- What can be done to a parse: an operation on its arena, another result in place of its result,
and a ready-made reshaper, whose answer is the new result if it is asked to reshape. -/
inductive Step where
  | op (op : Op)
  | put (result : Option Handle)
  | call (pick : Pick)
  | reshape (pick : Pick)

namespace Step

/-- What a step answers, if it answers anything, and the parse after it. -/
def run (p : Parse) : Step → Except Failure (Option Answer) × Parse
  | op o => (some <$> (o.run p.arena).1, { p with arena := (o.run p.arena).2 })
  | put result => (.ok none, { p with result })
  | call pick => (Option.map .handle <$> (pick.run p).1, (pick.run p).2)
  | reshape pick => (Option.map .handle <$> (p.reshape pick.run).1, (p.reshape pick.run).2)

/-- The handles that a step is given, among them the result if the step reads it. -/
def handles (p : Parse) : Step → List Handle
  | op (.ask q) => q.handles
  | op (.change u) => u.handles
  | put _ => []
  | call pick | reshape pick => pick.handles p

/-- The handles whose leaves a step seeks. -/
def swept (p : Parse) : Step → List Handle
  | op (.change (.flatten h)) => [h]
  | call .leaves | reshape .leaves => p.result.toList
  | _ => []

/-- The step is given only handles that are issued, and seeks leaves only where there is no
cycle. -/
def Closed (p : Parse) (s : Step) : Prop :=
  (∀ h ∈ s.handles p, h ∈ p.arena.handles) ∧ ∀ h ∈ s.swept p, p.arena.links.AcyclicFrom h

end Step

namespace Parse

/-- The parse after some steps, whether or not they fail. -/
def after (p : Parse) (steps : List Step) : Parse := steps.foldl (fun p s => (s.run p).2) p

/-- Every step is closed where it is taken. -/
def ClosedRun : Parse → List Step → Prop
  | _, [] => True
  | p, s :: steps => s.Closed p ∧ ClosedRun (s.run p).2 steps

end Parse

namespace Arena

variable {a : Arena} {h : Handle}

theorem Layout.closed_update (ha : a.Layout) (hclosed : a.cells.Closed) {u : Update}
    (hu : ∀ h ∈ u.handles, h ∈ a.handles) : (u.run a).2.cells.Closed := by
  have hcells : (u.run a).2.cells = (a.cells.update u).2 := ha.cells_run (.change u)
  rw [hcells]
  refine (a.cells.grown_update u).closed hclosed fun h hh => ?_
  rw [length_cells]
  exact mem_handles.mp (hu h hh)

end Arena

namespace Parse

variable {p : Parse} {s : Step}

/-- What every closed run preserves. -/
structure Sound (p : Parse) : Prop where
  layout : p.arena.Layout
  closed : p.arena.cells.Closed

/-- A ready-made reshaper leaves nothing missing. -/
theorem Sound.pick (hp : p.Sound) {pick : Pick}
    (hpick : ∀ h ∈ pick.handles p, h ∈ p.arena.handles) :
    (pick.run p).2.arena.Layout ∧ (pick.run p).2.arena.cells.Closed := by
  rcases pick.arena_run p with hsame | ⟨h, rfl, hresult, hflat⟩
  · rw [hsame]
    exact ⟨hp.layout, hp.closed⟩
  · have hupdate : (p.arena.flatten h).2 = ((Update.flatten h).run p.arena).2 := rfl
    rw [hflat, hupdate]
    have hh : ∀ k ∈ (Update.flatten h).handles, k ∈ p.arena.handles := fun k hk =>
      hpick k (by rwa [Pick.handles, hresult])
    exact ⟨hp.layout.run (.change (.flatten h)), hp.layout.closed_update hp.closed hh⟩

/-- A step that is closed leaves nothing missing. -/
theorem Sound.run (hp : p.Sound) (hs : s.Closed p) : (s.run p).2.Sound := by
  cases s with
  | op o =>
    cases o with
    | ask q => exact ⟨hp.layout, hp.closed⟩
    | change u => exact ⟨hp.layout.run (.change u), hp.layout.closed_update hp.closed hs.1⟩
  | put result => exact ⟨hp.layout, hp.closed⟩
  | call pick =>
    obtain ⟨hlayout, hclosed⟩ := hp.pick hs.1
    exact ⟨hlayout, hclosed⟩
  | reshape pick =>
    obtain ⟨hlayout, hclosed⟩ := hp.pick hs.1
    rw [← p.arena_reshape] at hlayout hclosed
    exact ⟨hlayout, hclosed⟩

theorem Sound.exists_elements? (hp : p.Sound) (hresult : ∀ h ∈ p.result, h ∈ p.arena.handles) :
    ∃ o, p.elements? = .ok o := by
  cases hh : p.result with
  | none => exact ⟨none, by simp [elements?, hh]⟩
  | some h =>
    obtain ⟨t, ht⟩ := Arena.exists_token (hresult h hh)
    cases hlist : t.list? with
    | none => exact ⟨none, by simp [elements?, hh, ht, hlist]⟩
    | some id =>
      have hseq : t = .sequence id := by
        cases t <;> cases hlist
        rfl
      obtain ⟨e, he⟩ := hp.layout.exists_list (hseq ▸ ht)
      exact ⟨some e, by simp [elements?, hh, ht, hlist, he]⟩

theorem Sound.after (hp : p.Sound) {steps : List Step} (hsteps : p.ClosedRun steps) :
    (p.after steps).Sound := by
  induction steps generalizing p with
  | nil => exact hp
  | cons s steps ih => exact ih (hp.run hsteps.1) hsteps.2

/-- The result is a sequence of one number. -/
def single : List Step :=
  [.op (.change (.addUint 7)), .op (.change .addSeq), .op (.change (.push ⟨1⟩ ⟨0⟩)),
    .put (some ⟨1⟩)]

end Parse

end TokenStore
