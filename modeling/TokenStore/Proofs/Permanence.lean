import Mathlib.Order.Basic
import TokenStore.Proofs.Atomicity
import TokenStore.Proofs.Closed

/-!
# What stays in an arena

Until the arena is cleared, a token stays what it was made as, whatever is done in between and
whatever of it fails. What the token names is only added to: a sequence grows at its end, and a byte
string keeps its length and is overwritten by nothing that is not given its own handle.

## Main definitions

* `Arena.Extends`: an arena is another one with more in its stores.
* `Turn`: what can happen to a parse, scripts of an application included.
* `Parse.play`, `Parse.trace`: a run of turns, and the operations that it carries out.
-/

namespace TokenStore

/-- No store holds less. -/
instance : Preorder Stats where
  le s t := s.tokens ≤ t.tokens ∧ s.lists ≤ t.lists ∧ s.bytes ≤ t.bytes ∧ s.payloads ≤ t.payloads
  le_refl s := by simp
  le_trans s t u hst htu := by omega

theorem Stats.le_def {s t : Stats} :
    s ≤ t ↔
      s.tokens ≤ t.tokens ∧ s.lists ≤ t.lists ∧ s.bytes ≤ t.bytes ∧ s.payloads ≤ t.payloads :=
  Iff.rfl

namespace Arena

/-! ## What is added to -/

/-- Every token of `a` is in `b`, where it names no less. -/
structure Extends (a b : Arena) : Prop where
  token : ∀ {h : Handle} {t : Token}, a.token h = .ok t → b.token h = .ok t
  list : ∀ {id : ListId} {e : Elements}, a.list id = .ok e →
    ∃ e', b.list id = .ok e' ∧ e.toList <+: e'.toList
  sizes : a.stats ≤ b.stats

variable {a b c : Arena} {h : Handle}

theorem Extends.refl (a : Arena) : Extends a a :=
  ⟨id, fun he => ⟨_, he, List.prefix_refl _⟩, le_rfl⟩

theorem Extends.trans (hab : Extends a b) (hbc : Extends b c) : Extends a c := by
  refine ⟨fun ht => hbc.token (hab.token ht), fun he => ?_, hab.sizes.trans hbc.sizes⟩
  obtain ⟨e', he', hgrown⟩ := hab.list he
  obtain ⟨e'', he'', hmore⟩ := hbc.list he'
  exact ⟨e'', he'', hgrown.trans hmore⟩

/-- Look-ups by place, since a move is a change of places. -/
theorem Extends.of_places
    (htokens : ∀ (i : Nat) (t : Token), a.tokens[i]? = some t → b.tokens[i]? = some t)
    (hlists : ∀ (i : Nat) (e : Elements), a.lists[i]? = some e →
      ∃ e', b.lists[i]? = some e' ∧ e.toList <+: e'.toList)
    (hsizes : a.stats ≤ b.stats) : Extends a b := by
  refine ⟨fun ht => ?_, fun he => ?_, hsizes⟩
  · rw [token_eq_ok_iff] at ht ⊢
    exact htokens _ _ ht
  · obtain ⟨e', he', hgrown⟩ := hlists _ _ (list_eq_ok_iff.mp he)
    exact ⟨e', list_eq_ok_iff.mpr he', hgrown⟩

/-- A token is added, and the element lists that there are stay as they are. -/
theorem Extends.of_push {t : Token} (htokens : b.tokens = a.tokens.push t)
    (hlists : ∀ (i : Nat) (e : Elements), a.lists[i]? = some e → b.lists[i]? = some e)
    (hsizes : a.stats ≤ b.stats) : Extends a b := by
  refine .of_places (fun i u hu => ?_) (fun i e he => ⟨e, hlists i e he, List.prefix_refl _⟩) hsizes
  rw [htokens]
  grind

/-- One step: a move takes nothing away. -/
theorem Move.extends (h : Move a b) : Extends a b := by
  cases h with
  | sint value => exact .of_push rfl (fun i e he => he) (by simp [Stats.le_def, stats, addSint_eq])
  | uint value => exact .of_push rfl (fun i e he => he) (by simp [Stats.le_def, stats, addUint_eq])
  | list e =>
    rw [addList_eq]
    exact .of_push rfl (fun i e he => by grind) (by simp [Stats.le_def, stats])
  | bytes data =>
    rw [addBytes_eq]
    exact .of_push rfl (fun i e he => he) (by simp [Stats.le_def, stats])
  | user tag value htag =>
    rw [addUser_eq a htag]
    exact .of_push rfl (fun i e he => he) (by simp [Stats.le_def, stats])
  | grow id hs hid =>
    refine .of_places (fun i t ht => ht) (fun i e he => ?_) (by simp [stats])
    by_cases hi : id.index = i
    · exact ⟨e.append hs, by simp [Array.getElem?_modify, hi, he], by simp⟩
    · exact ⟨e, by simp [Array.getElem?_modify, hi, he], List.prefix_refl _⟩
  | write k s start data _ _ _ _ =>
    exact .of_places (fun i t ht => ht) (fun i e he => ⟨e, he, List.prefix_refl _⟩)
      (by simp [stats])
  | payload slot old value _ _ =>
    exact .of_places (fun i t ht => ht) (fun i e he => ⟨e, he, List.prefix_refl _⟩)
      (by simp [stats])

theorem Moves.extends (h : Moves a b) : Extends a b :=
  h.preserve (P := Extends a) (fun hmove hext => hext.trans hmove.extends) (.refl a)

/-- Any run that does not clear the arena, through failures and imports that end midway. -/
theorem extends_after (a : Arena) {ops : List Op} (hops : .change .clear ∉ ops) :
    Extends a (a.after ops) := by
  induction ops generalizing a with
  | nil => exact .refl a
  | cons op ops ih =>
    rw [List.mem_cons, not_or] at hops
    have hstep : Extends a (op.run a).2 := by
      cases op with
      | ask q => exact .refl a
      | change u => exact (run_moves a fun hu => hops.1 (hu ▸ rfl)).extends
    exact hstep.trans (ih _ hops.2)

namespace Extends

theorem elementsOf (hab : Extends a b) {e : Elements} (he : a.elementsOf h = .ok e) :
    ∃ e', b.elementsOf h = .ok e' ∧ e.toList <+: e'.toList := by
  obtain ⟨id, hid, he⟩ := Outcome.bind_eq_ok_iff.mp he
  obtain ⟨e', he', hgrown⟩ := hab.list he
  have hid' := listOf_eq_ok_iff.mpr (hab.token (listOf_eq_ok_iff.mp hid))
  exact ⟨e', Outcome.bind_eq_ok_iff.mpr ⟨id, hid', he'⟩, hgrown⟩

/-- A byte string keeps its span, and so its length. -/
theorem bytesOf (hab : Extends a b) {data : List UInt8} (hdata : a.bytesOf h = .ok data) :
    ∃ data', b.bytesOf h = .ok data' ∧ data'.length = data.length := by
  obtain ⟨s, ht, hs⟩ := bytesOf_eq_ok_iff.mp hdata
  obtain ⟨⟨hle, hpool⟩, rfl⟩ := slice_eq_ok_iff.mp hs
  have hpool' : s.stop ≤ b.pool.size := hpool.trans hab.sizes.2.2.1
  refine ⟨_, bytesOf_eq_ok_iff.mpr ⟨s, hab.token ht, slice_eq_ok_iff.mpr ⟨⟨hle, hpool'⟩, rfl⟩⟩, ?_⟩
  simp only [Array.length_toList, Array.size_extract, Nat.min_eq_left hpool, Nat.min_eq_left hpool']

end Extends

end Arena

/-! ## What is overwritten -/

/-- A byte string stays through all operations but those that are to write into it. -/
theorem Cells.update_keeps_bytes {cs : Cells} {h : Handle} {data : List UInt8}
    (hcell : cs[h.index]? = some (.bytes data)) {u : Update} (hclear : u ≠ .clear)
    (hwrite : ∀ offset new, u ≠ .writeBytes h offset new) :
    (cs.update u).2[h.index]? = some (.bytes data) := by
  refine update_keeps hcell hclear fun htarget => ?_
  have heffect := cs.effect_update u
  generalize cs.update u = r at heffect ⊢
  -- the other operations that change a token in place find no byte string where they succeed
  cases heffect with
  | cleared => exact absurd rfl hclear
  | refused | unfit => rfl
  | added hx => cases (Update.target?_of_cell? hx).symm.trans htarget
  | imported | torn | flattened => cases htarget
  | pushed hold | appended hold | stored hold =>
    cases htarget
    cases hcell.symm.trans hold
  | written hold =>
    cases htarget
    exact absurd rfl (hwrite _ _)

namespace Arena

variable {a : Arena} {h : Handle}

theorem Layout.bytesOf_eq_ok_iff (ha : a.Layout) {data : List UInt8} :
    a.bytesOf h = .ok data ↔ a.cells[h.index]? = some (.bytes data) := by
  rw [ha.bytesOf_cells, Cells.bytesOf_eq_ok_iff]

theorem Layout.bytesOf_after (ha : a.Layout) {data : List UInt8} (hdata : a.bytesOf h = .ok data)
    {ops : List Op} (hclear : .change .clear ∉ ops)
    (hwrite : ∀ offset new, .change (.writeBytes h offset new) ∉ ops) :
    (a.after ops).bytesOf h = .ok data := by
  induction ops generalizing a with
  | nil => exact hdata
  | cons op ops ih =>
    rw [List.mem_cons, not_or] at hclear
    have hlater : ∀ offset new, .change (.writeBytes h offset new) ∉ ops :=
      fun offset new hmem => hwrite offset new (List.mem_cons_of_mem op hmem)
    refine ih (ha.run op) ?_ hclear.2 hlater
    cases op with
    | ask q => exact hdata
    | change u =>
      rw [ha.bytesOf_eq_ok_iff] at hdata
      rw [(ha.run (.change u)).bytesOf_eq_ok_iff, ha.cells_run]
      refine Cells.update_keeps_bytes hdata (fun hu => hclear.1 (hu ▸ rfl)) fun offset new hu => ?_
      exact hwrite offset new (hu ▸ List.mem_cons_self)

end Arena

/-! ## Runs of a parse -/

/-- The operations that a script carries out, the last of which fails if one does. -/
def Script.trace : Script → Arena → List Op
  | answer _, _ => []
  | fail _, _ => []
  | step op next, a =>
    op ::
      match op.run a with
      | (.ok x, b) => (next x).trace b
      | (.error _, _) => []

theorem Script.arena_play (s : Script) (a : Arena) : (s.play a).2 = a.after (s.trace a) := by
  induction s generalizing a with
  | answer result => rfl
  | fail e => rfl
  | step op next ih =>
    rcases hrun : op.run a with ⟨e | x, b⟩
    · simp [play, trace, hrun]
    · simp [play, trace, hrun, ih]

/-- The operations by which a ready-made reshaper changes the arena. -/
def Pick.trace (p : Parse) : Pick → List Op
  | .leaves => p.result.toList.map fun h => .change (.flatten h)
  | _ => []

theorem Pick.after_trace (pick : Pick) (p : Parse) :
    (pick.run p).2.arena = p.arena.after (pick.trace p) := by
  match pick, p with
  | nothing, _ => rfl
  | element _, _ => rfl
  | final, _ => rfl
  | leaves, ⟨_, none⟩ => rfl
  | leaves, ⟨arena, some h⟩ =>
    rcases hflat : arena.flatten h with ⟨_ | _, b⟩ <;>
      simp [run, trace, hflat, Op.run, Update.run, Update.attempt]

/-- What can happen to a parse: a step of its own, or a script by which an application reshapes
it. -/
inductive Turn where
  | step (s : Step)
  | script (s : Option Handle → Script)

namespace Turn

/-- The parse after a turn, whether or not the turn fails. -/
def run (p : Parse) : Turn → Parse
  | step s => (s.run p).2
  | script s => (p.reshape (Script.reshaper s)).2

/-- The operations by which a turn changes the arena. -/
def trace (p : Parse) : Turn → List Op
  | step (.op op) => [op]
  | step (.put _) => []
  | step (.call pick) | step (.reshape pick) => pick.trace p
  | script s => (s p.result).trace p.arena

theorem arena_run (p : Parse) (t : Turn) : (t.run p).arena = p.arena.after (t.trace p) := by
  cases t with
  | step s =>
    cases s with
    | op op => rfl
    | put result => rfl
    | call pick => exact pick.after_trace p
    | reshape pick => exact (p.arena_reshape pick.run).trans (pick.after_trace p)
  | script s => exact (p.arena_reshape _).trans ((s p.result).arena_play p.arena)

end Turn

namespace Parse

/-- The parse after some turns, whether or not they fail. -/
def play (p : Parse) (turns : List Turn) : Parse := turns.foldl Turn.run p

/-- The operations by which some turns change the arena, in order. -/
def trace : Parse → List Turn → List Op
  | _, [] => []
  | p, t :: turns => t.trace p ++ trace (t.run p) turns

/-- A run of turns is a run of operations to the arena. -/
theorem arena_play (p : Parse) (turns : List Turn) :
    (p.play turns).arena = p.arena.after (p.trace turns) := by
  induction turns generalizing p with
  | nil => rfl
  | cons t turns ih => rw [trace, Arena.after_append, ← t.arena_run, ← ih, play, play,
      List.foldl_cons]

/-- Between any two points of a run from an empty parse, if the arena is not cleared there: tokens
stay the same, sequences have gained elements at their ends only, byte strings keep their lengths
and change through nothing but writes of their own, and no store holds less. -/
theorem stored_between (turns more : List Turn)
    (hclear : .change .clear ∉ (play {} turns).trace more) :
    let a := (play {} turns).arena
    let b := ((play {} turns).play more).arena
    (∀ h ∈ a.handles, ∃ t, a.token h = .ok t ∧ b.token h = .ok t) ∧
      (∀ h e, a.elementsOf h = .ok e →
        ∃ e', b.elementsOf h = .ok e' ∧ e.toList <+: e'.toList) ∧
      (∀ h data, a.bytesOf h = .ok data →
        ∃ data', b.bytesOf h = .ok data' ∧ data'.length = data.length ∧
          (data' ≠ data →
            ∃ offset new, .change (.writeBytes h offset new) ∈ (play {} turns).trace more)) ∧
      a.stats ≤ b.stats := by
  intro a b
  have ha : a.Layout := by
    have hrun : a = Arena.empty.after (trace {} turns) := arena_play {} turns
    exact hrun ▸ (Arena.built_after _).layout
  have hb : b = a.after ((play {} turns).trace more) := arena_play _ more
  have hab : a.Extends b := hb ▸ a.extends_after hclear
  refine ⟨fun h hh => ?_, fun h e he => hab.elementsOf he, fun h data hdata => ?_, hab.sizes⟩
  · obtain ⟨t, ht⟩ := Arena.exists_token hh
    exact ⟨t, ht, hab.token ht⟩
  · obtain ⟨data', hdata', hlength⟩ := hab.bytesOf hdata
    refine ⟨data', hdata', hlength, fun hne => ?_⟩
    by_contra hwrite
    have hwrite : ∀ offset new,
        .change (.writeBytes h offset new) ∉ (play {} turns).trace more :=
      fun offset new hmem => hwrite ⟨offset, new, hmem⟩
    have hsame := ha.bytesOf_after hdata hclear hwrite
    rw [← hb, hdata'] at hsame
    exact hne (Except.ok.inj hsame)

/-- A sequence of a byte string. -/
def kept : List Turn :=
  [.step (.op (.change .addSeq)), .step (.op (.change (.addBytes [1, 2]))),
    .step (.op (.change (.push ⟨0⟩ ⟨1⟩)))]

/-- A script that comes upon a missing token, an import that is refused, a push onto the byte
string, two changes that succeed, and a reshaper that asks for a missing token. -/
def troubled : List Turn :=
  [.script mistaken, .step (.op (.change (.addJson Arena.refused))),
    .step (.op (.change (.push ⟨1⟩ ⟨0⟩))), .step (.op (.change (.append ⟨0⟩ ⟨0⟩))),
    .step (.op (.change (.writeBytes ⟨1⟩ 1 [9]))), .step (.put (some ⟨99⟩)),
    .step (.reshape .final)]

theorem stored_between_troubled :
    let b := ((play {} kept).play troubled).arena
    b.token ⟨1⟩ = .ok (.bytes ⟨0, 2⟩) ∧ b.bytesOf ⟨1⟩ = .ok [1, 9] ∧
      ∃ e, b.elementsOf ⟨0⟩ = .ok e ∧ [⟨1⟩] <+: e.toList := by
  intro b
  have htrace : (play {} kept).trace troubled =
      [.change (.addUint 8), .change (.push ⟨4⟩ ⟨0⟩), .change (.addJson Arena.refused),
        .change (.push ⟨1⟩ ⟨0⟩), .change (.append ⟨0⟩ ⟨0⟩), .change (.writeBytes ⟨1⟩ 1 [9])] := rfl
  have hclear : .change .clear ∉ (play {} kept).trace troubled := by
    simp [htrace]
  obtain ⟨htokens, helements, -, -⟩ := stored_between kept troubled hclear
  obtain ⟨t, ht, hb⟩ := htokens ⟨1⟩ (by decide)
  cases ht
  exact ⟨hb, by decide +kernel, helements ⟨0⟩ { items := #[⟨1⟩] } rfl⟩

end Parse

end TokenStore
