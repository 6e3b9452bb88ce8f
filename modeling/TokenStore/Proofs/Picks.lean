import TokenStore.Proofs.Closed

/-!
# Ready-made reshapers in a row

Where nothing is missing and nothing contains itself, ready-made reshapers can be put in a row of
any length, and none of them fails. All that they do to the arena is to add the flat sequences that
are asked for, and no result has a leaf that the first one does not have.

## Main definitions

* `Arena.withLists`: an arena with sequences added behind all that is in it.
* `Parse.Ready`: the parses that ready-made reshapers do not fail on.
* `Parse.picked`, `Parse.sweeps`: the parse after some ready-made reshapers, and what is flattened
  on the way.
-/

namespace TokenStore

namespace Arena

variable {a : Arena} {x : Handle} {e : Elements} {ls : List Handle}

/-! ## Added sequences -/

/-- The arena with sequences added behind all that is in it. -/
def withLists (a : Arena) (added : List (List Handle)) : Arena :=
  { a with
    tokens := a.tokens ++ (added.mapIdx fun i _ => .sequence ⟨a.lists.size + i⟩).toArray
    lists := a.lists ++ (added.map Elements.tight).toArray }

theorem withLists_nil (a : Arena) : a.withLists [] = a := by simp [withLists]

theorem withLists_addList (a : Arena) (ls : List Handle) (added : List (List Handle)) :
    (a.addList (.tight ls)).2.withLists added = a.withLists (ls :: added) := by
  simp [withLists, addList_eq, List.mapIdx_cons, Nat.add_assoc, Nat.add_comm 1]

theorem exists_list_of_holds {s : Handle} (hx : a.links.Holds s x) :
    ∃ e ∈ a.lists, x ∈ e.toList := by
  obtain ⟨es, hes, hx⟩ := hx
  obtain ⟨id, e, -, he, rfl⟩ := links_eq_some_iff.mp hes
  exact ⟨e, Array.mem_of_getElem? (list_eq_ok_iff.mp he), hx⟩

theorem links_addList_eq_none_iff : (a.addList e).2.links x = .ok none ↔ a.links x = .ok none := by
  refine ⟨fun hx => ?_, links_addList e⟩
  have hlt := mem_handles.mp (mem_handles_of_links hx)
  rw [size_addList] at hlt
  by_cases hnew : x = ⟨a.size⟩
  · rw [hnew, links_of_elementsOf (elementsOf_addList a e)] at hx
    cases hx
  · have hold : x ∈ a.handles := by
      have hne : x.index ≠ a.size := fun heq => hnew (congrArg Handle.mk heq)
      exact mem_handles.mpr (by omega)
    obtain ⟨t, ht, hlist⟩ := links_eq_none_iff.mp hx
    rw [token_addList e hold] at ht
    exact links_eq_none_iff.mpr ⟨t, ht, hlist⟩

/-- An added sequence of tokens that are no sequences leads to no others of them. -/
theorem mem_of_reaches_addList (hls : ∀ y ∈ ls, a.links y = .ok none)
    (hx : (a.addList (.tight ls)).2.links.Reaches ⟨a.size⟩ x)
    (hleaf : (a.addList (.tight ls)).2.links x = .ok none) : x ∈ ls := by
  have hnew : (a.addList (.tight ls)).2.links ⟨a.size⟩ = .ok (some ls) := by
    rw [links_of_elementsOf (elementsOf_addList a _), Elements.toList_tight]
  rcases hx.cases_head with rfl | ⟨y, ⟨es, hes, hy⟩, hreach⟩
  · cases hnew.symm.trans hleaf
  · cases hnew.symm.trans hes
    -- the elements lead nowhere
    rcases hreach.cases_head with rfl | ⟨z, ⟨es, hes, -⟩, -⟩
    · exact hy
    · cases (links_addList _ (hls y hy)).symm.trans hes

end Arena

namespace Parse

variable {p : Parse} {x : Handle}

/-! ## One reshaper -/

/-- What ready-made reshapers do not fail on, and leave so. -/
structure Ready (p : Parse) : Prop extends Sound p where
  acyclic : p.arena.links.Acyclic
  issued : ∀ h ∈ p.result, h ∈ p.arena.handles

theorem links_of_result {h : Handle} (hh : p.result = some h) :
    p.arena.links h = Option.map Elements.toList <$> p.elements? := by
  simp only [elements?, hh, Arena.links]
  cases p.arena.token h with
  | error e => rfl
  | ok t =>
    cases hid : t.list? with
    | none => simp [hid]
    | some id => cases p.arena.list id <;> simp [hid]

/-- What is picked from the elements of the result. -/
theorem reaches_of_elements? {o : Option Elements} {f : Elements → Option Handle}
    (ho : p.elements? = .ok o) (hf : ∀ e, ∀ x ∈ f e, x ∈ e.toList) :
    ∀ x ∈ o.bind f, ∃ h ∈ p.result, p.arena.links.Reaches h x := by
  intro x hx
  obtain ⟨e, rfl, hx⟩ := Option.bind_eq_some_iff.mp hx
  cases hh : p.result with
  | none => simp [elements?, hh] at ho
  | some h =>
    have hlinks := links_of_result hh
    rw [ho] at hlinks
    exact ⟨h, rfl, .head ⟨_, hlinks, hf e x hx⟩ (.refl x)⟩

namespace Ready

/-- One step: the result gives way to something that it leads to, or to a new sequence of its
leaves. -/
theorem reshape_cases (hp : p.Ready) (pick : Pick) :
    (∃ r, p.reshape pick.run = (.ok r, { p with result := r }) ∧
      (pick = .leaves → p.result = none) ∧
      ∀ x ∈ r, ∃ h ∈ p.result, p.arena.links.Reaches h x) ∨
    ∃ h ls, pick = .leaves ∧ p.result = some h ∧ p.arena.flattened h = .ok ls ∧
      p.reshape pick.run =
        (.ok (some ⟨p.arena.size⟩), ⟨(p.arena.addList (.tight ls)).2, some ⟨p.arena.size⟩⟩) := by
  have habsent : ∀ x ∈ (none : Option Handle), ∃ h ∈ p.result, p.arena.links.Reaches h x := by
    simp
  cases pick with
  | nothing => exact .inl ⟨none, rfl, by simp, habsent⟩
  | leaves =>
    obtain ⟨a, result⟩ := p
    cases result with
    | none => exact .inl ⟨none, rfl, by simp, habsent⟩
    | some h =>
      have hentire : a.Entire h :=
        ⟨hp.layout.issued_of_reaches hp.closed (hp.issued h rfl), fun s _ => hp.acyclic s⟩
      have hls := hp.layout.flattened_of_entire hentire
      rcases a.flatten_cases h with ⟨ls, hfound, hflat⟩ | ⟨e, he, -⟩
      · refine .inr ⟨h, ls, rfl, rfl, (a.flattened_eq h).trans hfound, ?_⟩
        simp [reshape, Pick.run, hflat]
      · cases ((a.flattened_eq h).trans he).symm.trans hls
  | element index =>
    obtain ⟨o, ho⟩ := hp.exists_elements? hp.issued
    refine .inl ⟨o.bind (·.get? index), by simp [reshape, Pick.run, ho], by simp, ?_⟩
    refine reaches_of_elements? ho fun e x hx => ?_
    rw [Elements.get?_eq] at hx
    exact List.mem_of_getElem? hx
  | final =>
    obtain ⟨o, ho⟩ := hp.exists_elements? hp.issued
    refine .inl ⟨o.bind (·.last?), by simp [reshape, Pick.run, ho], by simp, ?_⟩
    refine reaches_of_elements? ho fun e x hx => ?_
    rw [Elements.last?_eq] at hx
    exact List.mem_of_getLast? hx

theorem reshape (hp : p.Ready) (pick : Pick) : (p.reshape pick.run).2.Ready := by
  have hclosed : Step.Closed p (.reshape pick) := by
    refine ⟨fun h hh => hp.issued h ?_, fun h _ s _ => hp.acyclic s⟩
    cases pick with
    | nothing => cases hh
    | _ => exact Option.mem_toList.mp hh
  have hsound : (p.reshape pick.run).2.Sound := hp.toSound.run hclosed
  refine ⟨hsound, ?_, ?_⟩
  · rw [p.arena_reshape]
    rcases pick.arena_run p with hsame | ⟨h, -, -, hflat⟩
    · rw [hsame]
      exact hp.acyclic
    · have hopen : ¬ (Op.change (.flatten h)).Closes p.arena.links := id
      rw [hflat]
      exact hp.layout.acyclic_run hp.acyclic hopen
  · rcases hp.reshape_cases pick with ⟨r, hrun, -, hr⟩ | ⟨h, ls, -, -, -, hrun⟩
    · rw [hrun]
      intro x hx
      obtain ⟨h, hh, hreach⟩ := hr x hx
      exact hp.layout.issued_of_reaches hp.closed (hp.issued h hh) x hreach
    · rw [hrun]
      rintro x ⟨⟩
      rw [Arena.mem_handles, Arena.size_addList]
      exact Nat.lt_succ_self _

theorem exists_reshape (hp : p.Ready) (pick : Pick) : ∃ r, (p.reshape pick.run).1 = .ok r := by
  rcases hp.reshape_cases pick with ⟨r, hrun, -, -⟩ | ⟨_, _, -, -, -, hrun⟩
  · exact ⟨r, by rw [hrun]⟩
  · exact ⟨_, by rw [hrun]⟩

theorem result_reshape (hp : p.Ready) (pick : Pick) (hnone : p.result = none) :
    (p.reshape pick.run).2.result = none := by
  rcases hp.reshape_cases pick with ⟨r, hrun, -, hr⟩ | ⟨h, _, -, hh, -, -⟩
  · rw [hrun]
    refine Option.eq_none_iff_forall_not_mem.mpr fun x hx => ?_
    obtain ⟨h, hh, -⟩ := hr x hx
    cases hnone.symm.trans hh
  · cases hnone.symm.trans hh

/-- What is no sequence and can be reached afterwards could be reached before. -/
theorem leaf_reshape (hp : p.Ready) (pick : Pick) {k : Handle}
    (hk : k ∈ (p.reshape pick.run).2.result)
    (hx : (p.reshape pick.run).2.arena.links.Reaches k x)
    (hleaf : (p.reshape pick.run).2.arena.links x = .ok none) :
    ∃ h ∈ p.result, p.arena.links.Reaches h x ∧ p.arena.links x = .ok none := by
  rcases hp.reshape_cases pick with ⟨r, hrun, -, hr⟩ | ⟨h, ls, -, hh, hls, hrun⟩
  · rw [hrun] at hk hx hleaf
    obtain ⟨h, hh, hreach⟩ := hr k hk
    exact ⟨h, hh, hreach.trans hx, hleaf⟩
  · rw [hrun] at hk hx hleaf
    cases hk
    rw [Arena.flattened_eq] at hls
    have hleaves := fun y (hy : y ∈ ls) => Links.leaf_of_mem_leavesWithin hls hy
    have hmem := Arena.mem_of_reaches_addList (fun y hy => (hleaves y hy).2) hx hleaf
    exact ⟨h, hh, hleaves x hmem⟩

end Ready

/-! ## Reshapers in a row -/

/-- The parse after some ready-made reshapers. -/
def picked (p : Parse) (picks : List Pick) : Parse := p.after (picks.map .reshape)

/-- What is flattened on the way, each in the arena as it is then. -/
def sweeps : Parse → List Pick → List (Arena × Handle)
  | _, [] => []
  | p, pick :: picks =>
    ((Step.reshape pick).swept p).map (p.arena, ·) ++ sweeps (p.reshape pick.run).2 picks

namespace Ready

theorem picked (hp : p.Ready) (picks : List Pick) : (p.picked picks).Ready := by
  induction picks generalizing p with
  | nil => exact hp
  | cons pick picks ih => exact ih (hp.reshape pick)

theorem result_picked (hp : p.Ready) (hnone : p.result = none) (picks : List Pick) :
    (p.picked picks).result = none := by
  induction picks generalizing p with
  | nil => exact hnone
  | cons pick picks ih => exact ih (hp.reshape pick) (hp.result_reshape pick hnone)

theorem leaf_picked (hp : p.Ready) {picks : List Pick} {k : Handle}
    (hk : k ∈ (p.picked picks).result) (hx : (p.picked picks).arena.links.Reaches k x)
    (hleaf : (p.picked picks).arena.links x = .ok none) :
    ∃ h ∈ p.result, p.arena.links.Reaches h x ∧ p.arena.links x = .ok none := by
  induction picks generalizing p with
  | nil => exact ⟨k, hk, hx, hleaf⟩
  | cons pick picks ih =>
    obtain ⟨h, hh, hreach, hleaf⟩ := ih (hp.reshape pick) hk hx hleaf
    exact hp.leaf_reshape pick hh hreach hleaf

/-- All that is added to the arena: the leaves of what is flattened on the way, as new sequences. -/
theorem arena_picked (hp : p.Ready) (picks : List Pick) :
    ∃ added : List (List Handle),
      List.Forall₂ (fun s ls => s.1.flattened s.2 = .ok ls) (p.sweeps picks) added ∧
        (∀ ls ∈ added, ∀ x ∈ ls, p.arena.links x = .ok none) ∧
        (p.picked picks).arena = p.arena.withLists added := by
  induction picks generalizing p with
  | nil => exact ⟨[], .nil, nofun, p.arena.withLists_nil.symm⟩
  | cons pick picks ih =>
    obtain ⟨added, hadded, hflat, harena⟩ := ih (hp.reshape pick)
    have hpicked : p.picked (pick :: picks) = (p.reshape pick.run).2.picked picks := rfl
    rcases hp.reshape_cases pick with ⟨r, hrun, habsent, -⟩ | ⟨h, ls, rfl, hh, hls, hrun⟩
    · have hswept : (Step.reshape pick).swept p = [] := by
        cases pick <;> simp_all [Step.swept]
      rw [hrun] at hflat harena
      refine ⟨added, ?_, hflat, ?_⟩
      · rwa [sweeps, hswept]
      · rw [hpicked, hrun, harena]
    · have hswept : (Step.reshape .leaves).swept p = [h] := by simp [Step.swept, hh]
      rw [hrun] at hflat harena
      refine ⟨ls :: added, ?_, ?_, ?_⟩
      · rw [sweeps, hswept]
        exact .cons hls hadded
      · -- the sequence that was added is no leaf, so that later leaves are old ones
        rintro ms hms x hx
        rcases List.mem_cons.mp hms with rfl | hms
        · exact Links.links_of_mem_leavesWithin (p.arena.flattened_eq h ▸ hls) hx
        · exact Arena.links_addList_eq_none_iff.mp (hflat ms hms x hx)
      · rw [hpicked, hrun, harena, Arena.withLists_addList]

end Ready

/-- Ready-made reshapers in a row, if nothing is missing in the arena and nothing contains itself:
the next one never fails, and once there is no result there is none any more. The arena is as it was
but for one new sequence for each result that was flattened, of its leaves. What is no sequence and
can be reached from the last result could be reached from the first one. -/
theorem picks_safe (ha : p.arena.Built)
    (hlists : ∀ e ∈ p.arena.lists, ∀ x ∈ e.toList, x ∈ p.arena.handles)
    (hacyclic : p.arena.links.Acyclic) (hresult : ∀ h ∈ p.result, h ∈ p.arena.handles)
    (picks : List Pick) :
    let q := p.picked picks
    (∀ pick : Pick, ∃ r, (q.reshape pick.run).1 = .ok r) ∧
      (q.result = none → ∀ more, (q.picked more).result = none) ∧
      (∃ added : List (List Handle),
        List.Forall₂ (fun s ls => s.1.flattened s.2 = .ok ls) (p.sweeps picks) added ∧
          (∀ ls ∈ added, ∀ x ∈ ls, p.arena.links x = .ok none) ∧
          q.arena = p.arena.withLists added) ∧
      ∀ k ∈ q.result, ∀ x, q.arena.links.Reaches k x → q.arena.links x = .ok none →
        ∃ h ∈ p.result, p.arena.links.Reaches h x ∧ p.arena.links x = .ok none := by
  intro q
  have hclosed : p.arena.cells.Closed := by
    intro s x hx
    rw [ha.layout.links_cells] at hx
    obtain ⟨e, he, hmem⟩ := Arena.exists_list_of_holds hx
    rw [Arena.length_cells]
    exact Arena.mem_handles.mp (hlists e he x hmem)
  have hp : p.Ready := ⟨⟨ha.layout, hclosed⟩, hacyclic, hresult⟩
  have hq : q.Ready := hp.picked picks
  exact ⟨hq.exists_reshape, hq.result_picked, hp.arena_picked picks,
    fun k hk x hx hleaf => hp.leaf_picked hk hx hleaf⟩

/-- A sequence is flattened, the last of its leaves is picked and flattened as well, and then there
is no tenth element. -/
theorem picks_safe_sharing :
    let p : Parse := ⟨Arena.sharing, some ⟨3⟩⟩
    let picks : List Pick := [.leaves, .final, .leaves, .element 9, .leaves]
    let q := p.picked picks
    (∃ added, q.arena = p.arena.withLists added ∧ added.length = 2) ∧
      q.arena.links ⟨4⟩ = .ok (some [⟨0⟩, ⟨0⟩, ⟨0⟩]) ∧ q.arena.links ⟨5⟩ = .ok (some [⟨0⟩]) ∧
      ∀ more, (q.picked more).result = none := by
  intro p picks q
  have hacyclic : p.arena.links.Acyclic := fun s =>
    Links.acyclicFrom_of_lt (fun s x hx => (Arena.index_lt_of_sharing_holds s x hx).1) s s (.refl s)
  obtain ⟨-, habsent, ⟨added, hadded, -, harena⟩, -⟩ :=
    picks_safe (p := p) (Arena.built_after _) (by decide) hacyclic (by decide) picks
  have hsweeps : (p.sweeps picks).length = 2 := by decide +kernel
  have hnone : q.result = none := by decide +kernel
  refine ⟨⟨added, harena, ?_⟩, by decide +kernel, by decide +kernel, habsent hnone⟩
  rw [← hadded.length_eq, hsweeps]

end Parse

end TokenStore
