import TokenStore.Proofs.Cycles

/-!
# Leaves of sequences that grow

A search for leaves depends on nothing but what can be reached. So a sequence that grows at its end
has the leaves it had and behind them those of its new elements, as long as none of these leads back
to it. What is found by flattening is flat, and is found again.

## Main definitions

* `Cells.Entire`, `Arena.Entire`: the tree below a token is all there and ends everywhere.
* `Arena.flattened`: the elements of the sequence that a flattening adds.
-/

namespace TokenStore

namespace Links

variable {f g : Links} {h s x : Handle} {es more : List Handle}

/-! ## Links that agree -/

/-- A search depends on nothing but what can be reached. -/
theorem leavesWithin_congr (hfg : ∀ x, f.Reaches h x → g x = f x) (depth : Nat) :
    g.leavesWithin depth h = f.leavesWithin depth h := by
  induction depth generalizing h with
  | zero =>
    unfold leavesWithin
    rw [hfg h (.refl h)]
  | succ depth ih =>
    have hroot := hfg h (.refl h)
    cases hf : f h with
    | error e => rw [leavesWithin_error hf, leavesWithin_error (hroot.trans hf)]
    | ok o =>
      cases o with
      | none => rw [leavesWithin_leaf hf, leavesWithin_leaf (hroot.trans hf)]
      | some es =>
        have helem : ∀ x ∈ es, g.leavesWithin depth x = f.leavesWithin depth x :=
          fun x hx => ih fun y hy => hfg y (.head ⟨es, hf, hx⟩ hy)
        rw [leavesWithin_succ hf, leavesWithin_succ (hroot.trans hf), Outcome.mapM_congr helem]

/-- A sequence of tokens that are no sequences has these for its leaves. -/
theorem leavesWithin_flat (hf : f h = .ok (some es)) (hes : ∀ x ∈ es, f x = .ok none)
    (depth : Nat) : f.leavesWithin (depth + 1) h = .ok es := by
  have hleaf : es.mapM (f.leavesWithin depth) = .ok (es.map fun x => [x]) := by
    refine Outcome.mapM_eq_ok_iff.mpr (List.forall₂_map_right_iff.mpr ?_)
    exact List.forall₂_same.mpr fun x hx => leavesWithin_leaf (hes x hx) depth
  rw [leavesWithin_succ hf, hleaf, Except.map, ← List.flatMap_def, List.flatMap_singleton']

end Links

namespace Cells

/-- The tree below `h` is all there and ends everywhere. -/
structure Entire (cs : Cells) (h : Handle) : Prop where
  found : ∀ x, cs.links.Reaches h x → x.index < cs.length
  acyclic : cs.links.AcyclicFrom h

variable {cs : Cells} {h s x y : Handle} {es more : List Handle}

theorem Entire.of_reaches (hh : cs.Entire h) (hx : cs.links.Reaches h x) : cs.Entire x :=
  ⟨fun y hy => hh.found y (hx.trans hy), hh.acyclic.of_reaches hx⟩

theorem links_error {e : Failure} (he : cs.links x = .error e) : e = .missing .tokens := by
  cases hx : cs[x.index]? <;> simp_all [links, find]

/-- Such a tree has leaves, and as many levels as there are cells are enough to find them. -/
theorem Entire.exists_leaves (hh : cs.Entire h) :
    ∃ ls, cs.links.leavesWithin cs.length h = .ok ls := by
  cases hls : cs.links.leavesWithin cs.length h with
  | ok ls => exact ⟨ls, rfl⟩
  | error e =>
    exfalso
    have hne : ∀ x, cs.links x ≠ .error .endless := by
      intro x hx
      cases links_error hx
    have he : e ≠ .endless := by
      rintro rfl
      exact hh.acyclic.leavesWithin_ne_endless (fun s es => index_lt_of_links) hne hls
    obtain ⟨x, hreach, hx⟩ := Links.exists_of_leavesWithin_error hls he
    obtain ⟨c, hc⟩ := exists_find (hh.found x hreach)
    simp [links, hc] at hx

/-! ## More elements of one sequence -/

theorem links_put_seq (hs : s.index < cs.length) (es : List Handle) :
    (cs.put s (.seq es)).links s = .ok (some es) := by
  rw [links_eq_seq_iff, put, List.getElem?_set_self hs]

theorem links_put_of_ne (hx : x ≠ s) (c : Cell) : (cs.put s c).links x = cs.links x := by
  simp [links, find, getElem?_put_of_ne (Ne.symm hx)]

section growth

variable (hes : cs[s.index]? = some (.seq es))
include hes

/-- What can be reached from a sequence that has grown could be reached from it before, or from one
of its new elements. -/
theorem reaches_put (hx : (cs.put s (.seq (es ++ more))).links.Reaches s x) :
    cs.links.Reaches s x ∨ ∃ y ∈ more, cs.links.Reaches y x := by
  rcases Relation.reflTransGen_iff_eq_or_transGen.mp hx with rfl | hx
  · exact .inl (.refl _)
  · rcases Links.transGen_of_more (fun _ _ => (holds_put_iff hes).mp) hx with hx | ⟨-, hx⟩
    · exact .inl hx.to_reflTransGen
    · exact .inr hx

/-- A sequence that takes up entire trees in which it does not occur stays entire. -/
theorem Entire.put (hs : cs.Entire s) (hmore : ∀ y ∈ more, cs.Entire y)
    (hback : ∀ y ∈ more, ¬ cs.links.Reaches y s) : (cs.put s (.seq (es ++ more))).Entire s := by
  constructor
  · intro x hx
    rw [Cells.put, List.length_set]
    rcases reaches_put hes hx with hx | ⟨y, hy, hx⟩
    · exact hs.found x hx
    · exact (hmore y hy).found x hx
  · intro t ht hcycle
    rcases Links.transGen_of_more (fun _ _ => (holds_put_iff hes).mp) hcycle with
      hcycle | ⟨hts, y, hy, hyt⟩
    · rcases reaches_put hes ht with ht | ⟨y, hy, ht⟩
      · exact hs.acyclic t ht hcycle
      · exact (hmore y hy).acyclic t ht hcycle
    · exact hback y hy (hyt.trans hts)

/-- A token from which the sequence cannot be reached keeps its leaves. -/
theorem leaves_put_of_not_reaches (hx : ¬ cs.links.Reaches x s) (depth : Nat) :
    (cs.put s (.seq (es ++ more))).links.leaves depth x = cs.links.leaves depth x := by
  have hagree : ∀ y, cs.links.Reaches x y →
      (cs.put s (.seq (es ++ more))).links y = cs.links y :=
    fun y hy => links_put_of_ne (by rintro rfl; exact hx hy) _
  rw [Links.leaves, Links.leaves, Links.leavesWithin_congr hagree]

/-- The leaves of a sequence that has grown: those that it had, and those of its new elements. -/
theorem leaves_put (hs : cs.Entire s) (hmore : ∀ y ∈ more, cs.Entire y)
    (hback : ∀ y ∈ more, ¬ cs.links.Reaches y s) :
    (cs.put s (.seq (es ++ more))).links.leavesWithin cs.length s =
      .ok (cs.links.leaves cs.length s ++ more.flatMap (cs.links.leaves cs.length)) := by
  have hold : ∀ y ∈ es, ¬ cs.links.Reaches y s := by
    intro y hy hys
    exact hs.acyclic s (.refl s) (.head' (holds_iff.mpr ⟨es, hes, hy⟩) hys)
  have hlength : (cs.put s (.seq (es ++ more))).length = cs.length := List.length_set
  obtain ⟨old, hfound⟩ := hs.exists_leaves
  obtain ⟨ls, hls⟩ := (Entire.put hes hs hmore hback).exists_leaves
  rw [hlength] at hls
  rw [hls, ← Links.leaves_eq hls, Links.leaves_seq hls (links_put_seq (hs.found s (.refl s)) _),
    List.flatMap_append, Links.leaves_seq hfound (links_eq_seq_iff.mpr hes)]
  congr 2
  · exact List.flatMap_congr fun y hy => leaves_put_of_not_reaches hes (hold y hy) _
  · exact List.flatMap_congr fun y hy => leaves_put_of_not_reaches hes (hback y hy) _

end growth

end Cells

/-- Elements with room for just as many. -/
def Elements.tight (hs : List Handle) : Elements := (withCapacity hs.length).append hs

@[simp] theorem Elements.toList_tight (hs : List Handle) : (tight hs).toList = hs := by
  simp [tight]

namespace Arena

/-- The tree below `h` is all there and ends everywhere. -/
structure Entire (a : Arena) (h : Handle) : Prop where
  issued : ∀ x, a.links.Reaches h x → x ∈ a.handles
  acyclic : a.links.AcyclicFrom h

/-- The elements of the sequence that a flattening adds, as the sequence is read afterwards. -/
def flattened (a : Arena) (h : Handle) : Except Failure (List Handle) :=
  match a.flatten h with
  | (.ok flat, b) => (·.toList) <$> b.elementsOf flat
  | (.error e, _) => .error e

variable {a b : Arena} {h s x : Handle} {es more : List Handle}

theorem links_of_elementsOf {e : Elements} (he : a.elementsOf h = .ok e) :
    a.links h = .ok (some e.toList) := by
  obtain ⟨id, hid, he⟩ := Outcome.bind_eq_ok_iff.mp he
  exact links_of_sequence (listOf_eq_ok_iff.mp hid) he

theorem elementsOf_addList (a : Arena) (e : Elements) :
    (a.addList e).2.elementsOf ⟨a.size⟩ = .ok e := by
  have htoken : (a.addList e).2.token ⟨a.size⟩ = .ok (.sequence ⟨a.lists.size⟩) :=
    token_eq_ok_iff.mpr Array.getElem?_push_size
  have hlist : (a.addList e).2.list ⟨a.lists.size⟩ = .ok e :=
    list_eq_ok_iff.mpr Array.getElem?_push_size
  rw [elementsOf, listOf_eq_ok_iff.mpr htoken, Outcome.ok_bind, hlist]

/-- A flattening that succeeds adds the leaves that a search finds. -/
theorem flatten_cases (a : Arena) (h : Handle) :
    (∃ ls, a.links.leavesWithin a.size h = .ok ls ∧
      a.flatten h = (.ok ⟨a.size⟩, (a.addList (.tight ls)).2)) ∨
    ∃ e, a.links.leavesWithin a.size h = .error e ∧ a.flatten h = (.error e, a) := by
  cases hls : a.links.leavesWithin a.size h with
  | ok ls =>
    exact .inl ⟨ls, rfl, by simp [flatten, leaves_eq, hls, Except.map, addList_eq, Elements.tight]⟩
  | error e => exact .inr ⟨e, rfl, by simp [flatten, leaves_eq, hls, Except.map]⟩

theorem flattened_eq (a : Arena) (h : Handle) :
    a.flattened h = a.links.leavesWithin a.size h := by
  rcases a.flatten_cases h with ⟨ls, hls, hflat⟩ | ⟨e, he, hflat⟩
  · simp [flattened, hflat, elementsOf_addList, hls]
  · simp [flattened, hflat, he]

theorem token_addList (e : Elements) (hx : x ∈ a.handles) :
    (a.addList e).2.token x = a.token x := by
  have hlt : x.index < a.tokens.size := mem_handles.mp hx
  rw [addList_eq, token, token, Array.getElem?_push_lt hlt, Array.getElem?_eq_getElem hlt]

/-- A token that is no sequence stays none when another is added. -/
theorem links_addList (e : Elements) (hx : a.links x = .ok none) :
    (a.addList e).2.links x = .ok none := by
  obtain ⟨t, ht, hlist⟩ := links_eq_none_iff.mp hx
  have htoken := token_addList e (mem_handles_of_links hx)
  exact links_eq_none_iff.mpr ⟨t, htoken.trans ht, hlist⟩

theorem size_addList (a : Arena) (e : Elements) : (a.addList e).2.size = a.size + 1 := by
  simp [addList_eq, size]

/-- An added sequence of tokens that are no sequences has these for its leaves. -/
theorem leavesWithin_addList {e : Elements} (he : ∀ x ∈ e.toList, a.links x = .ok none) :
    (a.addList e).2.links.leavesWithin (a.addList e).2.size ⟨a.size⟩ = .ok e.toList := by
  rw [size_addList]
  refine Links.leavesWithin_flat (links_of_elementsOf (elementsOf_addList a e)) ?_ a.size
  exact fun x hx => links_addList e (he x hx)

namespace Layout

theorem entire_cells (ha : a.Layout) (hh : a.Entire h) : a.cells.Entire h := by
  refine ⟨ha.found_of_issued hh.issued, ?_⟩
  rw [ha.links_cells]
  exact hh.acyclic

theorem flattened_cells (ha : a.Layout) (h : Handle) :
    a.flattened h = a.cells.links.leavesWithin a.cells.length h := by
  rw [flattened_eq, ha.links_cells, length_cells]

theorem cells_of_elementsOf (ha : a.Layout) {e : Elements} (he : a.elementsOf h = .ok e) :
    a.cells[h.index]? = some (.seq e.toList) := by
  rw [← Cells.links_eq_seq_iff, ha.links_cells, links_of_elementsOf he]

theorem exists_of_seen (ha : a.Layout) {α : Type} {x : α} {r : Except Failure α × Arena}
    {cs : Cells} (hr : Moves a r.2) (hseen : seen r = (.ok x, cs)) :
    ∃ b, r = (.ok x, b) ∧ b.Layout ∧ b.cells = cs := by
  have hok : r.1 = .ok x := congrArg Prod.fst hseen
  exact ⟨r.2, Prod.ext hok rfl, hr.preserve Move.layout ha, congrArg Prod.snd hseen⟩

/-- What appending does to the cells, if both are sequences. -/
theorem append_ok (ha : a.Layout) {dst src : Handle} {d e : Elements}
    (hd : a.elementsOf dst = .ok d) (he : a.elementsOf src = .ok e) :
    ∃ b, a.append dst src = (.ok (), b) ∧ b.Layout ∧
      b.cells = a.cells.put dst (.seq (d.toList ++ e.toList)) := by
  have hseen := ha.seen_append dst src
  simp only [Cells.append, Cells.elementsOf_eq_ok_iff.mpr (ha.cells_of_elementsOf hd),
    Cells.elementsOf_eq_ok_iff.mpr (ha.cells_of_elementsOf he)] at hseen
  exact ha.exists_of_seen (a.append_moves dst src) hseen

/-- What pushing does to the cells, if it is onto a sequence. -/
theorem push_ok (ha : a.Layout) {seq : Handle} {e : Elements} (he : a.elementsOf seq = .ok e)
    (value : Handle) :
    ∃ b, a.push seq value = (.ok (), b) ∧ b.Layout ∧
      b.cells = a.cells.put seq (.seq (e.toList ++ [value])) := by
  have hseen := ha.seen_push seq value
  simp only [Cells.push, Cells.elementsOf_eq_ok_iff.mpr (ha.cells_of_elementsOf he)] at hseen
  exact ha.exists_of_seen (a.push_moves seq value) hseen

/-- An entire tree is flattened to the leaves that a search finds. -/
theorem flattened_of_entire (ha : a.Layout) (hh : a.Entire h) :
    a.flattened h = .ok (a.links.leaves a.size h) := by
  obtain ⟨ls, hls⟩ := (ha.entire_cells hh).exists_leaves
  rw [← ha.flattened_cells] at hls
  rw [hls, Links.leaves_eq (a.flattened_eq h ▸ hls)]

theorem flattened_put (ha : a.Layout) (hb : b.Layout) (hes : a.cells[s.index]? = some (.seq es))
    (hcells : b.cells = a.cells.put s (.seq (es ++ more))) (hs : a.Entire s)
    (hmore : ∀ y ∈ more, a.Entire y) (hback : ∀ y ∈ more, ¬ a.links.Reaches y s) :
    b.flattened s =
      .ok (a.links.leaves a.size s ++ more.flatMap (a.links.leaves a.size)) := by
  have hlength : b.cells.length = a.cells.length := by rw [hcells, Cells.put, List.length_set]
  rw [← ha.links_cells] at hback
  rw [hb.flattened_cells, hlength, hcells, Cells.leaves_put hes (ha.entire_cells hs)
    (fun y hy => ha.entire_cells (hmore y hy)) hback, ha.links_cells, length_cells]

end Layout

theorem Entire.of_reaches (hh : a.Entire h) (hx : a.links.Reaches h x) : a.Entire x :=
  ⟨fun y hy => hh.issued y (hx.trans hy), hh.acyclic.of_reaches hx⟩

/-- A flattened token is flat, and is flattened to the same elements again. -/
theorem flatten_again {flat : Handle} (hflat : a.flatten h = (.ok flat, b)) :
    ∃ e again c, b.elementsOf flat = .ok e ∧ b.flatten flat = (.ok again, c) ∧
      again ∉ b.handles ∧ c.elementsOf again = .ok e := by
  rcases a.flatten_cases h with ⟨ls, hls, hok⟩ | ⟨e, -, herror⟩
  · cases hflat.symm.trans hok
    have hleaves : ∀ x ∈ (Elements.tight ls).toList, a.links x = .ok none := by
      rw [Elements.toList_tight]
      exact fun x => Links.links_of_mem_leavesWithin hls
    have hagain := leavesWithin_addList hleaves
    rw [Elements.toList_tight] at hagain
    rcases flatten_cases _ ⟨a.size⟩ with ⟨ls', hls', hok'⟩ | ⟨e, herror, -⟩
    · cases hagain.symm.trans hls'
      exact ⟨_, _, _, elementsOf_addList a _, hok', by simp [mem_handles], elementsOf_addList _ _⟩
    · cases hagain.symm.trans herror
  · cases hflat.symm.trans herror

/-- A sequence that another is appended to has its own leaves and then those of the other, if it
cannot be reached from any element of the other. In the same way it takes up the leaves of one more
element. What was flattened is flattened to the same elements again, in a new sequence. -/
theorem flattened_growth (ha : a.Built) :
    (∀ dst src d e, a.elementsOf dst = .ok d → a.elementsOf src = .ok e →
      a.Entire dst → a.Entire src → (∀ x ∈ e.toList, ¬ a.links.Reaches x dst) →
      ∃ b ls ms, a.append dst src = (.ok (), b) ∧ a.flattened dst = .ok ls ∧
        a.flattened src = .ok ms ∧ b.flattened dst = .ok (ls ++ ms)) ∧
    (∀ dst v d, a.elementsOf dst = .ok d → a.Entire dst → a.Entire v → ¬ a.links.Reaches v dst →
      ∃ b ls ms, a.push dst v = (.ok (), b) ∧ a.flattened dst = .ok ls ∧
        a.flattened v = .ok ms ∧ b.flattened dst = .ok (ls ++ ms)) ∧
    ∀ h flat b, a.flatten h = (.ok flat, b) →
      ∃ e again c, b.elementsOf flat = .ok e ∧ b.flatten flat = (.ok again, c) ∧
        again ∉ b.handles ∧ c.elementsOf again = .ok e := by
  have hlayout := ha.layout
  refine ⟨?_, ?_, fun h flat b => flatten_again⟩
  · intro dst src d e hd he hdst hsrc hback
    obtain ⟨b, happend, hb, hcells⟩ := hlayout.append_ok hd he
    have hseq := links_of_elementsOf he
    have hmore : ∀ y ∈ e.toList, a.Entire y :=
      fun y hy => hsrc.of_reaches (.head ⟨_, hseq, hy⟩ (.refl y))
    have hms := hlayout.flattened_of_entire hsrc
    refine ⟨b, _, _, happend, hlayout.flattened_of_entire hdst, hms, ?_⟩
    rw [hlayout.flattened_put hb (hlayout.cells_of_elementsOf hd) hcells hdst hmore hback,
      Links.leaves_seq (a.flattened_eq src ▸ hms) hseq]
  · intro dst v d hd hdst hv hback
    obtain ⟨b, hpush, hb, hcells⟩ := hlayout.push_ok hd v
    refine ⟨b, _, _, hpush, hlayout.flattened_of_entire hdst, hlayout.flattened_of_entire hv, ?_⟩
    rw [hlayout.flattened_put hb (hlayout.cells_of_elementsOf hd) hcells hdst (by simpa using hv)
      (by simpa using hback), List.flatMap_singleton]

theorem index_le_of_sharing_reaches {h x : Handle} (hx : sharing.links.Reaches h x) :
    x.index ≤ h.index := by
  induction hx with
  | refl => exact le_refl _
  | tail _ hsx ih => exact (index_lt_of_sharing_holds _ _ hsx).1.le.trans ih

theorem entire_sharing {h : Handle} (hh : h ∈ sharing.handles) : sharing.Entire h := by
  constructor
  · intro x hx
    exact mem_handles.mpr ((index_le_of_sharing_reaches hx).trans_lt (mem_handles.mp hh))
  · exact Links.acyclicFrom_of_lt (fun s x hx => (index_lt_of_sharing_holds s x hx).1) h

theorem flattened_sharing :
    sharing.flattened ⟨3⟩ = .ok [⟨0⟩, ⟨0⟩, ⟨0⟩] ∧ sharing.flattened ⟨2⟩ = .ok [] ∧
      sharing.flattened ⟨1⟩ = .ok [⟨0⟩] := by
  have hzero (depth : Nat) : sharing.links.leavesWithin depth ⟨0⟩ = .ok [⟨0⟩] :=
    Links.leavesWithin_leaf rfl depth
  have hone (depth : Nat) : sharing.links.leavesWithin (depth + 1) ⟨1⟩ = .ok [⟨0⟩] :=
    Links.leavesWithin_flat rfl (fun x hx => by cases List.mem_singleton.mp hx; rfl) depth
  have htwo (depth : Nat) : sharing.links.leavesWithin (depth + 1) ⟨2⟩ = .ok [] :=
    Links.leavesWithin_flat rfl (fun x hx => by cases hx) depth
  have hthree : sharing.links.leavesWithin 4 ⟨3⟩ = .ok [⟨0⟩, ⟨0⟩, ⟨0⟩] := by
    have hlinks : sharing.links ⟨3⟩ = .ok (some [⟨1⟩, ⟨2⟩, ⟨0⟩, ⟨1⟩]) := rfl
    rw [Links.leavesWithin_succ hlinks]
    simp only [List.mapM_cons, List.mapM_nil, hzero, hone, htwo]
    rfl
  rw [flattened_eq, flattened_eq, flattened_eq]
  exact ⟨hthree, htwo 3, hone 3⟩

/-- The sequence of three leaves is doubled, the empty one takes up a leaf, and flattening is done
twice. -/
theorem flattened_growth_sharing :
    (∃ b, sharing.append ⟨3⟩ ⟨3⟩ = (.ok (), b) ∧
      b.flattened ⟨3⟩ = .ok [⟨0⟩, ⟨0⟩, ⟨0⟩, ⟨0⟩, ⟨0⟩, ⟨0⟩]) ∧
    (∃ b, sharing.push ⟨2⟩ ⟨1⟩ = (.ok (), b) ∧ b.flattened ⟨2⟩ = .ok [⟨0⟩]) ∧
    ∃ flat b e again c, sharing.flatten ⟨3⟩ = (.ok flat, b) ∧ b.elementsOf flat = .ok e ∧
      b.flatten flat = (.ok again, c) ∧ again ∉ b.handles ∧ c.elementsOf again = .ok e := by
  obtain ⟨happend, hpush, hflat⟩ := flattened_growth (a := sharing) (built_after _)
  obtain ⟨hthree, htwo, hone⟩ := flattened_sharing
  have hentire (n : Nat) (hn : n < 4) : sharing.Entire ⟨n⟩ := entire_sharing (mem_handles.mpr hn)
  refine ⟨?_, ?_, ?_⟩
  · obtain ⟨b, ls, ms, hb, hls, hms, hboth⟩ :=
      happend ⟨3⟩ ⟨3⟩ _ _ rfl rfl (hentire 3 (by decide)) (hentire 3 (by decide)) (by
        intro x hx hreach
        exact (hentire 3 (by decide)).acyclic ⟨3⟩ (.refl _) (.head' ⟨_, rfl, hx⟩ hreach))
    cases hls.symm.trans hthree
    cases hms.symm.trans hthree
    exact ⟨b, hb, hboth⟩
  · obtain ⟨b, ls, ms, hb, hls, hms, hboth⟩ :=
      hpush ⟨2⟩ ⟨1⟩ _ rfl (hentire 2 (by decide)) (hentire 1 (by decide)) (by
        intro hreach
        have := index_le_of_sharing_reaches hreach
        exact absurd this (by decide))
    cases hls.symm.trans htwo
    cases hms.symm.trans hone
    exact ⟨b, hb, hboth⟩
  · rcases sharing.flatten_cases ⟨3⟩ with ⟨ls, -, hok⟩ | ⟨e, he, -⟩
    · obtain ⟨e, again, c, h⟩ := hflat ⟨3⟩ _ _ hok
      exact ⟨_, _, e, again, c, hok, h⟩
    · rw [← flattened_eq, hthree] at he
      cases he

end Arena

end TokenStore
