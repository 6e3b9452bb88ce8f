import TokenStore.Proofs.Layout
import TokenStore.Proofs.Links

/-!
# Flattening

What flattening makes of a token: its leaves, where a token that is no sequence is its own only
leaf, and the leaves of a sequence are those of its elements in order.
-/

namespace TokenStore

namespace Arena

theorem leaves_eq (a : Arena) (h : Handle) :
    a.leaves h = (a.links.leavesWithin a.size h).map List.toArray := by
  rw [leaves, Sweep.start, Sweep.run_eq]
  cases hd : a.links.leavesWithin a.size h <;> simp [hd, Except.map]

section links

variable {a : Arena} {h : Handle}

theorem links_of_sequence {id : ListId} {e : Elements} (ht : a.token h = .ok (.sequence id))
    (he : a.list id = .ok e) : a.links h = .ok (some e.toList) := by
  simp [links, ht, Token.list?, he]

theorem links_of_other {t : Token} (ht : a.token h = .ok t) (hl : t.list? = none) :
    a.links h = .ok none := by
  simp [links, ht, hl]

theorem links_eq_none_iff : a.links h = .ok none ↔ ∃ t, a.token h = .ok t ∧ t.list? = none := by
  refine ⟨fun hh => ?_, fun ⟨t, ht, hl⟩ => links_of_other ht hl⟩
  obtain ⟨t, ht, hlist⟩ := Outcome.bind_eq_ok_iff.mp hh
  refine ⟨t, ht, ?_⟩
  cases hl : t.list? with
  | none => rfl
  | some id => cases he : a.list id <;> simp [hl, he] at hlist

theorem links_eq_some_iff {es : List Handle} :
    a.links h = .ok (some es) ↔
      ∃ id e, a.token h = .ok (.sequence id) ∧ a.list id = .ok e ∧ e.toList = es := by
  constructor
  · intro hh
    obtain ⟨t, ht, hlist⟩ := Outcome.bind_eq_ok_iff.mp hh
    cases t with
    | sequence id =>
      obtain ⟨e, he, hes⟩ := Outcome.bind_eq_ok_iff.mp hlist
      cases hes
      exact ⟨id, e, ht, he, rfl⟩
    | _ => cases hlist
  · rintro ⟨id, e, ht, he, rfl⟩
    exact links_of_sequence ht he

theorem token_eq_error (hh : h ∉ a.handles) : a.token h = .error (.missing .tokens) := by
  rw [mem_handles, size, Nat.not_lt] at hh
  simp [token, Array.getElem?_eq_none hh]

theorem links_eq_error (hh : h ∉ a.handles) : a.links h = .error (.missing .tokens) := by
  simp [links, token_eq_error hh]

theorem exists_token (hh : h ∈ a.handles) : ∃ t, a.token h = .ok t := by
  rw [mem_handles] at hh
  exact ⟨_, token_eq_ok_iff.mpr (Array.getElem?_eq_getElem hh)⟩

theorem Layout.exists_list (ha : a.Layout) {id : ListId} (ht : a.token h = .ok (.sequence id)) :
    ∃ e, a.list id = .ok e :=
  ⟨_, list_eq_ok_iff.mpr (Array.getElem?_eq_getElem (ha.list_lt ht))⟩

/-- In a laid out arena nothing but the handle itself can be missing. -/
theorem Layout.exists_links (ha : a.Layout) (hh : h ∈ a.handles) : ∃ o, a.links h = .ok o := by
  obtain ⟨t, ht⟩ := exists_token hh
  cases t with
  | sequence id =>
    obtain ⟨e, he⟩ := ha.exists_list ht
    exact ⟨_, links_of_sequence ht he⟩
  | _ => exact ⟨none, links_of_other ht rfl⟩

theorem Layout.links_error (ha : a.Layout) {e : Failure} (he : a.links h = .error e) :
    e = .missing .tokens := by
  by_cases hh : h ∈ a.handles
  · obtain ⟨o, ho⟩ := ha.exists_links hh
    cases ho.symm.trans he
  · rw [links_eq_error hh] at he
    cases he
    rfl

theorem mem_handles_of_links {o : Option (List Handle)} (ho : a.links h = .ok o) :
    h ∈ a.handles := by
  by_contra hh
  cases (links_eq_error hh).symm.trans ho

end links

/-- Without a cycle below it, a token is flattened to its leaves, into a sequence of its own that
is added to the arena as it was. With a handle below it that was never issued, the arena stays. -/
theorem flatten_leaves {a : Arena} (ha : a.Built) {h : Handle} (hc : a.links.AcyclicFrom h) :
    ((∀ x, a.links.Reaches h x → x ∈ a.handles) →
      ∃ leaves : Handle → List Handle,
        a.links.LeafRule h leaves ∧
        (∀ others, a.links.LeafRule h others → others h = leaves h) ∧
        ⟨a.size⟩ ∉ a.handles ∧
        a.flatten h = (.ok ⟨a.size⟩,
          { a with
            tokens := a.tokens.push (.sequence ⟨a.lists.size⟩)
            lists := a.lists.push
              ((Elements.withCapacity (leaves h).length).append (leaves h)) })) ∧
    ((∃ x, a.links.Reaches h x ∧ x ∉ a.handles) →
      a.flatten h = (.error (.missing .tokens), a)) := by
  have hlayout := ha.layout
  have hne : ∀ x, a.links x ≠ .error .endless := by
    intro x hx
    cases hlayout.links_error hx
  have hlt : ∀ s es, a.links s = .ok (some es) → s.index < a.size :=
    fun s es hs => mem_handles.mp (mem_handles_of_links hs)
  -- levels as many as tokens are enough everywhere below `h`
  have hends : ∀ x, a.links.Reaches h x → a.links.leavesWithin a.size x ≠ .error .endless :=
    fun x hx => (hc.of_reaches hx).leavesWithin_ne_endless hlt hne
  constructor
  · intro hissued
    have hfound : ∀ x, a.links.Reaches h x → ∃ ls, a.links.leavesWithin a.size x = .ok ls := by
      intro x hx
      cases hd : a.links.leavesWithin a.size x with
      | ok ls => exact ⟨ls, rfl⟩
      | error e =>
        have he : e ≠ .endless := fun he => hends x hx (he ▸ hd)
        obtain ⟨y, hy, hfy⟩ := Links.exists_of_leavesWithin_error hd he
        obtain ⟨o, ho⟩ := hlayout.exists_links (hissued y (hx.trans hy))
        cases ho.symm.trans hfy
    obtain ⟨found, hd⟩ := hfound h (.refl h)
    have hleaves := Links.leaves_eq hd
    refine ⟨a.links.leaves a.size, fun x hx => ?_, fun others hrule => ?_,
      by simp [mem_handles], ?_⟩
    · obtain ⟨ls, hls⟩ := hfound x hx
      obtain ⟨o, ho⟩ := hlayout.exists_links (hissued x hx)
      rw [ho]
      cases o with
      | none => exact Links.leaves_leaf ho a.size
      | some es => exact Links.leaves_seq hls ho
    · rw [hleaves, hrule.eq hd]
    · simp [flatten, leaves_eq, hleaves, hd, Except.map, addList_eq]
  · rintro ⟨x, hx, hmissing⟩
    cases hd : a.links.leavesWithin a.size h with
    | ok ls =>
      obtain ⟨o, ho⟩ := Links.exists_of_leavesWithin_ok hd hx
      exact absurd (mem_handles_of_links ho) hmissing
    | error e =>
      have he : e ≠ .endless := fun he => hends h (.refl h) (he ▸ hd)
      obtain ⟨y, -, hfy⟩ := Links.exists_of_leavesWithin_error hd he
      obtain rfl := hlayout.links_error hfy
      simp [flatten, leaves_eq, hd, Except.map]

/-- A sequence of a sequence, an empty sequence, a number, and the first sequence again, which has
the number for its only element. -/
def sharing : Arena :=
  empty.after [.change (.addUint 7), .change .addSeq, .change (.push ⟨1⟩ ⟨0⟩), .change .addSeq,
    .change .addSeq, .change (.push ⟨3⟩ ⟨1⟩), .change (.push ⟨3⟩ ⟨2⟩), .change (.push ⟨3⟩ ⟨0⟩),
    .change (.push ⟨3⟩ ⟨1⟩)]

theorem index_lt_of_sharing_holds (s x : Handle) (h : sharing.links.Holds s x) :
    x.index < s.index ∧ s.index < 4 := by
  obtain ⟨es, hes, hx⟩ := h
  have hs : s.index < 4 := mem_handles.mp (mem_handles_of_links hes)
  refine ⟨?_, hs⟩
  match s, hs, hes with
  | ⟨0⟩, _, hes => cases hes
  | ⟨1⟩, _, hes =>
    cases hes
    obtain rfl : x = ⟨0⟩ := List.mem_singleton.mp hx
    decide
  | ⟨2⟩, _, hes =>
    cases hes
    cases hx
  | ⟨3⟩, _, hes =>
    cases hes
    have hall : ∀ y ∈ [(⟨1⟩ : Handle), ⟨2⟩, ⟨0⟩, ⟨1⟩], y.index < 3 := by decide
    exact hall x hx

theorem flatten_leaves_sharing :
    sharing.Built ∧ sharing.links.AcyclicFrom ⟨3⟩ ∧
      (sharing.flatten ⟨3⟩).1 = .ok ⟨4⟩ ∧
      (sharing.flatten ⟨3⟩).2.links ⟨4⟩ = .ok (some [⟨0⟩, ⟨0⟩, ⟨0⟩]) := by
  have hbuilt : sharing.Built := built_after _
  have hcycle := Links.acyclicFrom_of_lt (fun s x hx => (index_lt_of_sharing_holds s x hx).1) ⟨3⟩
  obtain ⟨leaves, hrule, -, -, hflat⟩ := (flatten_leaves hbuilt hcycle).1 (by
    intro x hx
    rcases hx.cases_tail with rfl | ⟨s, -, hsx⟩
    · exact mem_handles.mpr (by decide)
    · have := index_lt_of_sharing_holds s x hsx
      exact mem_handles.mpr (show x.index < 4 by omega))
  have h3 : leaves ⟨3⟩ = [⟨1⟩, ⟨2⟩, ⟨0⟩, ⟨1⟩].flatMap leaves := hrule ⟨3⟩ (.refl _)
  have hstep : ∀ x ∈ [⟨1⟩, ⟨2⟩, ⟨0⟩, ⟨1⟩], sharing.links.Reaches ⟨3⟩ x := fun x hx =>
    .head ⟨_, rfl, hx⟩ (.refl x)
  have h1 : leaves ⟨1⟩ = [⟨0⟩].flatMap leaves := hrule ⟨1⟩ (hstep _ (by simp))
  have h2 : leaves ⟨2⟩ = [].flatMap leaves := hrule ⟨2⟩ (hstep _ (by simp))
  have h0 : leaves ⟨0⟩ = [⟨0⟩] := hrule ⟨0⟩ (hstep _ (by simp))
  have hall : leaves ⟨3⟩ = [⟨0⟩, ⟨0⟩, ⟨0⟩] := by simp [h3, h1, h2, h0]
  rw [hall] at hflat
  rw [hflat]
  exact ⟨hbuilt, hcycle, rfl, rfl⟩

end Arena

end TokenStore
