import TokenStore.Parse
import TokenStore.Proofs.Growth

/-!
# How cycles arise

A cycle arises only when a sequence gets an element from which it can be reached, by `push` or by
`append`. All other operations leave an arena without cycles as it is in this, although an element
may be a handle that is not issued yet and so comes to name whatever token is added next.

## Main definitions

* `Links.Acyclic`: no sequence contains itself, directly or through others.
* `Op.Closes`: the operations that close a cycle.
-/

namespace TokenStore

namespace Links

/-- No sequence contains itself, directly or through others. -/
def Acyclic (f : Links) : Prop := ∀ s, ¬ Relation.TransGen f.Holds s s

variable {f g : Links} {s : Handle} {more : List Handle}

/-! ## More elements -/

/-- Where `s` has more elements, a chain is an old one, or it comes down to `s` and goes on from one
of those elements. -/
theorem transGen_of_more (hg : ∀ t x, g.Holds t x → f.Holds t x ∨ (t = s ∧ x ∈ more))
    {t x : Handle} (h : Relation.TransGen g.Holds t x) :
    Relation.TransGen f.Holds t x ∨ (f.Reaches t s ∧ ∃ y ∈ more, f.Reaches y x) := by
  induction h with
  | single hx =>
    rcases hg _ _ hx with hx | ⟨rfl, hx⟩
    · exact .inl (.single hx)
    · exact .inr ⟨.refl _, _, hx, .refl _⟩
  | tail _ hx ih =>
    rcases hg _ _ hx with hx | ⟨rfl, hx⟩
    · rcases ih with ih | ⟨ht, y, hy, ih⟩
      · exact .inl (ih.tail hx)
      · exact .inr ⟨ht, y, hy, ih.tail hx⟩
    · rcases ih with ih | ⟨ht, -⟩
      · exact .inr ⟨ih.to_reflTransGen, _, hx, .refl _⟩
      · exact .inr ⟨ht, _, hx, .refl _⟩

/-- More elements of `s` close a cycle exactly if `s` can be reached from one of them. -/
theorem not_acyclic_iff_of_more (hf : f.Acyclic)
    (hg : ∀ t x, g.Holds t x ↔ f.Holds t x ∨ (t = s ∧ x ∈ more)) :
    ¬ g.Acyclic ↔ ∃ y ∈ more, f.Reaches y s := by
  constructor
  · intro hcycle
    obtain ⟨t, ht⟩ := not_forall_not.mp hcycle
    rcases transGen_of_more (fun t x => (hg t x).mp) ht with ht | ⟨hts, y, hy, hyt⟩
    · exact absurd ht (hf t)
    · exact ⟨y, hy, hyt.trans hts⟩
  · rintro ⟨y, hy, hys⟩ hacyclic
    have hback : g.Reaches y s :=
      Relation.ReflTransGen.mono (fun t x hx => (hg t x).mpr (.inl hx)) _ _ hys
    exact hacyclic s (.head' ((hg s y).mpr (.inr ⟨rfl, hy⟩)) hback)

/-! ## More sequences -/

/-- Where sequences are added behind `n` tokens, and each of them holds later tokens or tokens that
hold nothing, no chain from one of them leads back. -/
theorem transGen_of_behind {n : Nat} (hf : ∀ t x, f.Holds t x → t.index < n)
    (hg : ∀ t x, g.Holds t x →
      f.Holds t x ∨ (n ≤ t.index ∧ (t.index < x.index ∨ ∀ y, ¬ g.Holds x y)))
    {t x : Handle} (h : Relation.TransGen g.Holds t x) :
    Relation.TransGen f.Holds t x ∨ (n ≤ x.index ∧ (n ≤ t.index → t.index < x.index)) ∨
      ∀ y, ¬ g.Holds x y := by
  induction h with
  | single hx =>
    rcases hg _ _ hx with hx | ⟨hn, hlt | hdead⟩
    · exact .inl (.single hx)
    · exact .inr (.inl ⟨by omega, fun _ => hlt⟩)
    · exact .inr (.inr hdead)
  | @tail y x hy hx ih =>
    rcases ih with ih | ⟨hle, hup⟩ | hdead
    · obtain ⟨z, hz, -⟩ := Relation.TransGen.head'_iff.mp ih
      have ht := hf _ _ hz
      rcases hg _ _ hx with hx | ⟨hn, hlt | hdead⟩
      · exact .inl (ih.tail hx)
      · exact .inr (.inl (by omega))
      · exact .inr (.inr hdead)
    · rcases hg _ _ hx with hx | ⟨hn, hlt | hdead⟩
      · have := hf _ _ hx
        omega
      · exact .inr (.inl (by omega))
      · exact .inr (.inr hdead)
    · exact absurd hx (hdead x)

theorem Acyclic.of_behind (hacyclic : f.Acyclic) {n : Nat} (hf : ∀ t x, f.Holds t x → t.index < n)
    (hg : ∀ t x, g.Holds t x →
      f.Holds t x ∨ (n ≤ t.index ∧ (t.index < x.index ∨ ∀ y, ¬ g.Holds x y))) : g.Acyclic := by
  intro t ht
  rcases transGen_of_behind hf hg ht with hold | ⟨hle, hup⟩ | hdead
  · exact hacyclic t hold
  · exact absurd (hup hle) (Nat.lt_irrefl _)
  · obtain ⟨x, hx, -⟩ := Relation.TransGen.head'_iff.mp ht
    exact hdead x hx

end Links

namespace Cells

variable {cs cs' : Cells} {u : Update}

theorem index_lt_of_holds {s x : Handle} (h : cs.links.Holds s x) : s.index < cs.length := by
  obtain ⟨es, hes, -⟩ := h
  exact index_lt_of_links hes

theorem acyclic_nil : Links.Acyclic (links []) := by
  intro s hs
  obtain ⟨x, hx, -⟩ := Relation.TransGen.head'_iff.mp hs
  exact absurd (index_lt_of_holds hx) (Nat.not_lt_zero _)

/-- A token that is no sequence holds nothing, also when cells are added. -/
theorem not_holds_of_links {xs : List Cell} {s : Handle} (hs : cs.links s = .ok none) (x : Handle) :
    ¬ Links.Holds (links (cs ++ xs)) s x := by
  obtain ⟨y, hy, hnone⟩ := Outcome.bind_eq_ok_iff.mp hs
  rw [find_eq_ok_iff] at hy
  intro hx
  obtain ⟨es, hes, -⟩ := holds_iff.mp hx
  rw [List.getElem?_append_left (List.getElem?_eq_some_iff.mp hy).1, hy] at hes
  cases hes
  cases hnone

theorem acyclic_append {xs : List Cell}
    (hxs : ∀ k es, xs[k]? = some (.seq es) → ∀ y ∈ es,
      (cs.length + k < y.index ∧ y.index < cs.length + xs.length) ∨ cs.links y = .ok none)
    (hacyclic : cs.links.Acyclic) : Links.Acyclic (links (cs ++ xs)) := by
  refine hacyclic.of_behind (n := cs.length) (fun t x => index_lt_of_holds) fun t x hx => ?_
  rcases holds_append_iff.mp hx with hx | ⟨k, es, hk, hes, hmem⟩
  · exact .inl hx
  · rcases hxs k es hes x hmem with hlt | hnone
    · exact .inr ⟨by omega, .inl (by omega)⟩
    · exact .inr ⟨by omega, .inr (not_holds_of_links hnone)⟩

end Cells

/-! ## Operations that close a cycle -/

/-- The operation is to give a sequence an element from which the sequence can be reached. -/
def Op.Closes (f : Links) : Op → Prop
  | .change (.push seq value) => f.Reaches value seq
  | .change (.append dst src) => ∃ x, f.Holds src x ∧ f.Reaches x dst
  | _ => False

namespace Cells

variable {cs cs' : Cells} {u : Update}

theorem not_acyclic_put_iff {s : Handle} {es more : List Handle}
    (hes : cs[s.index]? = some (.seq es)) (hacyclic : cs.links.Acyclic) :
    ¬ (cs.put s (.seq (es ++ more))).links.Acyclic ↔ ∃ y ∈ more, cs.links.Reaches y s :=
  Links.not_acyclic_iff_of_more hacyclic fun _ _ => holds_put_iff hes

/-- One step: nothing that an operation can do to elements closes a cycle, unless it is to. -/
theorem Grown.acyclic (h : cs.Grown u cs') (hu : ¬ (Op.change u).Closes cs.links)
    (hacyclic : cs.links.Acyclic) : cs'.links.Acyclic := by
  cases h with
  | cleared => exact acyclic_nil
  | kept hlength hlinks => rwa [hlinks]
  | added hxs => exact acyclic_append hxs hacyclic
  | pushed hes =>
    by_contra hcycle
    obtain ⟨y, hy, hreach⟩ := (not_acyclic_put_iff hes hacyclic).mp hcycle
    exact hu (List.mem_singleton.mp hy ▸ hreach)
  | appended hes hmore =>
    by_contra hcycle
    obtain ⟨y, hy, hreach⟩ := (not_acyclic_put_iff hes hacyclic).mp hcycle
    exact hu ⟨y, holds_iff.mpr ⟨_, hmore, hy⟩, hreach⟩

/-- An operation that is to close a cycle and succeeds closes one. -/
theorem not_acyclic_of_closes (hacyclic : cs.links.Acyclic) (hu : (Op.change u).Closes cs.links)
    {answer : Answer} (hok : (cs.update u).1 = .ok answer) : ¬ (cs.update u).2.links.Acyclic := by
  cases u with
  | push seq value =>
    cases hes : cs.elementsOf seq with
    | error e => simp [update, dress, push, hes] at hok
    | ok es =>
      simp only [update, dress, push, hes]
      rw [not_acyclic_put_iff (elementsOf_eq_ok_iff.mp hes) hacyclic]
      exact ⟨value, List.mem_singleton_self value, hu⟩
  | append dst src =>
    obtain ⟨y, hy, hreach⟩ := hu
    obtain ⟨more, hmore, hmem⟩ := holds_iff.mp hy
    rw [← elementsOf_eq_ok_iff] at hmore
    cases hes : cs.elementsOf dst with
    | error e => simp [update, dress, append, hes] at hok
    | ok es =>
      simp only [update, dress, append, hes, hmore]
      rw [not_acyclic_put_iff (elementsOf_eq_ok_iff.mp hes) hacyclic]
      exact ⟨y, hmem, hreach⟩
  | _ => cases hu

end Cells

theorem Parse.arena_reshape (p : Parse) (f : Reshaper) :
    (p.reshape f).2.arena = (f p).2.arena := by
  rcases hf : f p with ⟨_ | _, q⟩ <;> simp [reshape, hf]

/-- A ready-made reshaper does nothing to the parse but flatten the result. -/
theorem Pick.run_cases (pick : Pick) (p : Parse) :
    (pick.run p).2 = p ∨ ∃ h, pick = .leaves ∧ p.result = some h ∧
      pick.run p = (some <$> (p.arena.flatten h).1, { p with arena := (p.arena.flatten h).2 }) := by
  match pick, p with
  | nothing, _ => exact .inl rfl
  | element _, _ => exact .inl rfl
  | final, _ => exact .inl rfl
  | leaves, ⟨_, none⟩ => exact .inl rfl
  | leaves, ⟨arena, some h⟩ =>
    refine .inr ⟨h, rfl, rfl, ?_⟩
    rcases hflat : arena.flatten h with ⟨_ | _, b⟩ <;> simp [run, hflat]

theorem Pick.arena_run (pick : Pick) (p : Parse) :
    (pick.run p).2.arena = p.arena ∨
      ∃ h, pick = .leaves ∧ p.result = some h ∧ (pick.run p).2.arena = (p.arena.flatten h).2 := by
  rcases pick.run_cases p with hsame | ⟨h, rfl, hresult, hrun⟩
  · exact .inl (congrArg Parse.arena hsame)
  · exact .inr ⟨h, rfl, hresult, by rw [hrun]⟩

namespace Arena

variable {a : Arena}

theorem Layout.acyclic_run (ha : a.Layout) (hacyclic : a.links.Acyclic) {op : Op}
    (hop : ¬ op.Closes a.links) : (op.run a).2.links.Acyclic := by
  cases op with
  | ask q => exact hacyclic
  | change u =>
    rw [← ha.links_cells] at hacyclic hop
    rw [← (ha.run (.change u)).links_cells, ha.cells_run]
    exact (a.cells.grown_update u).acyclic hop hacyclic

theorem Layout.not_acyclic_run (ha : a.Layout) (hacyclic : a.links.Acyclic) {op : Op}
    (hop : op.Closes a.links) {answer : Answer} (hok : (op.run a).1 = .ok answer) :
    ¬ (op.run a).2.links.Acyclic := by
  cases op with
  | ask q => cases hop
  | change u =>
    rw [← ha.links_cells] at hacyclic hop
    rw [← (ha.run (.change u)).links_cells, ha.cells_run]
    have hseen : (a.cells.update u).1 = .ok answer := by rw [← ha.seen_run u]; exact hok
    exact Cells.not_acyclic_of_closes hacyclic hop hseen

/-- A sequence without cycles appended to itself closes none. -/
theorem not_closes_self (hacyclic : a.links.Acyclic) (s : Handle) :
    ¬ (Op.change (.append s s)).Closes a.links := by
  rintro ⟨x, hx, hreach⟩
  exact hacyclic s (.head' hx hreach)

/-- An operation on an arena without cycles that succeeds, or is an import, leads to a cycle exactly
if it gives a sequence an element from which the sequence can be reached. No other operation does,
even if it fails. -/
theorem not_acyclic_run_iff (ha : a.Built) (hacyclic : a.links.Acyclic) :
    (∀ op : Op, ((∃ answer, (op.run a).1 = .ok answer) ∨ ∃ v, op = .change (.addJson v)) →
      (¬ (op.run a).2.links.Acyclic ↔ op.Closes a.links)) ∧
    (∀ op : Op, ¬ op.Closes a.links → (op.run a).2.links.Acyclic) ∧
    (∀ s, (a.append s s).2.links.Acyclic) ∧
    ∀ (p : Parse) (pick : Pick), p.arena = a → (p.reshape pick.run).2.arena.links.Acyclic := by
  have hkeep : ∀ op : Op, ¬ op.Closes a.links → (op.run a).2.links.Acyclic :=
    fun op hop => ha.layout.acyclic_run hacyclic hop
  refine ⟨fun op hop => ⟨fun hcycle => not_not.mp (mt (hkeep op) hcycle), fun hcloses => ?_⟩,
    hkeep, fun s => hkeep (.change (.append s s)) (not_closes_self hacyclic s), ?_⟩
  · rcases hop with ⟨answer, hok⟩ | ⟨v, rfl⟩
    · exact ha.layout.not_acyclic_run hacyclic hcloses hok
    · cases hcloses
  · rintro p pick rfl
    rw [p.arena_reshape]
    rcases pick.arena_run p with hsame | ⟨h, -, -, hflat⟩
    · rwa [hsame]
    · rw [hflat]
      exact hkeep (.change (.flatten h)) id

/-- A sequence that holds a handle which is not issued yet. -/
def dangling : Arena := empty.after [.change .addSeq, .change (.push ⟨0⟩ ⟨1⟩)]

theorem eq_of_dangling_holds {s x : Handle} (h : dangling.links.Holds s x) : s = ⟨0⟩ ∧ x = ⟨1⟩ := by
  obtain ⟨es, hes, hx⟩ := h
  have hs : s.index < 1 := mem_handles.mp (mem_handles_of_links hes)
  match s, hs, hes with
  | ⟨0⟩, _, hes =>
    cases hes
    exact ⟨rfl, List.mem_singleton.mp hx⟩

/-- The handle comes to name a token without closing a cycle. That takes one more element. -/
theorem not_acyclic_run_iff_dangling :
    dangling.links.Acyclic ∧ dangling.addSeq.2.links.Acyclic ∧
      ¬ (dangling.addSeq.2.push ⟨1⟩ ⟨0⟩).2.links.Acyclic := by
  have hdangling : dangling.links.Acyclic := by
    intro s hs
    obtain ⟨x, hx, -⟩ := Relation.TransGen.head'_iff.mp hs
    obtain ⟨y, -, hy⟩ := Relation.TransGen.tail'_iff.mp hs
    have hsame := (eq_of_dangling_holds hx).1.symm.trans (eq_of_dangling_holds hy).2
    cases hsame
  have hseq := (not_acyclic_run_iff (built_after _) hdangling).2.1 (.change .addSeq) id
  refine ⟨hdangling, hseq, ?_⟩
  have hbuilt : dangling.addSeq.2.Built :=
    built_after [.change .addSeq, .change (.push ⟨0⟩ ⟨1⟩), .change .addSeq]
  have hreach : dangling.addSeq.2.links.Reaches ⟨0⟩ ⟨1⟩ :=
    .head ⟨[⟨1⟩], rfl, List.mem_singleton_self _⟩ (.refl _)
  exact ((not_acyclic_run_iff hbuilt hseq).1 (.change (.push ⟨1⟩ ⟨0⟩)) (.inl ⟨_, rfl⟩)).mpr hreach

end Arena

end TokenStore
