import TokenStore.Proofs.Compact
import TokenStore.Proofs.Reimport

/-!
# How deep exports go

An export fails only for depth: exactly if a path leads one level further down than the greatest
depth, as some path does wherever a cycle can be reached. What it gives otherwise is the only
document that depicts the tree below the token.

## Main definitions

* `Label.Scalar`, `Unfolding.Depicted`: the document of a tree.
-/

namespace TokenStore

/-! ## Documents of trees -/

/-- The value depicts a token that is no sequence. Bytes are the text that they encode, or else an
array of numbers, an integer is the same integer, and of an application's value there is the tag. -/
inductive Label.Scalar : Label → Json → Prop where
  | text (s : String) : Scalar (.bytes s.toUTF8.data.toList) (.str s)
  | bytes {data : List UInt8} (invalid : ¬ ByteArray.IsValidUTF8 ⟨data.toArray⟩) :
      Scalar (.bytes data) (.ofBytes data)
  | sint {value : Int64} {n : WideInt} (hn : value.toInt = n.val) :
      Scalar (.sint value) (.num (.int n))
  | uint {value : UInt64} {n : WideInt} (hn : (value.toNat : Int) = n.val) :
      Scalar (.uint value) (.num (.int n))
  | user {tag : Tag} {n : WideInt} (hn : (tag.code.toNat : Int) = n.val) :
      Scalar (.user tag) (.obj [("user", .num (.int n))])

/-- The document depicts the tree, in which sequences are arrays. -/
inductive Unfolding.Depicted : Unfolding → Json → Prop where
  | scalar {u : Unfolding} {l : Label} {v : Json} (root : u [] = some l) (hv : l.Scalar v) :
      Depicted u v
  | seq {u : Unfolding} {items : List Json} (root : u [] = some (.sequence items.length))
      (below : ∀ (i : Nat) (hi : i < items.length), Depicted (fun path => u (i :: path)) items[i]) :
      Depicted u (.arr items)

theorem WideInt.ofTag_eq {n : WideInt} {m : UInt32} (hm : (m.toNat : Int) = n.val) :
    ofTag m = n := by
  cases n
  simpa [ofTag] using hm

namespace Tree

theorem toUTF8_of_utf8? {data : List UInt8} {s : String} (hs : utf8? data = some s) :
    s.toUTF8.data.toList = data := by
  unfold utf8? String.fromUTF8? at hs
  split at hs
  · cases hs
    rfl
  · cases hs

/-- A token that is no sequence is depicted by its export only. -/
theorem scalar_iff {t : Tree Empty} (ht : ∀ ts, t ≠ .seq ts) {v : Json} :
    (t.label Empty.elim).Scalar v ↔ v = t.toJson := by
  constructor
  · intro hv
    cases t with
    | bytes data =>
      rw [toJson]
      cases hv with
      | text s => rw [utf8?_toUTF8]
      | bytes invalid => rw [utf8?_eq_none_iff.mpr invalid]
    | sint value =>
      cases hv with
      | sint hn => rw [toJson, WideInt.ofInt64_eq hn]
    | uint value =>
      cases hv with
      | uint hn => rw [toJson, WideInt.ofUInt64_eq hn]
    | user tag =>
      cases hv with
      | user hn => rw [toJson, WideInt.ofTag_eq hn]
    | seq ts => exact absurd rfl (ht ts)
    | cut stub => cases stub
  · rintro rfl
    cases t with
    | bytes data =>
      rw [toJson]
      cases hdata : utf8? data with
      | some s =>
        rw [← toUTF8_of_utf8? hdata]
        exact .text s
      | none => exact .bytes (utf8?_eq_none_iff.mp hdata)
    | sint value => exact .sint rfl
    | uint value => exact .uint rfl
    | user tag => exact .user rfl
    | seq ts => exact absurd rfl (ht ts)
    | cut stub => cases stub

theorem unfolding_seq {ts : List (Tree Empty)} {i : Nat} (hi : i < ts.length) :
    (fun path => (seq ts).unfolding Empty.elim (i :: path)) = ts[i].unfolding Empty.elim := by
  funext path
  simp [unfolding, children, hi]

/-- A finite tree is depicted by its export only. -/
theorem depicted_iff {t : Tree Empty} {v : Json} :
    (t.unfolding Empty.elim).Depicted v ↔ v = t.toJson := by
  induction t using childrenInduction generalizing v with
  | seq ts ih =>
    rw [toJson, toJsonAll_eq_map]
    constructor
    · intro hv
      cases hv with
      | scalar root hv =>
        cases root
        cases hv
      | @seq _ items root below =>
        have hlength : ts.length = items.length := by simpa [unfolding, label] using root
        refine congrArg Json.arr (List.ext_getElem (by simp [hlength]) fun i hi hi' => ?_)
        have hits : i < ts.length := hlength ▸ hi
        have hbelow := below i hi
        rw [unfolding_seq hits, ih _ (List.getElem_mem hits)] at hbelow
        rw [hbelow, List.getElem_map]
    · rintro rfl
      refine .seq (by simp [unfolding, label]) fun i hi => ?_
      have hits : i < ts.length := by rwa [List.length_map] at hi
      rw [unfolding_seq hits, List.getElem_map, ih _ (List.getElem_mem hits)]
  | leaf t hleaf =>
    constructor
    · intro hv
      cases hv with
      | scalar root hv =>
        cases root
        exact (scalar_iff hleaf).mp hv
      | seq root below => cases t <;> simp_all [unfolding, label]
    · rintro rfl
      exact .scalar rfl ((scalar_iff hleaf).mpr rfl)

end Tree

/-! ## Paths -/

namespace Links

variable {f : Links} {s t : Handle}

/-- A token from which a cycle can be reached holds another one. -/
theorem exists_holds_of_cycle (hs : Relation.TransGen f.Holds s s) (ht : f.Reaches t s) :
    ∃ u, f.Holds t u ∧ f.Reaches u s := by
  rcases ht.cases_head with rfl | hholds
  · exact Relation.TransGen.head'_iff.mp hs
  · exact hholds

end Links

namespace Cells

variable {cs : Cells} {h x : Handle} {path : List Nat}

theorem follow_cons_iff {i : Nat} :
    cs.follow h (i :: path) = .ok x ↔
      ∃ es y, cs.links h = .ok (some es) ∧ es[i]? = some y ∧ cs.follow y path = .ok x := by
  simp only [follow, List.foldlM_cons, element, Outcome.bind_eq_ok_iff, elementsOf_eq_ok_iff,
    links_eq_seq_iff]
  constructor
  · rintro ⟨y, ⟨es, hes, hy⟩, hx⟩
    refine ⟨es, y, hes, ?_, hx⟩
    cases hi : es[i]? <;> simp_all
  · rintro ⟨es, y, hes, hy, hx⟩
    exact ⟨y, ⟨es, hes, by simp [hy]⟩, hx⟩

theorem reaches_of_follow (hx : cs.follow h path = .ok x) : cs.links.Reaches h x := by
  induction path generalizing h with
  | nil =>
    cases hx
    exact .refl x
  | cons i path ih =>
    obtain ⟨es, y, hes, hy, hx⟩ := follow_cons_iff.mp hx
    exact .head ⟨es, hes, List.mem_of_getElem? hy⟩ (ih hx)

/-- Where a cycle can be reached, there are paths of every length. -/
theorem exists_follow_of_cycle {s : Handle} (hs : Relation.TransGen cs.links.Holds s s)
    (hh : cs.links.Reaches h s) (n : Nat) :
    ∃ path x, path.length = n ∧ cs.follow h path = .ok x := by
  induction n generalizing h with
  | zero => exact ⟨[], h, rfl, rfl⟩
  | succ n ih =>
    obtain ⟨u, ⟨es, hes, hu⟩, hus⟩ := Links.exists_holds_of_cycle hs hh
    obtain ⟨i, hi⟩ := List.getElem?_of_mem hu
    obtain ⟨path, x, hlength, hx⟩ := ih hus
    exact ⟨i :: path, x, by simp [hlength], follow_cons_iff.mpr ⟨es, u, hes, hi, hx⟩⟩

theorem unfolding_of_follow (hx : cs.follow h path = .ok x) :
    cs.unfolding h path = cs[x.index]?.map Cell.label := by
  induction path generalizing h with
  | nil =>
    cases hx
    rfl
  | cons i path ih =>
    obtain ⟨es, y, hes, hy, hx⟩ := follow_cons_iff.mp hx
    rw [unfolding_cons_of_seq (links_eq_seq_iff.mp hes), hy, Option.bind_some, ih hx]

/-- There is something to be seen wherever a path leads, and nowhere else. -/
theorem exists_unfolding_iff (hfound : ∀ x, cs.links.Reaches h x → x.index < cs.length) :
    (∃ l, cs.unfolding h path = some l) ↔ ∃ x, cs.follow h path = .ok x := by
  constructor
  · rintro ⟨l, hl⟩
    clear hfound
    induction path generalizing h with
    | nil => exact ⟨h, rfl⟩
    | cons i path ih =>
      obtain ⟨es, hes, hl⟩ := Option.bind_eq_some_iff.mp hl
      obtain ⟨y, hy, hl⟩ := Option.bind_eq_some_iff.mp hl
      obtain ⟨c, hc, hes⟩ := Option.bind_eq_some_iff.mp hes
      obtain ⟨x, hx⟩ := ih hl
      refine ⟨x, follow_cons_iff.mpr ⟨es, y, links_eq_seq_iff.mpr ?_, hy, hx⟩⟩
      cases c <;> cases hes
      exact hc
  · rintro ⟨x, hx⟩
    rw [unfolding_of_follow hx, List.getElem?_eq_getElem (hfound x (reaches_of_follow hx))]
    exact ⟨_, rfl⟩

/-- An export fails only because a path is longer than the export may go deep. -/
theorem exists_follow_of_unfold_error
    (hfound : ∀ x, cs.links.Reaches h x → x.index < cs.length) {depth : Nat} {e : Failure}
    (he : cs.unfold Tree.exportLimit depth h = .error e) :
    e = Arena.tooDeep ∧ ∃ path x, path.length = depth + 1 ∧ cs.follow h path = .ok x := by
  induction depth using Nat.strongRecOn generalizing h with
  | ind depth ih =>
    obtain ⟨c, hc⟩ : ∃ c, cs[h.index]? = some c :=
      ⟨_, List.getElem?_eq_getElem (hfound h (.refl h))⟩
    cases c with
    | seq es =>
      have hes := links_eq_seq_iff.mpr hc
      cases depth with
      | zero =>
        rw [unfold_seq_zero hc] at he
        cases es with
        | nil => cases he
        | cons y es =>
          cases he
          exact ⟨rfl, [0], y, rfl, follow_cons_iff.mpr ⟨_, y, hes, rfl, rfl⟩⟩
      | succ depth =>
        rw [unfold_seq_succ hc] at he
        cases hts : es.mapM (cs.unfold Tree.exportLimit depth) with
        | ok ts => simp [hts] at he
        | error e' =>
          obtain rfl : e' = e := by simpa [hts] using he
          obtain ⟨y, hy, hye⟩ := Outcome.exists_of_mapM_eq_error hts
          have hbelow : ∀ x, cs.links.Reaches y x → x.index < cs.length :=
            fun x hx => hfound x (.head ⟨es, hes, hy⟩ hx)
          obtain ⟨he', path, x, hlength, hx⟩ := ih depth (Nat.lt_succ_self depth) hbelow hye
          obtain ⟨i, hi⟩ := List.getElem?_of_mem hy
          exact ⟨he', i :: path, x, by simp [hlength], follow_cons_iff.mpr ⟨es, y, hes, hi, hx⟩⟩
    | _ =>
      rw [unfold_leaf hc rfl] at he
      cases he

/-- An export that succeeds leaves no room for such a path. -/
theorem length_le_of_follow (hfound : ∀ x, cs.links.Reaches h x → x.index < cs.length)
    {depth : Nat} {t : Tree Empty} (ht : cs.unfold Tree.exportLimit depth h = .ok t)
    (hx : cs.follow h path = .ok x) : path.length ≤ depth := by
  by_contra hlt
  have hnone := unfolding_beyond ht (Nat.not_le.mp hlt)
  rw [unfolding_of_follow hx, List.getElem?_eq_getElem (hfound x (reaches_of_follow hx))] at hnone
  cases hnone

end Cells

namespace Arena

variable {a : Arena} {h : Handle}

/-- What an export gives, or how it fails. -/
theorem Layout.exportTree_cases (ha : a.Layout) (hh : ∀ x, a.links.Reaches h x → x ∈ a.handles) :
    (a.exportTree h = .error tooDeep ∧ ∃ path x, path.length = 257 ∧ a.follow h path = .ok x) ∨
      ∃ t, a.exportTree h = .ok t ∧ t.unfolding Empty.elim = a.unfolding h ∧
        ∀ path x, a.follow h path = .ok x → path.length ≤ 256 := by
  have hfound := ha.found_of_issued hh
  simp only [ha.exportTree_cells, ha.follow_cells, ha.unfolding_cells]
  cases ht : a.cells.unfold Tree.exportLimit maxDepth h with
  | error e =>
    obtain ⟨rfl, hpath⟩ := Cells.exists_follow_of_unfold_error hfound ht
    exact .inl ⟨rfl, hpath⟩
  | ok t =>
    exact .inr ⟨t, rfl, (Cells.unfolding_of_export ht).1,
      fun path x hx => Cells.length_le_of_follow hfound ht hx⟩

/-- Whether a token that has no missing token below it can be exported depends on nothing but how
long the paths from it are. From a cycle they are as long as one likes. -/
theorem export_by_depth (ha : a.Built) (hh : ∀ x, a.links.Reaches h x → x ∈ a.handles) :
    let failure : Failure := .error ⟨.exporting, "serialize failed: nesting deeper than 256", []⟩
    ((∃ path x, path.length = 257 ∧ a.follow h path = .ok x) →
      a.toJson h = .error failure ∧ a.jsonText h = .error failure) ∧
    ((¬ ∃ path x, path.length = 257 ∧ a.follow h path = .ok x) →
      ∃ v, a.toJson h = .ok v ∧ a.jsonText h = .ok v.compact ∧
        ∀ w, (a.unfolding h).Depicted w ↔ w = v) ∧
    ((∃ s, a.links.Reaches h s ∧ Relation.TransGen a.links.Holds s s) →
      a.toJson h = .error failure ∧ a.jsonText h = .error failure) := by
  intro failure
  have hfailure : failure = tooDeep := rfl
  have hlong : (∃ path x, path.length = 257 ∧ a.follow h path = .ok x) →
      a.toJson h = .error failure ∧ a.jsonText h = .error failure := by
    rintro ⟨path, x, hlength, hx⟩
    rcases ha.layout.exportTree_cases hh with ⟨herror, -⟩ | ⟨t, -, -, hshort⟩
    · simp [toJson, jsonText, herror, hfailure]
    · have := hshort path x hx
      omega
  refine ⟨hlong, fun hshort => ?_, ?_⟩
  · rcases ha.layout.exportTree_cases hh with ⟨-, hpath⟩ | ⟨t, ht, htree, -⟩
    · exact absurd hpath hshort
    · obtain ⟨hjson, htext⟩ := toJson_of_exportTree ht
      refine ⟨t.toJson, hjson, htext, fun w => ?_⟩
      rw [← htree, Tree.depicted_iff]
  · rintro ⟨s, hreach, hcycle⟩
    rw [← ha.layout.links_cells] at hreach hcycle
    obtain ⟨path, x, hlength, hx⟩ := Cells.exists_follow_of_cycle hcycle hreach 257
    exact hlong ⟨path, x, hlength, (ha.layout.follow_cells h path).trans hx⟩

/-- The sequence in itself has no export, and a number beside an application's value has one. -/
theorem export_by_depth_loop_mixed :
    loop.jsonText ⟨0⟩ =
      .error (.error ⟨.exporting, "serialize failed: nesting deeper than 256", []⟩) ∧
    ∃ v, mixed.jsonText ⟨3⟩ = .ok v.compact ∧ (mixed.unfolding ⟨3⟩).Depicted v := by
  have hloop : loop.Built := built_after _
  have hmixed : mixed.Built := built_after _
  constructor
  · have hcycle : loop.links.Holds ⟨0⟩ ⟨0⟩ := ⟨[⟨0⟩], rfl, List.mem_singleton_self _⟩
    exact ((export_by_depth hloop (hloop.layout.mem_handles_of_reaches (by decide) (by decide))).2.2
      ⟨⟨0⟩, .refl _, .single hcycle⟩).2
  · have hshort : ¬ ∃ path x, path.length = 257 ∧ mixed.follow ⟨3⟩ path = .ok x := by
      rintro ⟨_ | ⟨i, _ | ⟨j, path⟩⟩, x, hlength, hx⟩
      · cases hlength
      · cases hlength
      · rw [hmixed.layout.follow_cells] at hx
        obtain ⟨es, y, hes, hy, hx⟩ := Cells.follow_cons_iff.mp hx
        obtain ⟨es', z, hes', -⟩ := Cells.follow_cons_iff.mp hx
        have hmem : y ∈ [⟨0⟩, ⟨1⟩] := by
          cases hes
          exact List.mem_of_getElem? hy
        -- the elements are no sequences, so the path cannot go on
        rcases List.mem_pair.mp hmem with rfl | rfl <;> cases hes'
    obtain ⟨v, -, htext, hv⟩ := (export_by_depth hmixed
      (hmixed.layout.mem_handles_of_reaches (by decide) (by decide))).2.1 hshort
    exact ⟨v, htext, (hv v).mpr rfl⟩

end Arena

end TokenStore
