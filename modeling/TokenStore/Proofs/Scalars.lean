import TokenStore.Proofs.Export
import TokenStore.Proofs.Leaves

/-!
# Scalars of a document

Imported, flattened and exported, a document becomes the array of its scalars in the order of the
text. The search for leaves goes through at most as many levels as the import added tokens, and the
leaves that it finds are exported one level below the sequence that they are put into.

## Main definitions

* `Json.scalarAt?`: the value at the end of a path, unless it is an array.
* `Json.scalars`: all values of a document that are no arrays, in the order of the text.
* `Json.ShownAs`: a token that is no sequence, and the value that it is exported as.
-/

namespace TokenStore

namespace Json

/-- The value that a path leads to, unless it is an array. -/
def scalarAt? (v : Json) (path : List Nat) : Option Json :=
  match v.follow? path with
  | some (.arr _) => none
  | o => o

/-- The values of a document that are no arrays, in the order of the text. -/
def scalars (v : Json) : List Json := v.positions.filterMap v.scalarAt?

theorem scalars_of_scalar {v : Json} (hv : ∀ items, v ≠ .arr items) : v.scalars = [v] := by
  have hroot : v.scalarAt? [] = some v := by
    rw [scalarAt?, follow?_nil]
    cases v with
    | arr items => exact absurd rfl (hv items)
    | _ => rfl
  rw [scalars, positions_of_scalar hv, List.filterMap_cons_some hroot, List.filterMap_nil]

theorem scalarAt?_cons (items : List Json) (i : Nat) (path : List Nat) :
    (arr items).scalarAt? (i :: path) = items[i]?.bind (scalarAt? · path) := by
  rw [scalarAt?, follow?_arr_cons]
  cases items[i]? <;> rfl

theorem filterMap_itemPositions (done vs : List Json) :
    (itemPositions done.length vs).filterMap (arr (done ++ vs)).scalarAt? = vs.flatMap scalars := by
  induction vs generalizing done with
  | nil => rfl
  | cons v vs ih =>
    have hfirst : (v.positions.map (done.length :: ·)).filterMap (arr (done ++ v :: vs)).scalarAt? =
        v.scalars := by
      rw [List.filterMap_map, scalars]
      refine List.filterMap_congr fun path _ => ?_
      simp [scalarAt?_cons]
    have hothers := ih (done ++ [v])
    rw [List.length_append, List.length_singleton, List.append_assoc, List.singleton_append]
      at hothers
    rw [itemPositions, List.filterMap_append, hfirst, hothers, List.flatMap_cons]

/-- The scalars of an array are those of its items, one after the other. -/
theorem scalars_arr (items : List Json) : (arr items).scalars = items.flatMap scalars := by
  have hroot : (arr items).scalarAt? [] = none := by simp [scalarAt?]
  rw [scalars, positions, List.filterMap_cons_none hroot]
  exact filterMap_itemPositions [] items

/-- Replacing the objects that choose a kind keeps every scalar a scalar. -/
theorem length_scalars_strip (v : Json) : v.strip.scalars.length = v.scalars.length := by
  induction v using itemsInduction with
  | arr items ih =>
    rw [strip, stripAll_eq_map, scalars_arr, scalars_arr, List.flatMap_map, List.length_flatMap,
      List.length_flatMap, List.map_congr_left ih]
  | other v hscalar =>
    have hstrip : ∀ items, v.strip ≠ .arr items := by
      intro items
      cases v with
      | arr items => exact absurd rfl (hscalar items)
      | obj members => rw [strip]; split <;> simp
      | _ => simp [strip]
    rw [scalars_of_scalar hscalar, scalars_of_scalar hstrip]
    rfl

theorem length_scalars (v : Json) :
    v.scalars.length = (v.positions.filter fun path => (v.scalarAt? path).isSome).length := by
  rw [scalars, List.length_filterMap_eq_countP, List.countP_eq_length_filter]

/-! ## Leaves of blocks -/

/-- The token is no sequence, and is exported as `w`. -/
def ShownAs (cs : Cells) (l : Handle) (w : Json) : Prop :=
  ∃ x t, cs[l.index]? = some x ∧ x.tree? = some t ∧ t.toJson = w

theorem ShownAs.links {cs : Cells} {l : Handle} {w : Json} (h : ShownAs cs l w) :
    cs.links l = .ok none := by
  obtain ⟨x, t, hx, ht, -⟩ := h
  rw [Cells.links, Cells.find_eq_ok_iff.mpr hx]
  cases x with
  | seq es => cases ht
  | _ => rfl

/-- Cells that are added behind the others change nothing. -/
theorem ShownAs.append {cs : Cells} {l : Handle} {w : Json} (h : ShownAs cs l w)
    (more : List Cell) : ShownAs (cs ++ more) l w := by
  obtain ⟨x, t, hx, ht, hjson⟩ := h
  exact ⟨x, t, Cells.getElem?_append_of_some hx more, ht, hjson⟩

mutual

/-- The leaves of a block are the scalars of its document. As many levels as it has cells are
enough to find them. -/
theorem Block.leaves {cs : Cells} {base : Nat} {v : Json} {xs : List Cell} (h : v.Block base xs)
    (hxs : cs.Contains base xs) {room : Nat} (hroom : xs.length ≤ room) :
    ∃ ls, cs.links.leavesWithin room ⟨base⟩ = .ok ls ∧
      List.Forall₂ (ShownAs cs) ls v.strip.scalars := by
  cases h with
  | @leaf _ _ x hx =>
    obtain ⟨t, ht, hjson⟩ := hx.toJson
    have hshown : ShownAs cs ⟨base⟩ v.strip := ⟨x, t, hxs.head, ht, hjson⟩
    have hscalar : ∀ items, v.strip ≠ .arr items := by
      intro items
      cases hx <;> nofun
    refine ⟨[⟨base⟩], Links.leavesWithin_leaf hshown.links room, ?_⟩
    rw [scalars_of_scalar hscalar]
    exact .cons hshown .nil
  | @arr _ items hs xs hitems =>
    obtain ⟨below, rfl⟩ : ∃ below, room = below + 1 := ⟨room - 1, by simp at hroom; omega⟩
    obtain ⟨lss, hlss, hshown⟩ := hitems.leaves hxs.tail (Nat.le_of_succ_le_succ hroom)
    have hseq := Cells.links_eq_seq_iff.mpr hxs.head
    refine ⟨lss.flatten, ?_, ?_⟩
    · rw [Links.leavesWithin_succ hseq, Outcome.mapM_eq_ok_iff.mpr hlss]
      rfl
    · rwa [strip, stripAll_eq_map, scalars_arr, List.flatMap_map]

theorem Blocks.leaves {cs : Cells} {base : Nat} {vs : List Json} {hs : List Handle}
    {xs : List Cell} (h : Blocks base vs hs xs) (hxs : cs.Contains base xs) {room : Nat}
    (hroom : xs.length ≤ room) :
    ∃ lss, List.Forall₂ (fun h ls => cs.links.leavesWithin room h = .ok ls) hs lss ∧
      List.Forall₂ (ShownAs cs) lss.flatten (vs.flatMap fun v => v.strip.scalars) := by
  cases h with
  | nil => exact ⟨[], .nil, .nil⟩
  | @cons _ _ _ _ xs ys hv hrest =>
    rw [List.length_append] at hroom
    have hfirstroom : xs.length ≤ room := by omega
    have hrestroom : ys.length ≤ room := by omega
    obtain ⟨ls, hls, hfirst⟩ := hv.leaves hxs.left hfirstroom
    obtain ⟨lss, hlss, hothers⟩ := hrest.leaves hxs.right hrestroom
    exact ⟨ls :: lss, .cons hls hlss, List.rel_append hfirst hothers⟩

end

end Json

namespace Cells

/-- A sequence of such tokens is exported as the array of what they are exported as. -/
theorem unfold_shown {cs : Cells} {h : Handle} {ls : List Handle} {ws : List Json}
    (hseq : cs[h.index]? = some (.seq ls)) (hls : List.Forall₂ (Json.ShownAs cs) ls ws)
    (room : Nat) :
    ∃ t, cs.unfold Tree.exportLimit (room + 1) h = .ok t ∧ t.toJson = .arr ws := by
  obtain ⟨ts, hts, hjson⟩ : ∃ ts,
      List.Forall₂ (fun l t => cs.unfold Tree.exportLimit room l = .ok t) ls ts ∧
        ts.map Tree.toJson = ws := by
    clear hseq
    induction hls with
    | nil => exact ⟨[], .nil, rfl⟩
    | cons hl hrest ih =>
      obtain ⟨x, t, hx, ht, hjson⟩ := hl
      obtain ⟨ts, hts, hjsons⟩ := ih
      exact ⟨t :: ts, .cons (unfold_leaf hx ht room) hts, by rw [List.map_cons, hjson, hjsons]⟩
  exact ⟨.seq ts, unfold_seq hseq hts, by rw [Tree.toJson, Tree.toJsonAll_eq_map, hjson]⟩

end Cells

namespace Links

/-- Where tokens go by other names, a search finds the leaves by their other names. -/
theorem leavesWithin_rename {f g : Links} {name : Handle → Handle}
    (hfg : ∀ x, g (name x) = Option.map (List.map name) <$> f x) (room : Nat) (h : Handle) :
    g.leavesWithin room (name h) = List.map name <$> f.leavesWithin room h := by
  induction room using Nat.strongRecOn generalizing h with
  | ind room ih =>
    have hroot := hfg h
    cases hf : f h with
    | error e =>
      rw [hf] at hroot
      rw [leavesWithin_error hf, leavesWithin_error hroot, Outcome.map_error]
    | ok o =>
      rw [hf] at hroot
      cases o with
      | none => rw [leavesWithin_leaf hf, leavesWithin_leaf hroot]; rfl
      | some es =>
        cases room with
        | zero => rw [leavesWithin_zero hf, leavesWithin_zero hroot, Outcome.map_error]
        | succ room =>
          have hbelow := ih room (Nat.lt_succ_self room)
          rw [leavesWithin_succ hf, leavesWithin_succ hroot, List.mapM_map]
          simp only [Function.comp_def, hbelow, Outcome.mapM_map]
          cases es.mapM (f.leavesWithin room) with
          | error e => rfl
          | ok lss => simp [Except.map, List.map_flatten]

end Links

namespace Arena

variable {a b c : Arena} {v : Json} {h root : Handle}

/-! ## Flattening behind another arena -/

theorem links_join (a b : Arena) (h : Handle) :
    (a.join b).links (h.shift a.size) =
      Option.map (List.map (Handle.shift a.size)) <$> b.links h := by
  simp only [links, token_join]
  cases b.token h with
  | error e => rfl
  | ok t =>
    cases t with
    | sequence id =>
      simp only [Outcome.map_ok, Outcome.ok_bind, moved, Token.list?, list_join]
      cases b.list id with
      | error e => rfl
      | ok e => simp
    | _ => rfl

/-- A flattening that succeeds goes the same way when the arena is laid behind another. -/
theorem flatten_join {flat : Handle} (a : Arena) (hflat : b.flatten h = (.ok flat, c)) :
    (a.join b).flatten (h.shift a.size) = (.ok (flat.shift a.size), a.join c) := by
  rcases b.flatten_cases h with ⟨ls, hls, hok⟩ | ⟨e, -, herror⟩
  · cases hflat.symm.trans hok
    have htight : Elements.tight (ls.map (Handle.shift a.size)) =
        (Elements.tight ls).shift a.size := by
      simp [Elements.tight, Elements.append, Elements.shift, Elements.withCapacity]
    have hroom : b.size ≤ (a.join b).size := by simp
    have hmoved := Links.leavesWithin_rename (links_join a b) b.size h
    rw [hls, Outcome.map_ok] at hmoved
    have hsearch := Links.leavesWithin_mono hmoved hroom
    rcases (a.join b).flatten_cases (h.shift a.size) with ⟨ms, hms, hok⟩ | ⟨e, he, -⟩
    · obtain rfl : ls.map (Handle.shift a.size) = ms := Except.ok.inj (hsearch.symm.trans hms)
      rw [hok, htight, addList_join, size_join]
      rfl
    · cases hsearch.symm.trans he
  · cases hflat.symm.trans herror

/-! ## Flattening what was imported -/

/-- The export of the leaves of an imported document, and then of the document itself. -/
theorem Layout.flatten_addJson (ha : a.Layout) (hadd : a.addJson v = (.ok root, b)) :
    ∃ flat c t u, b.flatten root = (.ok flat, c) ∧
      c.exportTree flat = .ok t ∧ t.toJson = .arr v.strip.scalars ∧
      c.exportTree root = .ok u ∧ u.toJson = v.strip := by
  obtain ⟨hv, rfl, hb, xs, hblock, hcells⟩ := ha.addJson_ok hadd
  have hxs : b.cells.Contains a.size xs := contains_behind hcells
  have hroom : xs.length ≤ b.size := by
    rw [← length_cells, hcells, List.length_append]
    omega
  obtain ⟨ls, hls, hshown⟩ := hblock.leaves hxs hroom
  rw [hb.links_cells] at hls
  rcases b.flatten_cases ⟨a.size⟩ with ⟨ms, hms, hflat⟩ | ⟨e, he, -⟩
  · obtain rfl : ls = ms := Except.ok.inj (hls.symm.trans hms)
    have hc : (b.addList (.tight ls)).2.Layout := Move.layout (.list _) hb
    have hadded := hb.cells_addList (.tight ls)
    rw [Elements.toList_tight] at hadded
    have hseq : (b.addList (.tight ls)).2.cells[b.size]? = some (.seq ls) := by
      rw [hadded, ← length_cells, List.getElem?_concat_length]
    have hleaves := hshown.imp fun l w hl => hl.append [.seq ls]
    rw [← hadded] at hleaves
    obtain ⟨t, ht, hjson⟩ := Cells.unfold_shown (h := ⟨b.size⟩) hseq hleaves 255
    have hbehind : (b.addList (.tight ls)).2.cells = a.cells ++ (xs ++ [.seq ls]) := by
      rw [hadded, hcells, List.append_assoc]
    obtain ⟨u, hu, hjsons⟩ := hc.exportTree_block hv hblock (contains_behind hbehind).left
    refine ⟨_, _, t, u, hflat, ?_, hjson, hu, hjsons⟩
    rw [hc.exportTree_cells]
    exact ht
  · cases hls.symm.trans he

/-- Flattening what was imported gives the array of the scalars of the document, one for each place
that holds no array, and the document itself is exported as before. -/
theorem toJson_flatten_addJson (hadd : a.addJson v = (.ok root, b)) :
    ∃ flat c, b.flatten root = (.ok flat, c) ∧
      c.toJson flat = .ok (.arr v.strip.scalars) ∧
      v.strip.scalars.length = (v.positions.filter fun path => (v.scalarAt? path).isSome).length ∧
      c.toJson root = .ok v.strip := by
  -- through an import into an empty arena, since nothing is known of how `a` is laid out
  rcases hempty : empty.addJson v with ⟨r, c⟩
  rw [a.addJson_eq_join v, hempty] at hadd
  cases r with
  | error e => cases hadd
  | ok k =>
    cases hadd
    obtain ⟨flat, d, t, u, hflat, ht, hjson, hu, hjsons⟩ := layout_empty.flatten_addJson hempty
    have hleaves := (unfold_join a d Tree.exportLimit maxDepth flat).trans ht
    have hroot := (unfold_join a d Tree.exportLimit maxDepth k).trans hu
    have hcount := (v.length_scalars_strip).trans v.length_scalars
    refine ⟨_, _, flatten_join a hflat, ?_, hcount, ?_⟩
    · rw [(toJson_of_exportTree hleaves).1, hjson]
    · rw [(toJson_of_exportTree hroot).1, hjsons]

/-- A signed `5`, an empty array, a string and `-1`, at different depths. -/
def scattered : Json :=
  .arr [.arr [.obj [("sint", .num (.int (.ofByte 5)))], .arr []], .str "ab",
    .arr [.arr [.num (.int (.ofInt64 (-1)))]]]

theorem toJson_flatten_addJson_scattered :
    ∃ b flat c, empty.addSeq.2.addJson scattered = (.ok ⟨1⟩, b) ∧ b.flatten ⟨1⟩ = (.ok flat, c) ∧
      c.toJson flat =
        .ok (.arr [.num (.int (.ofByte 5)), .str "ab", .num (.int (.ofInt64 (-1)))]) ∧
      c.toJson ⟨1⟩ = .ok scattered.strip := by
  rcases hadd : empty.addSeq.2.addJson scattered with ⟨r, b⟩
  have hr : (empty.addSeq.2.addJson scattered).1 = .ok ⟨1⟩ := by decide +kernel
  obtain rfl : r = .ok ⟨1⟩ := by rwa [hadd] at hr
  obtain ⟨flat, c, hflat, hleaves, -, hroot⟩ := toJson_flatten_addJson hadd
  exact ⟨b, flat, c, rfl, hflat, hleaves, hroot⟩

end Arena

end TokenStore
