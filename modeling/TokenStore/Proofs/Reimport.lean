import TokenStore.Proofs.Export

/-!
# Imports of exported documents

An export shows an application's value as an object that no import takes, and bytes that are no text
as an array, which is one level deeper than the bytes were. Nothing else stands in the way of
importing an export, and what is imported from it is exported the same again.

## Main definitions

* `Unfolding.Every`: what holds of everything in a tree.
* `Label.Plain`: the tokens whose exports can be imported.
-/

namespace TokenStore

/-- The property holds of everything in the tree, given how deep it stands. -/
def Unfolding.Every (P : Nat → Label → Prop) (u : Unfolding) : Prop :=
  ∀ path l, u path = some l → P path.length l

/-- What can be seen of a token at `depth` if its export can be imported there. Bytes that are no
text need a level more. -/
def Label.Plain (depth : Nat) : Label → Prop
  | .user _ => False
  | .bytes data => depth = 256 → ByteArray.IsValidUTF8 ⟨data.toArray⟩
  | _ => True

theorem Unfolding.every_plain_iff {u : Unfolding} :
    (u.Every fun n l => l.Plain n) ↔
      (∀ path tag, u path ≠ some (.user tag)) ∧
        ∀ path data, path.length = 256 → u path = some (.bytes data) →
          ByteArray.IsValidUTF8 ⟨data.toArray⟩ := by
  constructor
  · exact fun h => ⟨fun path tag hl => h path _ hl, fun path data hpath hl => h path _ hl hpath⟩
  · rintro ⟨huser, hbytes⟩ path l hl
    cases l with
    | user tag => exact huser path tag hl
    | bytes data => exact fun hpath => hbytes path data hpath hl
    | _ => trivial

namespace Json

theorem importable_arr_iff {items : List Json} {depth : Nat} :
    (arr items).Importable depth ↔ depth ≤ 256 ∧ ∀ v ∈ items, v.Importable (depth + 1) := by
  constructor
  · intro h
    cases h with
    | arr hd hitems => exact ⟨hd, hitems⟩
  · rintro ⟨hd, hitems⟩
    exact .arr hd hitems

theorem Importable.key {key : String} {v : Json} {depth : Nat}
    (h : (obj [(key, v)]).Importable depth) : key = "sint" ∨ key = "uint" := by
  cases h with
  | sint hd hn => exact .inl rfl
  | uint hd hn => exact .inr rfl

theorem importable_ofBytes_iff {data : List UInt8} (hdata : data ≠ []) {depth : Nat} :
    (ofBytes data).Importable depth ↔ depth < 256 := by
  rw [ofBytes, importable_arr_iff]
  constructor
  · rintro ⟨-, hitems⟩
    obtain ⟨b, rest, rfl⟩ := List.exists_cons_of_ne_nil hdata
    exact (hitems _ List.mem_cons_self).depth_le
  · intro hd
    refine ⟨Nat.le_of_lt hd, fun v hv => ?_⟩
    obtain ⟨b, -, rfl⟩ := List.mem_map.mp hv
    exact .int _ hd

end Json

namespace Tree

variable {t : Tree Empty} {ts : List (Tree Empty)}

theorem utf8?_eq_none_iff {data : List UInt8} :
    utf8? data = none ↔ ¬ ByteArray.IsValidUTF8 ⟨data.toArray⟩ := by
  unfold utf8? String.fromUTF8?
  split <;> simp [*]

theorem isValidUTF8_of_utf8? {data : List UInt8} {s : String} (hs : utf8? data = some s) :
    ByteArray.IsValidUTF8 ⟨data.toArray⟩ := by
  by_contra hinvalid
  cases (utf8?_eq_none_iff.mpr hinvalid).symm.trans hs

theorem every_seq {P : Nat → Label → Prop} :
    ((seq ts).unfolding Empty.elim).Every P ↔
      P 0 (.sequence ts.length) ∧
        ∀ t ∈ ts, (t.unfolding Empty.elim).Every fun n => P (n + 1) := by
  constructor
  · intro h
    refine ⟨h [] _ rfl, fun t ht path l hl => ?_⟩
    obtain ⟨i, hi⟩ := List.getElem?_of_mem ht
    refine h (i :: path) l ?_
    simp [unfolding, children, hi, hl]
  · rintro ⟨hroot, hbelow⟩ (_ | ⟨i, path⟩) l hl
    · cases hl
      exact hroot
    · obtain ⟨t, ht, hl⟩ := Option.bind_eq_some_iff.mp hl
      exact hbelow t (List.mem_of_getElem? ht) path l hl

theorem every_leaf (ht : t.children = []) {P : Nat → Label → Prop} :
    (t.unfolding Empty.elim).Every P ↔ P 0 (t.label Empty.elim) := by
  constructor
  · exact fun h => h [] _ rfl
  · rintro hroot (_ | ⟨i, path⟩) l hl
    · cases hl
      exact hroot
    · simp [unfolding, ht] at hl

/-- The document of a byte string is text, or the array of its bytes. -/
theorem importable_bytes_iff {data : List UInt8} {depth : Nat} (hd : depth ≤ 256) :
    (toJson (.bytes data)).Importable depth ↔ (Label.bytes data).Plain depth := by
  rw [toJson]
  cases hdata : utf8? data with
  | some s => exact ⟨fun _ _ => isValidUTF8_of_utf8? hdata, fun _ => .str s hd⟩
  | none =>
    have hinvalid := utf8?_eq_none_iff.mp hdata
    have hne : data ≠ [] := by
      rintro rfl
      exact hinvalid ByteArray.isValidUTF8_empty
    rw [Json.importable_ofBytes_iff hne]
    constructor
    · exact fun hlt heq => absurd hlt (Nat.not_lt.mpr heq.ge)
    · exact fun h => Nat.lt_of_le_of_ne hd fun heq => hinvalid (h heq)

/-- The document of a tree can be imported if everything in the tree is plain, provided that the
tree ends at the greatest depth. -/
theorem importable_toJson_iff {depth : Nat}
    (hfits : (t.unfolding Empty.elim).Every fun n _ => depth + n ≤ 256) :
    t.toJson.Importable depth ↔
      (t.unfolding Empty.elim).Every fun n l => l.Plain (depth + n) := by
  have hd : depth ≤ 256 := hfits [] _ rfl
  induction t using childrenInduction generalizing depth with
  | seq ts ih =>
    rw [toJson, toJsonAll_eq_map, Json.importable_arr_iff, List.forall_mem_map, every_seq]
    have hts : ∀ t ∈ ts, t.toJson.Importable (depth + 1) ↔
        (t.unfolding Empty.elim).Every fun n l => l.Plain (depth + n + 1) := by
      intro t ht
      have hbelow : (t.unfolding Empty.elim).Every fun n _ => depth + 1 + n ≤ 256 := by
        intro path l hl
        have := (every_seq.mp hfits).2 t ht path l hl
        omega
      simpa only [Nat.add_right_comm depth 1] using ih t ht hbelow (hbelow [] _ rfl)
    exact and_congr (iff_of_true hd trivial) (forall₂_congr hts)
  | leaf t hleaf =>
    cases t with
    | seq ts => exact absurd rfl (hleaf ts)
    | bytes data => rw [every_leaf rfl, importable_bytes_iff hd, Nat.add_zero, label]
    | sint value =>
      rw [every_leaf rfl]
      exact iff_of_true (.int _ hd) trivial
    | uint value =>
      rw [every_leaf rfl]
      exact iff_of_true (.int _ hd) trivial
    | user tag =>
      rw [every_leaf rfl]
      exact iff_of_false (fun h => absurd h.key (by decide)) fun h => h
    | cut stub => cases stub

/-- No kinds of numbers are chosen in an export. -/
theorem strip_toJson (t : Tree Empty) : t.toJson.strip = t.toJson := by
  induction t using childrenInduction with
  | seq ts ih =>
    rw [toJson, toJsonAll_eq_map, Json.strip, Json.stripAll_eq_map, List.map_map]
    exact congrArg Json.arr (List.map_congr_left ih)
  | leaf t hleaf =>
    cases t with
    | seq ts => exact absurd rfl (hleaf ts)
    | bytes data =>
      rw [toJson]
      cases utf8? data with
      | some s => rfl
      | none => rw [Json.ofBytes, Json.strip, Json.stripAll_eq_map, List.map_map]; rfl
    | cut stub => cases stub
    | _ => rfl

end Tree

namespace Cells

variable {cs : Cells} {h : Handle} {depth : Nat} {t : Tree Empty}

/-- An export that succeeds has met nothing beyond the greatest depth. -/
theorem unfolding_beyond (ht : cs.unfold Tree.exportLimit depth h = .ok t) {path : List Nat}
    (hpath : depth < path.length) : cs.unfolding h path = none := by
  induction path generalizing depth h t with
  | nil => cases hpath
  | cons i path ih =>
    rcases unfold_ok_cases ht with
      ⟨x, hx, hxt⟩ | ⟨es, hes, ⟨rfl, hlimit⟩ | ⟨below, ts, rfl, rfl, hts⟩⟩
    · exact unfolding_cons_of_leaf hx (tree?_eq_some hxt Empty.elim .sequence).1 i path
    · have hnil : es = [] := by
        by_contra hne
        simp [Tree.exportLimit, hne] at hlimit
      rw [unfolding_cons_of_seq hes, hnil]
      rfl
    · rw [unfolding_cons_of_seq hes]
      cases hi : es[i]? with
      | none => rfl
      | some x =>
        obtain ⟨t, hx⟩ := Outcome.exists_of_forall₂ hts (List.mem_of_getElem? hi)
        exact ih hx (Nat.lt_of_succ_lt_succ hpath)

/-- An export shows all that is below a token, and that is at most as deep as it may be. -/
theorem unfolding_of_export (ht : cs.unfold Tree.exportLimit depth h = .ok t) :
    t.unfolding Empty.elim = cs.unfolding h ∧ (cs.unfolding h).Every fun n _ => n ≤ depth := by
  have hlimit : ∀ n u, Tree.exportLimit n = .ok u →
      u.children = [] ∧ u.label Empty.elim = .sequence n := by
    intro n u hu
    unfold Tree.exportLimit at hu
    split at hu
    next hn =>
      cases hu
      exact ⟨rfl, hn ▸ rfl⟩
    next => cases hu
  have hevery : (cs.unfolding h).Every fun n _ => n ≤ depth := by
    intro path l hl
    by_contra hpath
    cases (unfolding_beyond ht (Nat.not_le.mp hpath)).symm.trans hl
  refine ⟨?_, hevery⟩
  rw [unfolding_of_unfold hlimit ht]
  refine Unfolding.cut_eq_self (fun path l _ _ => ?_) fun path => unfolding_beyond ht
  cases l <;> rfl

end Cells

namespace Arena

/-- An import succeeds on what can be imported, whatever is in the arena. -/
theorem addJson_succeeds_iff (b : Arena) (v : Json) :
    (∃ root, (b.addJson v).1 = .ok root) ↔ v.Importable 0 := by
  rw [b.addJson_eq_join v]
  constructor
  · rintro ⟨root, hroot⟩
    rcases hadd : empty.addJson v with ⟨r, c⟩
    cases r with
    | ok k => exact (layout_empty.addJson_ok hadd).1
    | error e => simp [hadd] at hroot
  · intro hv
    obtain ⟨k, cs, hadd⟩ := Cells.addValue_succeeds hv empty.cells
    rw [← layout_empty.seen_addValue] at hadd
    have hok : (empty.addJson v).1 = .ok k := congrArg Prod.fst hadd
    exact ⟨k.shift b.size, by rw [hok, Outcome.map_ok]⟩

/-- What an export gives can be imported, into any arena, if no value of an application is in it and
no bytes at the greatest depth that are not UTF-8. What is imported is exported the same again. -/
theorem addJson_toJson {a : Arena} (ha : a.Built) {h : Handle} {w : Json} (hw : a.toJson h = .ok w)
    (b : Arena) :
    ((∃ root, (b.addJson w).1 = .ok root) ↔
      (∀ path tag, a.unfolding h path ≠ some (.user tag)) ∧
        ∀ path data, path.length = 256 → a.unfolding h path = some (.bytes data) →
          ByteArray.IsValidUTF8 ⟨data.toArray⟩) ∧
      ∀ root c, b.addJson w = (.ok root, c) → c.toJson root = .ok w := by
  obtain ⟨t, ht, rfl⟩ : ∃ t, a.exportTree h = .ok t ∧ t.toJson = w := by
    simpa [toJson, Outcome.bind_eq_ok_iff] using hw
  rw [ha.layout.exportTree_cells] at ht
  obtain ⟨hsame, hfits⟩ := Cells.unfolding_of_export ht
  rw [← ha.layout.unfolding_cells] at hsame hfits
  constructor
  · rw [← hsame] at hfits ⊢
    have hfits : (t.unfolding Empty.elim).Every fun n _ => 0 + n ≤ 256 := by
      simpa only [Nat.zero_add, maxDepth] using hfits
    have hdoc := Tree.importable_toJson_iff hfits
    simp only [Nat.zero_add] at hdoc
    rw [addJson_succeeds_iff, hdoc, Unfolding.every_plain_iff]
  · intro root c hadd
    obtain ⟨u, hu, hjson⟩ := exportTree_addJson hadd
    rw [t.strip_toJson] at hjson
    exact hjson ▸ (toJson_of_exportTree hu).1

/-- A number in a sequence, and the same number in a sequence with an application's value. -/
def mixed : Arena :=
  empty.after [.change (.addUint 7), .change (.addUser ⟨64⟩ default), .change .addSeq,
    .change (.push ⟨2⟩ ⟨0⟩), .change .addSeq, .change (.push ⟨3⟩ ⟨0⟩), .change (.push ⟨3⟩ ⟨1⟩)]

theorem addJson_toJson_mixed :
    (∃ w c, mixed.toJson ⟨2⟩ = .ok w ∧ empty.addJson w = (.ok ⟨0⟩, c) ∧ c.toJson ⟨0⟩ = .ok w) ∧
      ∃ w, mixed.toJson ⟨3⟩ = .ok w ∧ ∀ b root, (Arena.addJson b w).1 ≠ .ok root := by
  have hbuilt : mixed.Built := built_after _
  have hnumber : ∀ depth, mixed.cells.unfold Tree.exportLimit depth ⟨0⟩ = .ok (.uint 7) :=
    Cells.unfold_leaf rfl rfl
  have huser : ∀ depth, mixed.cells.unfold Tree.exportLimit depth ⟨1⟩ = .ok (.user ⟨64⟩) :=
    Cells.unfold_leaf rfl rfl
  constructor
  · have htree : mixed.exportTree ⟨2⟩ = .ok (.seq [.uint 7]) := by
      rw [hbuilt.layout.exportTree_cells]
      exact Cells.unfold_seq rfl (.cons (hnumber _) .nil)
    have hw := (toJson_of_exportTree htree).1
    have hadd : empty.addJson (Tree.toJson (.seq [.uint 7])) = (.ok ⟨0⟩, _) := rfl
    exact ⟨_, _, hw, hadd, (addJson_toJson hbuilt hw empty).2 _ _ hadd⟩
  · have htree : mixed.exportTree ⟨3⟩ = .ok (.seq [.uint 7, .user ⟨64⟩]) := by
      rw [hbuilt.layout.exportTree_cells]
      exact Cells.unfold_seq rfl (.cons (hnumber _) (.cons (huser _) .nil))
    have hw := (toJson_of_exportTree htree).1
    refine ⟨_, hw, fun b root hroot => ?_⟩
    have hplain := (addJson_toJson hbuilt hw b).1.mp ⟨root, hroot⟩
    exact hplain.1 [1] ⟨64⟩ rfl

end Arena

end TokenStore
