import Mathlib.Tactic.TFAE
import TokenStore.Proofs.Depth
import TokenStore.Proofs.Lines
import TokenStore.Proofs.Outline

/-!
# What is left out for depth

Three renderings end at the same depth, each in its own way. The compact text leaves out every
sequence there, the outline those that have elements, and an export fails for them. So an export
goes through exactly if the outline leaves nothing out, and if the compact text leaves out nothing
but empty sequences.

## Main definitions

* `Text.Elided`: the line of a sequence that was left out.
* `Text.Apart`: letters that are not both dots.
-/

namespace TokenStore

/-- The line of a sequence whose elements were left out. -/
def Text.Elided (line : List Char) : Prop :=
  ∃ column size : Nat, line = blanks column ++ (s!"SEQUENCE[{size}] ...").toList

/-! ## Lines of outlines -/

namespace Tree

section lines

variable {spaces depth : Nat} {t : Tree Nat}

/-- What a line says starts with a letter. -/
theorem head_body (t : Tree Nat) : ∀ c ∈ (plainBody t).toList.head?, c ≠ ' ' := by
  cases t with
  | user tag =>
    rcases toList_body_user tag with ⟨-, h⟩ | ⟨-, h⟩ | ⟨-, h⟩ | ⟨-, h⟩ | h <;> rw [h] <;> simp
  | _ => simp

/-- The line of a tree is marked exactly if the tree was cut. -/
theorem elided_outlineLine_iff {o : List Nat × Tree Nat} :
    Text.Elided (outlineLine spaces (fun _ => none) depth o) ↔ ∃ size, o.2 = .cut size := by
  obtain ⟨path, t⟩ := o
  constructor
  · rintro ⟨column, size, hline⟩
    have hblank : ∀ n, ∀ c ∈ Text.blanks n, c = ' ' := fun n c hc => List.eq_of_mem_replicate hc
    obtain ⟨-, hbody⟩ := Text.front_inj (hblank _) (hblank column) (head_body t)
      (head_body (.cut size)) hline
    have hlabel := label_of_body hbody
    cases t <;> cases hlabel
    exact ⟨size, rfl⟩
  · rintro ⟨size, rfl⟩
    exact ⟨_, size, rfl⟩

/-- An outline marks a line exactly if a tree in it was cut. -/
theorem exists_elided_iff (t : Tree Nat) (spaces : Nat) :
    (∃ line ∈ Text.lines (t.outline spaces fun _ => none), Text.Elided line) ↔
      ∃ path size, t.at? path = some (.cut size) := by
  rw [lines_outline fun o _ => inLine_body o.2]
  constructor
  · rintro ⟨line, hline, helided⟩
    obtain ⟨⟨path, u⟩, hmem, rfl⟩ := List.mem_map.mp hline
    obtain ⟨size, rfl⟩ := elided_outlineLine_iff.mp helided
    exact ⟨path, size, mem_occurrences.mp hmem⟩
  · rintro ⟨path, size, hpath⟩
    exact ⟨_, List.mem_map_of_mem (mem_occurrences.mpr hpath),
      elided_outlineLine_iff.mpr ⟨size, rfl⟩⟩

end lines

end Tree

/-! ## Dots in compact texts -/

namespace Text

/-- Not both of them are dots. -/
def Apart (c d : Char) : Prop := c = '.' → d ≠ '.'

theorem isChain_of_ne {w : List Char} (hw : ∀ c ∈ w, c ≠ '.') : w.IsChain Apart :=
  (List.pairwise_of_forall_mem_list fun c hc _ _ hdot => absurd hdot (hw c hc)).isChain

theorem isChain_append {w r : List Char} (hw : w.IsChain Apart) (hr : r.IsChain Apart)
    (hhead : ∀ c ∈ r.head?, c ≠ '.') : (w ++ r).IsChain Apart :=
  hw.append hr fun _ _ d hd _ => hhead d hd

theorem isChain_cons {c : Char} {r : List Char} (hc : c ≠ '.') (hr : r.IsChain Apart) :
    (c :: r).IsChain Apart :=
  List.isChain_cons.mpr ⟨fun _ _ hdot => absurd hdot hc, hr⟩

theorem ne_dot_digitChar : ∀ d < 16, d.digitChar ≠ '.' := by decide

/-- Between the dots of a byte string there are digits. -/
theorem isChain_dotted (data : List UInt8) : (dotted data).toList.IsChain Apart := by
  have hbyte (b : UInt8) {r : List Char} (hr : r.IsChain Apart) :
      (hexByte b ++ r).IsChain Apart := by
    have hb := b.toNat_lt
    have hhigh := ne_dot_digitChar (b.toNat / 16) (by omega)
    have hlow := ne_dot_digitChar (b.toNat % 16) (by omega)
    exact isChain_cons hhigh (isChain_cons hlow hr)
  have hmore : ∀ data, (moreBytes data ++ ['>']).IsChain Apart := by
    intro data
    induction data with
    | nil => exact .singleton _
    | cons b data ih =>
      have hfirst : ∀ c ∈ (hexByte b ++ (moreBytes data ++ ['>'])).head?, Apart '.' c := by
        rintro _ ⟨⟩ -
        exact ne_dot_digitChar _ (by have := b.toNat_lt; omega)
      have hsplit : moreBytes (b :: data) ++ ['>'] =
          '.' :: (hexByte b ++ (moreBytes data ++ ['>'])) := by simp [moreBytes]
      rw [hsplit]
      exact List.isChain_cons.mpr ⟨hfirst, hbyte b ih⟩
  rw [toList_dotted]
  refine isChain_cons (by decide) ?_
  cases data with
  | nil => exact .singleton _
  | cons b data =>
    rw [dots, List.append_assoc]
    exact hbyte b (hmore data)

end Text

namespace Tree

section dots

variable {t u : Tree Unit} {ts : List (Tree Unit)}

theorem isChain_word (ht : ∀ ts, t ≠ .seq ts) (hcut : ∀ stub, t ≠ .cut stub) :
    t.letters.IsChain Text.Apart := by
  have hdigits (base n : Nat) (hbase : 1 < base ∧ base ≤ 16) :
      ∀ c ∈ Nat.toDigits base n, c ≠ '.' :=
    Text.forall_mem_toDigits hbase.1 hbase.2 Text.ne_dot_digitChar n
  cases t with
  | seq ts => exact absurd rfl (ht ts)
  | cut stub => exact absurd rfl (hcut stub)
  | bytes data => exact Text.isChain_dotted data
  | sint value =>
    rw [letters, toList_compactSint]
    refine Text.isChain_of_ne ?_
    have := hdigits 16 value.toInt.natAbs (by decide)
    grind
  | uint value =>
    rw [letters, toList_compactUint]
    refine Text.isChain_of_ne ?_
    have := hdigits 16 value.toNat (by decide)
    grind
  | user tag =>
    refine Text.isChain_of_ne ?_
    have := hdigits 10 tag.code.toNat (by decide)
    grind [letters]

theorem head_lettersMore (ts : List (Tree Unit)) : ∀ c ∈ (lettersMore ts).head?, c ≠ '.' := by
  cases ts with
  | nil => simp [lettersMore]
  | cons t ts => simp [lettersMore]

theorem isChain_lettersMore (hts : ∀ t ∈ ts, t.letters.IsChain Text.Apart) :
    (lettersMore ts).IsChain Text.Apart := by
  induction ts with
  | nil => exact .singleton _
  | cons t ts ih =>
    obtain ⟨ht, hts⟩ := List.forall_mem_cons.mp hts
    exact Text.isChain_cons (by decide) (Text.isChain_append ht (ih hts) (head_lettersMore ts))

/-- Where nothing was cut, no two dots stand side by side. -/
theorem isChain_letters (ht : ∀ path stub, t.at? path ≠ some (.cut stub)) :
    t.letters.IsChain Text.Apart := by
  induction t using childrenInduction with
  | leaf t hleaf => exact isChain_word hleaf fun stub hcut => ht [] stub (by rw [hcut, at?_nil])
  | seq ts ih =>
    have hchildren : ∀ t ∈ ts, t.letters.IsChain Text.Apart := by
      intro t hmem
      obtain ⟨i, hi⟩ := List.getElem?_of_mem hmem
      refine ih t hmem fun path stub hcut => ht (i :: path) stub ?_
      rw [at?_cons, children, hi, Option.bind_some, hcut]
    refine Text.isChain_cons (by decide) ?_
    cases ts with
    | nil => exact .singleton _
    | cons t ts =>
      obtain ⟨ht, hts⟩ := List.forall_mem_cons.mp hchildren
      exact Text.isChain_append ht (isChain_lettersMore hts) (head_lettersMore ts)

theorem infix_lettersMore (ht : t ∈ ts) : t.letters <:+: lettersMore ts := by
  induction ts with
  | nil => cases ht
  | cons u ts ih =>
    rcases List.mem_cons.mp ht with rfl | ht
    · exact ⟨[' '], lettersMore ts, by simp [lettersMore]⟩
    · exact (ih ht).trans ⟨' ' :: u.letters, [], by simp [lettersMore]⟩

/-- What stands in a tree is written where it stands. -/
theorem infix_letters {path : List Nat} (hpath : t.at? path = some u) :
    u.letters <:+: t.letters := by
  induction path generalizing t with
  | nil =>
    rw [at?_nil] at hpath
    cases hpath
    exact List.infix_rfl
  | cons i path ih =>
    rw [at?_cons] at hpath
    obtain ⟨c, hc, hpath⟩ := Option.bind_eq_some_iff.mp hpath
    refine (ih hpath).trans ?_
    cases t with
    | seq ts =>
      have hc : c ∈ ts := List.mem_of_getElem? hc
      cases ts with
      | nil => cases hc
      | cons t ts =>
        rcases List.mem_cons.mp hc with rfl | hc
        · exact ⟨['('], lettersMore ts, by simp [letters, lettersInside]⟩
        · refine (infix_lettersMore hc).trans ⟨'(' :: t.letters, [], ?_⟩
          simp [letters, lettersInside]
    | _ => cases hc

/-- A compact text has an ellipsis exactly if something was cut. -/
theorem ellipsis_iff (t : Tree Unit) :
    ['.', '.', '.'] <:+: t.compact.toList ↔ ∃ path, t.at? path = some (.cut ()) := by
  rw [toList_compact]
  constructor
  · intro hdots
    by_contra hnone
    have hchain := isChain_letters fun path _ hcut => hnone ⟨path, hcut⟩
    have := hchain.infix hdots
    simp [Text.Apart] at this
  · rintro ⟨path, hpath⟩
    exact infix_letters hpath

end dots

end Tree

/-! ## Where trees are cut -/

/-- A tree that was cut is seen as a stub, and nothing else is. -/
theorem Tree.at?_eq_cut_iff {Stub : Type} {mark : Stub → Option Nat}
    (hmark : Function.Injective mark) {t : Tree Stub} {path : List Nat} {stub : Stub} :
    t.at? path = some (.cut stub) ↔ t.unfolding mark path = some (.stub (mark stub)) := by
  rw [unfolding_eq_map_at?, Option.map_eq_some_iff]
  constructor
  · intro hcut
    exact ⟨_, hcut, rfl⟩
  · rintro ⟨u, hu, hlabel⟩
    cases u with
    | cut stub' =>
      have hstub : mark stub' = mark stub := Label.stub.inj hlabel
      rw [hu, hmark hstub]
    | _ => cases hlabel

/-- What stands for a sequence at the depth of a cut stands nowhere else. -/
theorem Unfolding.cut_eq_stub_iff {u : Unfolding} (hu : ∀ path size, u path ≠ some (.stub size))
    {stub : Nat → Label} {depth : Nat} {path : List Nat} {size : Option Nat} :
    u.cut stub depth path = some (.stub size) ↔
      path.length = depth ∧ ∃ n, u path = some (.sequence n) ∧ stub n = .stub size := by
  have hstub : ∀ l, u path = some l →
      (l.cut stub = .stub size ↔ ∃ n, l = .sequence n ∧ stub n = .stub size) := by
    intro l hl
    cases l with
    | stub size => exact absurd hl (hu path size)
    | _ => simp [Label.cut]
  unfold cut
  cases hl : u path with
  | none => simp
  | some l =>
    have hiff := hstub l hl
    have hne : l ≠ .stub size := fun heq => hu path size (heq ▸ hl)
    grind

namespace Arena

variable {a : Arena} {h : Handle}

theorem label_eq_sequence_iff {s : Handle} {n : Nat} :
    a.label s = .ok (.sequence n) ↔ a.length s = .ok n := by
  have hlength : a.length s = .ok n ↔
      ∃ id e, a.token s = .ok (.sequence id) ∧ a.list id = .ok e ∧ e.size = n := by
    simp only [length, elementsOf, Outcome.bind_eq_ok_iff, listOf_eq_ok_iff, Outcome.pure_eq_ok,
      Except.ok.injEq]
    grind
  simp only [hlength, label, Outcome.bind_eq_ok_iff]
  constructor
  · rintro ⟨t, ht, hlabel⟩
    cases t <;> simp_all [Outcome.bind_eq_ok_iff]
  · rintro ⟨id, e, ht, he, hsize⟩
    exact ⟨_, ht, by simp [he, ← hsize]⟩

theorem unfolding_eq_some_iff {path : List Nat} {l : Label} :
    a.unfolding h path = some l ↔ ∃ s, a.follow h path = .ok s ∧ a.label s = .ok l := by
  unfold unfolding
  cases a.follow h path with
  | error e => simp [Except.toOption]
  | ok s => cases hs : a.label s <;> simp [Except.toOption, hs]

theorem unfolding_ne_stub (a : Arena) (h : Handle) (path : List Nat) (size : Option Nat) :
    a.unfolding h path ≠ some (.stub size) := by
  rw [ne_eq, unfolding_eq_some_iff]
  rintro ⟨s, -, hs⟩
  obtain ⟨t, -, hs⟩ := Outcome.bind_eq_ok_iff.mp hs
  cases t <;> simp [Outcome.bind_eq_ok_iff] at hs

theorem exists_element_iff {s : Handle} :
    (∃ i x, a.element s i = .ok x) ↔ ∃ n, a.length s = .ok n ∧ 0 < n := by
  unfold element length
  cases a.elementsOf s with
  | error e => simp
  | ok e =>
    simp only [Outcome.ok_bind, Elements.get, Elements.get?_eq, Elements.size_eq_length,
      Outcome.pure_eq_ok, Except.ok.injEq]
    constructor
    · rintro ⟨i, x, hx⟩
      cases hi : e.toList[i]? with
      | none => simp [hi] at hx
      | some y => exact ⟨_, rfl, Nat.zero_lt_of_lt (List.getElem?_eq_some_iff.mp hi).1⟩
    · rintro ⟨_, rfl, hpos⟩
      exact ⟨0, e.toList[0], by simp [hpos]⟩

theorem follow_concat (a : Arena) (h : Handle) (path : List Nat) (i : Nat) :
    a.follow h (path ++ [i]) = a.follow h path >>= (a.element · i) := by
  simp only [follow, List.foldlM_append, List.foldlM_cons, List.foldlM_nil, bind_pure]

/-- A path can be made longer exactly if it leads to a sequence that has elements. -/
theorem exists_follow_succ_iff (m : Nat) :
    (∃ path x, path.length = m + 1 ∧ a.follow h path = .ok x) ↔
      ∃ path s n, path.length = m ∧ a.follow h path = .ok s ∧ a.length s = .ok n ∧ 0 < n := by
  constructor
  · rintro ⟨path, x, hlength, hx⟩
    obtain rfl | ⟨path, i, rfl⟩ := path.eq_nil_or_concat'
    · cases hlength
    · rw [follow_concat] at hx
      obtain ⟨s, hs, hx⟩ := Outcome.bind_eq_ok_iff.mp hx
      obtain ⟨n, hn, hpos⟩ := exists_element_iff.mp ⟨i, x, hx⟩
      exact ⟨path, s, n, by simpa using hlength, hs, hn, hpos⟩
  · rintro ⟨path, s, n, hlength, hs, hn⟩
    obtain ⟨i, x, hx⟩ := exists_element_iff.mpr ⟨n, hn⟩
    refine ⟨path ++ [i], x, by simp [hlength], ?_⟩
    rw [follow_concat, hs, Outcome.ok_bind, hx]

/-! ## Renderings at the same depth -/

/-- The tree that a compact text is written from. -/
theorem Layout.exists_compactTree (ha : a.Layout)
    (hh : ∀ x, a.links.Reaches h x → x ∈ a.handles) :
    ∃ t : Tree Unit, a.compactTree h = .ok t ∧
      t.unfolding (fun _ => none) = (a.unfolding h).cut elided 256 := by
  have hlimit : ∀ n, ∃ t, Tree.compactLimit n = .ok t ∧ t.children = [] ∧
      t.label (fun _ => none) = elided n := fun _ => ⟨_, rfl, rfl, rfl⟩
  exact ha.exists_unfold hh hlimit maxDepth

/-- What a compact text leaves out: the sequences at the greatest depth. -/
theorem compact_cut_iff {t : Tree Unit}
    (ht : t.unfolding (fun _ => none) = (a.unfolding h).cut elided 256) {path : List Nat} :
    t.at? path = some (.cut ()) ↔
      path.length = 256 ∧ ∃ s n, a.follow h path = .ok s ∧ a.length s = .ok n := by
  have hcut : t.at? path = some (.cut ()) ↔
      (a.unfolding h).cut elided 256 path = some (.stub none) := by
    rw [← ht, Tree.at?_eq_cut_iff fun _ _ _ => rfl]
  rw [hcut, Unfolding.cut_eq_stub_iff (a.unfolding_ne_stub h)]
  simp only [unfolding_eq_some_iff, label_eq_sequence_iff, elided, and_true]
  grind

/-- What an outline leaves out: the sequences at its depth that have elements. -/
theorem outline_cut_iff {t : Tree Nat} {m : Nat}
    (ht : t.unfolding some = (a.unfolding h).cut lengthOnly m) {path : List Nat} {n : Nat} :
    t.at? path = some (.cut n) ↔
      path.length = m ∧ ∃ s, a.follow h path = .ok s ∧ a.length s = .ok n ∧ 0 < n := by
  have hcut : t.at? path = some (.cut n) ↔
      (a.unfolding h).cut lengthOnly m path = some (.stub (some n)) := by
    rw [← ht, Tree.at?_eq_cut_iff fun _ _ => Option.some.inj]
  rw [hcut, Unfolding.cut_eq_stub_iff (a.unfolding_ne_stub h)]
  simp only [unfolding_eq_some_iff, label_eq_sequence_iff, lengthOnly]
  grind

/-- An export fails exactly if there is a path one level below the greatest depth. -/
theorem Layout.export_error_iff (ha : a.Layout) (hh : ∀ x, a.links.Reaches h x → x ∈ a.handles) :
    ((∃ e, a.jsonText h = .error e) ↔ ∃ path x, path.length = 257 ∧ a.follow h path = .ok x) ∧
      ((∃ e, a.toJson h = .error e) ↔ ∃ path x, path.length = 257 ∧ a.follow h path = .ok x) := by
  rcases ha.exportTree_cases hh with ⟨herror, hpath⟩ | ⟨t, ht, -, hshort⟩
  · exact ⟨iff_of_true ⟨tooDeep, by simp [jsonText, herror]⟩ hpath,
      iff_of_true ⟨tooDeep, by simp [toJson, herror]⟩ hpath⟩
  · have hnone : ¬ ∃ path x, path.length = 257 ∧ a.follow h path = .ok x := by
      rintro ⟨path, x, hlength, hx⟩
      have := hshort path x hx
      omega
    exact ⟨iff_of_false (by simp [jsonText, ht]) hnone, iff_of_false (by simp [toJson, ht]) hnone⟩

/-- An outline marks a line exactly if a path goes on below its depth. -/
theorem Layout.outline_elided_iff (ha : a.Layout)
    (hh : ∀ x, a.links.Reaches h x → x ∈ a.handles) (indent m : Nat) :
    ∃ text, a.outline ⟨indent, m⟩ none h = .ok text ∧
      ((∃ line ∈ Text.lines text, Text.Elided line) ↔
        ∃ path x, path.length = m + 1 ∧ a.follow h path = .ok x) := by
  obtain ⟨t, ht, htree⟩ := ha.exists_outline hh ⟨indent, m⟩ none
  refine ⟨_, ht, (t.exists_elided_iff indent).trans ?_⟩
  simp only [outline_cut_iff htree, exists_follow_succ_iff]
  grind

/-- Whatever has no missing token below it, even a cycle, has a compact text and outlines. An export
fails exactly if the outline at the same depth marks a line, and exactly if the compact text leaves
out a sequence that has elements. So there is an export if the compact text leaves out nothing, and
if there is one, all that the compact text leaves out is empty. An outline at any depth marks a line
exactly if a path goes on below that depth. -/
theorem depths_line_up (ha : a.Built) (hh : ∀ x, a.links.Reaches h x → x ∈ a.handles) :
    ∃ t : Tree Unit, a.compactTree h = .ok t ∧ a.compact h = .ok t.compact ∧
      (∀ indent, List.TFAE [
        ∃ e, a.jsonText h = .error e,
        ∃ e, a.toJson h = .error e,
        ∃ text, a.outline ⟨indent, 256⟩ none h = .ok text ∧
          ∃ line ∈ Text.lines text, Text.Elided line,
        ∃ path s n, t.at? path = some (.cut ()) ∧
          a.follow h path = .ok s ∧ a.length s = .ok n ∧ 0 < n]) ∧
      (¬ ['.', '.', '.'] <:+: t.compact.toList →
        ∃ v, a.toJson h = .ok v ∧ a.jsonText h = .ok v.compact) ∧
      (∀ v, a.toJson h = .ok v → ∀ path, t.at? path = some (.cut ()) →
        ∃ s, a.follow h path = .ok s ∧ a.length s = .ok 0) ∧
      ∀ indent m, ∃ text, a.outline ⟨indent, m⟩ none h = .ok text ∧
        ((∃ line ∈ Text.lines text, Text.Elided line) ↔
          ∃ path x, path.length = m + 1 ∧ a.follow h path = .ok x) := by
  obtain ⟨t, ht, htree⟩ := ha.layout.exists_compactTree hh
  obtain ⟨htext, hjson⟩ := ha.layout.export_error_iff hh
  have hlong : (∃ path s n, t.at? path = some (.cut ()) ∧
      a.follow h path = .ok s ∧ a.length s = .ok n ∧ 0 < n) ↔
        ∃ path x, path.length = 257 ∧ a.follow h path = .ok x := by
    simp only [compact_cut_iff htree, exists_follow_succ_iff]
    grind
  refine ⟨t, ht, by rw [compact, ht]; rfl, fun indent => ?_, fun hdots => ?_,
    fun v hv path hpath => ?_, ha.layout.outline_elided_iff hh⟩
  · have houtline : (∃ text, a.outline ⟨indent, 256⟩ none h = .ok text ∧
        ∃ line ∈ Text.lines text, Text.Elided line) ↔
          ∃ path x, path.length = 257 ∧ a.follow h path = .ok x := by
      obtain ⟨text, htext, hmarked⟩ := ha.layout.outline_elided_iff hh indent 256
      simp [htext, hmarked]
    tfae_have 1 ↔ 4 := htext.trans hlong.symm
    tfae_have 2 ↔ 4 := hjson.trans hlong.symm
    tfae_have 3 ↔ 4 := houtline.trans hlong.symm
    tfae_finish
  · rcases ha.layout.exportTree_cases hh with ⟨-, hpath⟩ | ⟨u, hu, -, -⟩
    · obtain ⟨path, s, n, hcut, -⟩ := hlong.mpr hpath
      exact absurd (t.ellipsis_iff.mpr ⟨path, hcut⟩) hdots
    · exact ⟨_, toJson_of_exportTree hu⟩
  · obtain ⟨-, s, n, hs, hn⟩ := (compact_cut_iff htree).mp hpath
    have hempty : n = 0 := by
      by_contra hne
      have hpos := Nat.pos_of_ne_zero hne
      obtain ⟨e, he⟩ := hjson.mpr (hlong.mp ⟨path, s, n, hpath, hs, hn, hpos⟩)
      cases hv.symm.trans he
    exact ⟨s, hs, hempty ▸ hn⟩

/-- Every rendering of the sequence in itself ends at its depth. The compact text of a number beside
an application's value leaves nothing out, so there is an export. -/
theorem depths_line_up_loop_mixed :
    ((∃ e, loop.jsonText ⟨0⟩ = .error e) ∧
      ∃ text, loop.outline ⟨2, 256⟩ none ⟨0⟩ = .ok text ∧
        ∃ line ∈ Text.lines text, Text.Elided line) ∧
    mixed.compact ⟨3⟩ = .ok "(u0x7 user:64)" ∧ ∃ v, mixed.toJson ⟨3⟩ = .ok v := by
  have hloop : loop.Built := built_after _
  have hmixed : mixed.Built := built_after _
  have hissued := hloop.layout.mem_handles_of_reaches (h := ⟨0⟩) (by decide) (by decide)
  have hissued' := hmixed.layout.mem_handles_of_reaches (h := ⟨3⟩) (by decide) (by decide)
  constructor
  · obtain ⟨_, -, -, hsame, -, -, hlines⟩ := depths_line_up hloop hissued
    obtain ⟨text, htext, hmarked⟩ := hlines 2 256
    have hlong : ∃ path x, path.length = 257 ∧ loop.follow ⟨0⟩ path = .ok x := by
      have hcycle : loop.cells.links.Holds ⟨0⟩ ⟨0⟩ := ⟨[⟨0⟩], rfl, List.mem_singleton_self _⟩
      simp only [hloop.layout.follow_cells]
      exact Cells.exists_follow_of_cycle (.single hcycle) (.refl _) 257
    have houtline : ∃ text, loop.outline ⟨2, 256⟩ none ⟨0⟩ = .ok text ∧
        ∃ line ∈ Text.lines text, Text.Elided line := ⟨text, htext, hmarked.mpr hlong⟩
    exact ⟨((hsame 2).out 2 0).mp houtline, houtline⟩
  · have hcompact : mixed.compact ⟨3⟩ = .ok "(u0x7 user:64)" := by decide +kernel
    obtain ⟨t, -, htext, -, hwhole, -⟩ := depths_line_up hmixed hissued'
    have hletters : t.compact = "(u0x7 user:64)" := Except.ok.inj (htext.symm.trans hcompact)
    obtain ⟨v, hv, -⟩ := hwhole (by rw [hletters]; decide +kernel)
    exact ⟨hcompact, v, hv⟩

end Arena

end TokenStore
