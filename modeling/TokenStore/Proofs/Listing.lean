import Mathlib.Data.List.Sort
import TokenStore.Proofs.Elision
import TokenStore.Proofs.TagTable

/-!
# Outlines line by line

An outline has one line for every token down to its depth, as often as paths lead to it, and each
line says at its indent what token it is of. An outline that goes deeper has the same lines but for
the marks of sequences that are no longer cut, and further ones below.

## Main definitions

* `Text.quotedByte`, `Text.dottedByte`: the letters of one byte.
* `Label.Told`: what a line says of a token.
* `Arena.Itemized`: the lines of an outline, with the paths to the tokens that they are of.
* `Stroke`, `Page.draw`: whatever can be put on a page.
-/

namespace TokenStore

/-! ## Lines with names -/

theorem Tag.inLine_builtinName? {tag : Tag} {name : String} (h : tag.builtinName? = some name) :
    ∀ c ∈ name.toList, Text.InLine c := by
  have hword : name ∈ ["BYTES", "SINT", "UINT", "SEQUENCE"] := by
    grind [builtinName?]
  simp only [List.mem_cons, List.not_mem_nil, or_false] at hword
  rcases hword with rfl | rfl | rfl | rfl <;> simp [Text.InLine]

theorem TagTable.inLine_name? {t : TagTable} (ht : ∀ name ∈ t.names, '\n' ∉ name.toList) {tag : Tag}
    {name : String} (h : t.name? tag = some name) : ∀ c ∈ name.toList, Text.InLine c := by
  unfold name? at h
  split at h
  next hbuiltin =>
    cases h
    exact Tag.inLine_builtinName? hbuiltin
  next =>
    split at h
    · rintro c hc rfl
      exact ht name (Array.mem_of_getElem? h) hc
    · cases h

/-- No line goes on into the next one if no name does. -/
theorem Tree.inLine_body_of_names {name? : Tag → Option String}
    (hnames : ∀ tag name, name? tag = some name → ∀ c ∈ name.toList, Text.InLine c)
    (t : Tree Nat) : ∀ c ∈ (body name? t).toList, Text.InLine c := by
  have hplain : (∀ tag, t ≠ .user tag) → body name? t = plainBody t := by
    cases t <;> simp [plainBody, body]
  cases t with
  | user tag =>
    cases hname : name? tag with
    | none => simpa [body, hname] using inLine_body (.user tag)
    | some name => simpa [body, hname] using hnames tag name hname
  | _ => exact hplain nofun ▸ inLine_body _

/-! ## What lines say -/

namespace Text

/-- A printable byte as it stands between quotes. -/
def quotedByte (b : UInt8) : List Char :=
  if b = 0x22 ∨ b = 0x27 ∨ b = 0x5c then ['\\', Char.ofNat b.toNat] else [Char.ofNat b.toNat]

/-- A byte as it stands between dots. -/
def dottedByte (b : UInt8) : List Char := (Nat.toDigits 16 b.toNat).leftpad 2 '0'

theorem escapeAscii_eq : escapeAscii = quotedByte := by
  funext b
  have hdouble : Char.ofNat b.toNat = '"' ↔ b = 0x22 :=
    ⟨fun heq => charOf_inj (c := 0x22) heq, by rintro rfl; rfl⟩
  have hsingle : Char.ofNat b.toNat = '\'' ↔ b = 0x27 :=
    ⟨fun heq => charOf_inj (c := 0x27) heq, by rintro rfl; rfl⟩
  have hbackslash : Char.ofNat b.toNat = '\\' ↔ b = 0x5c :=
    ⟨fun heq => charOf_inj (c := 0x5c) heq, by rintro rfl; rfl⟩
  simp only [escapeAscii, quotedByte, hdouble, hsingle, hbackslash]

theorem hexByte_eq : hexByte = dottedByte := by
  have hall : ∀ n < 256, [(n / 16).digitChar, (n % 16).digitChar] =
      (Nat.toDigits 16 n).leftpad 2 '0' := by decide +kernel
  funext b
  exact hall b.toNat b.toNat_lt

end Text

/-- What an outline says of a token where it goes deeper, or where it does not, in the `last` of its
levels. -/
inductive Label.Told (names : Option TagTable) (last : Prop) : Label → String → Prop where
  | sequence {n : Nat} (whole : last → n = 0) : Told names last (.sequence n) s!"SEQUENCE[{n}]"
  | marked {n : Nat} (cut : last) (hn : 0 < n) :
      Told names last (.sequence n) s!"SEQUENCE[{n}] ..."
  | quoted {data : List UInt8} (printable : ∀ b ∈ data, 0x20 ≤ b ∧ b ≤ 0x7e) :
      Told names last (.bytes data)
        (String.ofList ("BYTES \"".toList ++ data.flatMap Text.quotedByte ++ ['"']))
  | dotted {data : List UInt8} (unprintable : ∃ b ∈ data, ¬ (0x20 ≤ b ∧ b ≤ 0x7e)) :
      Told names last (.bytes data)
        (String.ofList ("BYTES <".toList ++ ['.'].intercalate (data.map Text.dottedByte) ++ ['>']))
  | sint {value : Int64} : Told names last (.sint value) s!"SINT {value.toInt}"
  | uint {value : UInt64} : Told names last (.uint value) s!"UINT {value.toNat}"
  | named {tag : Tag} {name : String} (hname : ∃ t ∈ names, t.name? tag = some name) :
      Told names last (.user tag) name
  | unnamed {tag : Tag} (hnone : ∀ t ∈ names, t.name? tag = none) :
      Told names last (.user tag) s!"USER({tag.code.toNat})"

/-- Where an outline goes deeper it says the same, or a mark is gone. -/
theorem Label.Told.of_deeper {names : Option TagTable} {last last' : Prop} {l : Label}
    {s s' : String} (hs : l.Told names last s) (hs' : l.Told names last' s') (h : last' → last) :
    s = s' ∨ s = s' ++ " ..." := by
  cases hs with
  | sequence whole =>
    cases hs' with
    | sequence => exact .inl rfl
    | marked cut hn => exact absurd (whole (h cut)) hn.ne'
  | @marked n cut hn =>
    cases hs' with
    | sequence =>
      have hmark : s!"SEQUENCE[{n}] ..." = s!"SEQUENCE[{n}]" ++ " ..." := by
        simp [String.ext_iff]
        rfl
      exact .inr hmark
    | marked => exact .inl rfl
  | quoted | dotted | sint | uint | named | unnamed => cases hs' <;> grind [Option.mem_def]

/-- At the same depth there is one thing to say of a token. -/
theorem Label.Told.unique {names : Option TagTable} {last : Prop} {l : Label} {s s' : String}
    (hs : l.Told names last s) (hs' : l.Told names last s') : s = s' := by
  rcases hs.of_deeper hs' id with heq | heq
  · exact heq
  rcases hs'.of_deeper hs id with heq' | heq'
  · exact heq'.symm
  have hlength := congrArg String.length heq
  rw [heq', String.length_append, String.length_append] at hlength
  have hmark : " ...".length = 4 := by decide
  omega

/-- The line of a tree tells of the token that it was made for. -/
theorem Label.told_body {names : Option TagTable} {last : Prop} [Decidable last] {l : Label}
    {u : Tree Nat} (hstub : ∀ size, l ≠ .stub size) (huser : ∀ tag, l = .user tag → tag.isUser)
    (hu : u.label some = if last then l.cut Arena.lengthOnly else l) :
    l.Told names last (Tree.body (fun tag => names.bind (·.name? tag)) u) := by
  cases l with
  | stub size => exact absurd rfl (hstub size)
  | sequence n =>
    by_cases hcut : last ∧ 0 < n
    · have hu : u.label some = .stub (some n) := by
        simp [hu, hcut.1, cut, Arena.lengthOnly, hcut.2.ne']
      cases u <;> cases hu
      exact .marked hcut.1 hcut.2
    · have hwhole : last → n = 0 := by grind
      have hu : u.label some = .sequence n := by grind [cut, Arena.lengthOnly]
      cases u <;> cases hu
      exact .sequence hwhole
  | bytes data =>
    have hu : u.label some = .bytes data := by simpa [cut] using hu
    cases u <;> cases hu
    by_cases hdata : data.all Text.isPrintable
    · have hprintable : ∀ b ∈ data, 0x20 ≤ b ∧ b ≤ 0x7e := by simpa [Text.isPrintable] using hdata
      have hbody : "BYTES " ++ Text.quotedAscii data =
          String.ofList ("BYTES \"".toList ++ data.flatMap Text.quotedByte ++ ['"']) := by
        simp [String.ext_iff, Text.escapeAscii_eq]
      rw [Tree.body, Tree.bodyOfBytes, if_pos hdata, hbody]
      exact .quoted hprintable
    · have hunprintable : ∃ b ∈ data, ¬ (0x20 ≤ b ∧ b ≤ 0x7e) := by
        simpa [Text.isPrintable] using hdata
      have hbody : "BYTES " ++ Text.dotted data =
          String.ofList
            ("BYTES <".toList ++ ['.'].intercalate (data.map Text.dottedByte) ++ ['>']) := by
        simp [String.ext_iff, Text.dotted, Text.hexByte_eq]
      rw [Tree.body, Tree.bodyOfBytes, if_neg hdata, hbody]
      exact .dotted hunprintable
  | sint value =>
    have hu : u.label some = .sint value := by simpa [cut] using hu
    cases u <;> cases hu
    exact .sint
  | uint value =>
    have hu : u.label some = .uint value := by simpa [cut] using hu
    cases u <;> cases hu
    exact .uint
  | user tag =>
    have hu : u.label some = .user tag := by simpa [cut] using hu
    have htext : tag.text = s!"USER({tag.code.toNat})" := by
      rw [Tag.text, Tag.builtinName?_eq_none_of_isUser (huser tag rfl)]
    cases u <;> cases hu
    cases hname : names.bind (·.name? tag) with
    | some name =>
      rw [Tree.body, hname]
      exact .named (Option.bind_eq_some_iff.mp hname)
    | none =>
      rw [Tree.body, hname, Option.getD_none, htext]
      exact .unnamed (Option.bind_eq_none_iff.mp hname)

/-! ## Whatever is put on a page -/

/-- Something to put on a page. -/
inductive Stroke where
  | indent (depth : Nat)
  | text (s : String)
  | newline

def Page.put (p : Page) : Stroke → Page
  | .indent depth => p.indent depth
  | .text s => p.write s
  | .newline => p.newline

def Page.draw (p : Page) (strokes : List Stroke) : Page := strokes.foldl put p

/-- The letters that a stroke leaves, if it is not asked what was on the page before. -/
def Stroke.letters (spaces : Nat) : Stroke → List Char
  | .indent depth => Text.blanks (depth * spaces)
  | .text s => s.toList
  | .newline => ['\n']

namespace Page

variable {spaces : Nat} {p : Page}

theorem Ruled.put (h : p.Ruled spaces) (stroke : Stroke) :
    (p.put stroke).Ruled spaces ∧
      (p.put stroke).text.toList = p.text.toList ++ stroke.letters spaces := by
  cases stroke with
  | indent depth => exact h.indent depth
  | text s => exact ⟨h.write s, String.toList_append⟩
  | newline => exact ⟨h.newline, String.toList_push '\n'⟩

/-- The indents worked out on the way do not show. -/
theorem Ruled.draw (h : p.Ruled spaces) (strokes : List Stroke) :
    (p.draw strokes).text.toList = p.text.toList ++ strokes.flatMap (Stroke.letters spaces) := by
  induction strokes generalizing p with
  | nil => simp [Page.draw]
  | cons stroke strokes ih =>
    obtain ⟨hruled, htext⟩ := h.put stroke
    rw [List.flatMap_cons, ← List.append_assoc, ← htext]
    exact ih hruled

end Page

/-! ## Lines with their paths -/

namespace Tree

variable {spaces : Nat} {name? : Tag → Option String} {t : Tree Nat}

/-- The lines of a tree, each with the path to what it is of. -/
def items (spaces : Nat) (name? : Tag → Option String) (t : Tree Nat) :
    List (List Nat × List Char) :=
  t.occurrences.map fun o => (o.1, outlineLine spaces name? 0 o)

theorem map_fst_items : (t.items spaces name?).map Prod.fst = t.paths := by
  rw [items, List.map_map]
  rfl

theorem map_snd_items :
    (t.items spaces name?).map Prod.snd = t.occurrences.map (outlineLine spaces name? 0) := by
  rw [items, List.map_map]
  rfl

theorem lines_outline_items (t : Tree Nat) (spaces : Nat)
    (hname : ∀ tag name, name? tag = some name → ∀ c ∈ name.toList, Text.InLine c) :
    Text.lines (t.outline spaces name?) = (t.items spaces name?).map Prod.snd := by
  rw [map_snd_items]
  exact lines_outline fun o _ => inLine_body_of_names hname o.2

theorem mem_items {path : List Nat} {line : List Char} :
    (path, line) ∈ t.items spaces name? ↔ ∃ u, t.at? path = some u ∧
      line = Text.blanks (path.length * spaces) ++ (body name? u).toList := by
  simp only [items, List.mem_map, Prod.exists, Prod.mk.injEq, mem_occurrences, outlineLine]
  grind

section cut

variable {u : Unfolding} {stub : Nat → Label} {m : Nat} {path : List Nat}
  (ht : t.unfolding some = u.cut stub m)
include ht

/-- What stands in a tree was there before it was cut. -/
theorem label_of_cut {v : Tree Nat} (hv : t.at? path = some v) :
    ∃ l, u path = some l ∧ v.label some = if path.length = m then l.cut stub else l := by
  have hlabel : u.cut stub m path = some (v.label some) := by
    rw [← ht, unfolding_eq_map_at?, hv, Option.map_some]
  exact (Unfolding.cut_eq_some_iff.mp hlabel).2

/-- A cut tree has the paths that are not too long. -/
theorem mem_paths_of_cut : path ∈ t.paths ↔ path.length ≤ m ∧ ∃ l, u path = some l := by
  have hcut : (∃ l, u.cut stub m path = some l) ↔ path.length ≤ m ∧ ∃ l, u path = some l := by
    simp only [Unfolding.cut_eq_some_iff]
    grind
  rw [mem_paths, ← hcut, ← ht, unfolding_eq_map_at?]
  cases t.at? path <;> simp

end cut

end Tree

/-! ## Lines of an outline -/

namespace Arena

variable {a : Arena} {h : Handle}

theorem Layout.exists_unfolding_iff (ha : a.Layout)
    (hh : ∀ x, a.links.Reaches h x → x ∈ a.handles) (path : List Nat) :
    (∃ l, a.unfolding h path = some l) ↔ ∃ s, a.follow h path = .ok s := by
  rw [ha.unfolding_cells, ha.follow_cells]
  exact Cells.exists_unfolding_iff (ha.found_of_issued hh)

theorem Layout.user_of_unfolding (ha : a.Layout) {path : List Nat} {tag : Tag}
    (hpath : a.unfolding h path = some (.user tag)) : tag.isUser := by
  obtain ⟨s, -, hs⟩ := unfolding_eq_some_iff.mp hpath
  obtain ⟨t, ht, hs⟩ := Outcome.bind_eq_ok_iff.mp hs
  cases t with
  | user tag' slot =>
    cases hs
    exact (Tag.isUser_iff tag).mpr (ha.tag_le ht)
  | _ => simp [Outcome.bind_eq_ok_iff] at hs

/-- Lines with the paths to the tokens that they are of, which are all lines of an outline. -/
structure Itemized (a : Arena) (h : Handle) (o : OutlineOptions) (names : Option TagTable)
    (items : List (List Nat × List Char)) : Prop where
  /-- The text splits into the lines. There is a line end between any two of them, and none after
  the last one. -/
  text : ∃ text, a.outline o names h = .ok text ∧ Text.lines text = items.map Prod.snd ∧
    text.toList = ['\n'].intercalate (items.map Prod.snd)
  /-- There is a line for every path that does not go too deep. -/
  paths : ∀ path, path ∈ items.map Prod.fst ↔
    path.length ≤ o.maxDepth ∧ ∃ s, a.follow h path = .ok s
  /-- A token comes before those below it, and those come in order. -/
  order : (items.map Prod.fst).Pairwise (· < ·)
  told : ∀ path line, (path, line) ∈ items → ∃ l s, a.unfolding h path = some l ∧
    l.Told names (path.length = o.maxDepth) s ∧
      line = Text.blanks (path.length * o.indent) ++ s.toList

/-- An outline has the lines of the tree that it is written from. -/
theorem Layout.exists_itemized (ha : a.Layout) (hh : ∀ x, a.links.Reaches h x → x ∈ a.handles)
    (o : OutlineOptions) {names : Option TagTable}
    (hnames : ∀ t ∈ names, ∀ name ∈ t.names, '\n' ∉ name.toList) :
    ∃ items, a.Itemized h o names items := by
  obtain ⟨t, houtline, htree⟩ := ha.exists_outline hh o names
  have hinline : ∀ tag name, names.bind (·.name? tag) = some name →
      ∀ c ∈ name.toList, Text.InLine c := by
    intro tag name hname
    obtain ⟨table, htable, hname⟩ := Option.bind_eq_some_iff.mp hname
    exact TagTable.inLine_name? (hnames table htable) hname
  have hlines := t.lines_outline_items o.indent hinline
  refine ⟨t.items o.indent fun tag => names.bind (·.name? tag), ?_⟩
  constructor
  case text =>
    refine ⟨_, houtline, hlines, ?_⟩
    rw [← hlines]
    exact (List.intercalate_splitOn '\n').symm
  case paths =>
    intro path
    rw [Tree.map_fst_items, Tree.mem_paths_of_cut htree, ha.exists_unfolding_iff hh]
  case order => exact Tree.map_fst_items ▸ t.pairwise_paths
  case told =>
    intro path line hmem
    obtain ⟨u, hu, hline⟩ := Tree.mem_items.mp hmem
    obtain ⟨l, hl, hcut⟩ := Tree.label_of_cut htree hu
    have hstub : ∀ size, l ≠ .stub size :=
      fun size heq => a.unfolding_ne_stub h path size (heq ▸ hl)
    have huser : ∀ tag, l = .user tag → tag.isUser := fun tag heq => ha.user_of_unfolding (heq ▸ hl)
    exact ⟨l, _, hl, Label.told_body hstub huser hcut, hline⟩

/-- What is told of a token stands on a line of the outline. -/
theorem Itemized.mem_of_told {o : OutlineOptions} {names : Option TagTable}
    {items : List (List Nat × List Char)} (hitems : a.Itemized h o names items) {path : List Nat}
    {l : Label} {s : String} (hle : path.length ≤ o.maxDepth) (hl : a.unfolding h path = some l)
    (hs : l.Told names (path.length = o.maxDepth) s) :
    (path, Text.blanks (path.length * o.indent) ++ s.toList) ∈ items := by
  have hfollow := (unfolding_eq_some_iff.mp hl).imp fun x hx => hx.1
  obtain ⟨⟨path, line⟩, hmem, rfl⟩ := List.mem_map.mp ((hitems.paths path).mpr ⟨hle, hfollow⟩)
  obtain ⟨l', s', hl', hs', rfl⟩ := hitems.told path line hmem
  obtain rfl : l = l' := Option.some.inj (hl.symm.trans hl')
  rwa [hs.unique hs']

/-! ## Outlines that go deeper -/

/-- Lines of the same token, of which the `old` one may still have a mark that the `new` one has no
more. -/
def Unmarked (old new : List Nat × List Char) : Prop :=
  old.1 = new.1 ∧ (old.2 = new.2 ∨ old.2 = new.2 ++ " ...".toList)

section deeper

variable {spaces m n : Nat} {names : Option TagTable} {items items' : List (List Nat × List Char)}

theorem Itemized.unmarked (hitems : a.Itemized h ⟨spaces, m⟩ names items)
    (hitems' : a.Itemized h ⟨spaces, n⟩ names items') (hmn : m ≤ n) {path : List Nat}
    {line line' : List Char} (hold : (path, line) ∈ items) (hnew : (path, line') ∈ items') :
    line = line' ∨ line = line' ++ " ...".toList := by
  have hle : path.length ≤ m :=
    ((hitems.paths path).mp (List.mem_map_of_mem hold)).1
  obtain ⟨l, s, hl, hs, rfl⟩ := hitems.told path line hold
  obtain ⟨l', s', hl', hs', rfl⟩ := hitems'.told path line' hnew
  obtain rfl : l = l' := Option.some.inj (hl.symm.trans hl')
  have hlast : path.length = n → path.length = m := by omega
  rcases hs.of_deeper hs' hlast with rfl | rfl
  · exact .inl rfl
  · exact .inr (by rw [String.toList_append, List.append_assoc])

/-- Going deeper takes marks away and adds lines below the old depth, and nothing else. -/
theorem Itemized.deeper (hitems : a.Itemized h ⟨spaces, m⟩ names items)
    (hitems' : a.Itemized h ⟨spaces, n⟩ names items') (hmn : m ≤ n) :
    List.Forall₂ Unmarked items (items'.filter (·.1.length ≤ m)) := by
  have hpaths : items.map Prod.fst = (items'.filter (·.1.length ≤ m)).map Prod.fst := by
    have horder : ((items'.filter (·.1.length ≤ m)).map Prod.fst).Pairwise (· < ·) :=
      hitems'.order.sublist (List.filter_sublist.map Prod.fst)
    refine hitems.order.eq_of_mem_iff horder fun path => ?_
    have hold := hitems.paths path
    have hnew := hitems'.paths path
    simp only [List.mem_map, List.mem_filter, decide_eq_true_eq] at hold hnew ⊢
    grind
  have hsame : List.Forall₂ (· = ·) (items.map Prod.fst)
      ((items'.filter (·.1.length ≤ m)).map Prod.fst) := hpaths ▸ List.forall₂_refl _
  rw [List.forall₂_map_left_iff, List.forall₂_map_right_iff, List.forall₂_iff_zip] at hsame
  refine List.forall₂_iff_zip.mpr ⟨hsame.1, fun {old new} hzip => ?_⟩
  obtain ⟨path, line⟩ := old
  obtain ⟨path', line'⟩ := new
  obtain rfl : path = path' := hsame.2 hzip
  obtain ⟨hold, hnew⟩ := List.of_mem_zip hzip
  exact ⟨rfl, hitems.unmarked hitems' hmn hold (List.mem_filter.mp hnew).1⟩

end deeper

/-- However deep an outline goes, each path down to that depth has its line, in order and with line
ends in between. One that goes deeper differs in marks and in lines further down. On a page,
each indent is as wide as its depth asks for, whatever was put there before. -/
theorem outline_itemized (ha : a.Built) (hh : ∀ x, a.links.Reaches h x → x ∈ a.handles)
    {names : Option TagTable} (hnames : ∀ t ∈ names, ∀ name ∈ t.names, '\n' ∉ name.toList)
    (spaces : Nat) :
    (∃ items : Nat → List (List Nat × List Char),
      (∀ m, a.Itemized h ⟨spaces, m⟩ names (items m)) ∧
        ∀ m n, m ≤ n → List.Forall₂ Unmarked (items m) ((items n).filter (·.1.length ≤ m))) ∧
      ∀ strokes, ((Page.blank spaces).draw strokes).text.toList =
        strokes.flatMap (Stroke.letters spaces) := by
  constructor
  · choose items hitems using fun m => ha.layout.exists_itemized hh ⟨spaces, m⟩ hnames
    exact ⟨items, hitems, fun m n hmn => (hitems m).deeper (hitems n) hmn⟩
  · intro strokes
    rw [(Page.ruled_blank spaces).draw]
    exact List.nil_append _

/-- `[7, bounds]` is marked where only its root is shown, and its name is shown below the root. -/
theorem outline_itemized_mixed :
    ∃ names, names = TagTable.empty.internAll ["bounds"] ∧
      ∃ old new, mixed.Itemized ⟨3⟩ ⟨2, 0⟩ (some names) old ∧
        mixed.Itemized ⟨3⟩ ⟨2, 1⟩ (some names) new ∧
        List.Forall₂ Unmarked old (new.filter (·.1.length ≤ 0)) ∧
        ([], "SEQUENCE[2] ...".toList) ∈ old ∧ ([1], "  bounds".toList) ∈ new := by
  have hmixed : mixed.Built := built_after _
  have hbounds : (TagTable.empty.internAll ["bounds"]).names = #["bounds"] := by
    rw [← Array.toList_inj, TagTable.names_internAll]
    decide
  have hnames : ∀ t ∈ some (TagTable.empty.internAll ["bounds"]), ∀ name ∈ t.names,
      '\n' ∉ name.toList := by
    rintro t ⟨⟩
    rw [hbounds]
    decide
  obtain ⟨⟨items, hitems, hdeeper⟩, -⟩ := outline_itemized hmixed
    (hmixed.layout.mem_handles_of_reaches (h := ⟨3⟩) (by decide) (by decide)) hnames 2
  have hname : (TagTable.empty.internAll ["bounds"]).name? ⟨64⟩ = some "bounds" := by
    rw [TagTable.name?_eq _ (i := 0) rfl, hbounds]
    rfl
  refine ⟨_, rfl, items 0, items 1, hitems 0, hitems 1, hdeeper 0 1 (by decide), ?_, ?_⟩
  · have hroot : mixed.unfolding ⟨3⟩ [] = some (.sequence 2) := by decide
    exact (hitems 0).mem_of_told (by decide) hroot (.marked rfl (by decide))
  · have huser : mixed.unfolding ⟨3⟩ [1] = some (.user ⟨64⟩) := by decide
    exact (hitems 1).mem_of_told (by decide) huser (.named ⟨_, rfl, hname⟩)

/-- A sequence of an application's token whose tag has the empty name. -/
def nameless : Arena :=
  empty.after [.change (.addUser ⟨64⟩ .unit), .change .addSeq, .change (.push ⟨1⟩ ⟨0⟩)]

/-- Where the last line is empty, the end of the line before it is the end of the text. -/
theorem outline_ends_in_newline :
    nameless.Built ∧ (∀ x, nameless.links.Reaches ⟨1⟩ x → x ∈ nameless.handles) ∧
      (∀ name ∈ (TagTable.empty.internAll [""]).names, '\n' ∉ name.toList) ∧
      nameless.outline ⟨0, 256⟩ (some (TagTable.empty.internAll [""])) ⟨1⟩ =
        .ok "SEQUENCE[1]\n" := by
  have hbuilt : nameless.Built := built_after _
  have hnames : (TagTable.empty.internAll [""]).names = #[""] := by
    rw [← Array.toList_inj, TagTable.names_internAll]
    decide
  have hname : (TagTable.empty.internAll [""]).name? ⟨64⟩ = some "" := by
    rw [TagTable.name?_eq _ (i := 0) rfl, hnames]
    rfl
  have hseq : nameless.token ⟨1⟩ = .ok (.sequence ⟨0⟩) := rfl
  have hlist : nameless.list ⟨0⟩ = .ok { items := #[⟨0⟩] } := rfl
  have huser : nameless.token ⟨0⟩ = .ok (.user ⟨64⟩ 0) := rfl
  have htree : nameless.outlineTree 256 ⟨1⟩ = .ok (.seq [.user ⟨64⟩]) := by
    simp [outlineTree, unfold, hseq, hlist, huser, Elements.toList]
  refine ⟨hbuilt, hbuilt.layout.mem_handles_of_reaches (by decide) (by decide), ?_, ?_⟩
  · rw [hnames]
    decide
  · have hend : s!"SEQUENCE[{1}]".push '\n' = "SEQUENCE[1]\n" := rfl
    rw [outline, htree, Outcome.ok_bind]
    simpa [Tree.outline, Tree.writeOutline, Tree.writeOutlines, Tree.body, Page.line, Page.indent,
      Page.write, Page.newline, Page.blank, hname] using hend

end Arena

end TokenStore
