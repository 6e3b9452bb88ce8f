import TokenStore.Proofs.Compact
import TokenStore.Proofs.Export

/-!
# Compact texts of imported documents

The compact text of an imported document tells the document. It shows every number with its kind, so
that only an object which chooses the kind that its number has anyway is not told from the number.
Nor is anything lost at the greatest depth, where the text cuts every sequence: an import goes no
deeper, and so all arrays there are empty.

## Main definitions

* `Json.condense`: a document in which no kind is chosen without need.
* `Tree.source`: the document that a tree shows; `Json.shown`: the reading by it.
-/

namespace TokenStore

namespace Json

/-- The number of an object that chooses the kind that the number has anyway. -/
def idle? : List (String × Json) → Option WideInt
  | [(key, .num (.int n))] => if key = "uint" ∨ (key = "sint" ∧ n.val < 0) then some n else none
  | _ => none

mutual

/-- The document with plain numbers in place of the objects that choose the kinds these have
anyway. -/
def condense : Json → Json
  | .arr items => .arr (condenseAll items)
  | .obj members =>
    match idle? members with
    | some n => .num (.int n)
    | none => .obj (condenseMembers members)
  | v => v

def condenseAll : List Json → List Json
  | [] => []
  | v :: vs => condense v :: condenseAll vs

def condenseMembers : List (String × Json) → List (String × Json)
  | [] => []
  | (key, v) :: ms => (key, condense v) :: condenseMembers ms

end

theorem condense_arr (items : List Json) : condense (.arr items) = .arr (items.map condense) := by
  have hall : condenseAll items = items.map condense := by
    induction items with
    | nil => rfl
    | cons v vs ih => rw [condenseAll, ih, List.map_cons]
  rw [condense, hall]

theorem condense_uint (n : WideInt) :
    condense (.obj [("uint", .num (.int n))]) = .num (.int n) := by
  simp [condense, idle?]

theorem condense_sint (n : WideInt) :
    condense (.obj [("sint", .num (.int n))]) =
      if n.val < 0 then .num (.int n) else .obj [("sint", .num (.int n))] := by
  split <;> simp [condense, condenseMembers, idle?, *]

theorem condense_ne_arr {v : Json} (hv : ∀ items, v ≠ .arr items) (items : List Json) :
    v.condense ≠ .arr items := by
  cases v with
  | arr items => exact absurd rfl (hv items)
  | obj members => cases h : idle? members <;> simp [condense, h]
  | _ => nofun

end Json

/-! ## Imports of condensed documents -/

namespace Arena

variable {a : Arena}

theorem addScalar_condense {v : Json} {x : Cell} (hx : v.Leaf x) (a : Arena) :
    a.addScalar v.condense = a.addScalar v := by
  cases hx with
  | str s => rfl
  | nonneg hm => rfl
  | neg hn hm => rfl
  | @sint n m hm =>
    rw [Json.condense_sint]
    split
    next hn =>
      have hsigned : n.toInt64? = some m := WideInt.toInt64?_eq_some_iff.mpr hm
      have hunsigned : n.toUInt64? = none := WideInt.toUInt64?_eq_none_iff.mpr hn
      simp [addScalar, addMember, addNumber, Number.toInt64?, hsigned, hunsigned, ← hm]
    next => rfl
  | @uint n m hm =>
    have hunsigned : n.toUInt64? = some m := WideInt.toUInt64?_eq_some_iff.mpr hm
    rw [Json.condense_uint]
    simp [addScalar, addMember, addNumber, Number.toUInt64?, hunsigned]

theorem addValue_of_scalar {v : Json} (hv : ∀ items, v ≠ .arr items) (a : Arena) (depth : Nat) :
    a.addValue depth v =
      if maxDepth < depth then (.error ImportFault.tooDeep.failure, a)
      else ((a.addScalar v).1.mapError ImportFault.failure, (a.addScalar v).2) := by
  unfold addValue
  split
  · rfl
  · split
    next items => exact absurd rfl (hv items)
    next =>
      rcases a.addScalar v with ⟨_ | _, b⟩ <;> rfl

theorem addItems_condense {items : List Json} {depth : Nat}
    (hall : ∀ v ∈ items, ∀ a : Arena, a.addValue depth v.condense = a.addValue depth v) (a : Arena)
    (seq : Handle) (index : Nat) :
    a.addItems depth seq index (items.map Json.condense) = a.addItems depth seq index items := by
  induction items generalizing a index with
  | nil => rfl
  | cons v vs ih =>
    obtain ⟨hv, hvs⟩ := List.forall_mem_cons.mp hall
    rw [List.map_cons, addItems, addItems, hv]
    simp only [ih hvs]

/-- An import makes the same of a document that is condensed, if it can be imported. -/
theorem addValue_condense {v : Json} {depth : Nat} (hv : v.Importable depth) (a : Arena) :
    a.addValue depth v.condense = a.addValue depth v := by
  induction v using Json.itemsInduction generalizing a depth with
  | arr items ih =>
    cases hv with
    | arr hd hall =>
      have hitems := addItems_condense fun v hv => ih v hv (hall v hv)
      rw [Json.condense_arr, addValue, addValue]
      simp only [hitems, List.length_map]
  | other v hscalar =>
    obtain ⟨x, hx⟩ := hv.exists_cell hscalar
    have hadd := addScalar_condense (Json.leaf_of_cell hx) a
    rw [addValue_of_scalar hscalar, addValue_of_scalar (Json.condense_ne_arr hscalar), hadd]

end Arena

/-! ## Trees as the documents that they show -/

namespace Tree

mutual

/-- The document that a tree shows, with an object where the kind of a number was chosen. -/
def source : Tree Unit → Json
  | .bytes data =>
    match utf8? data with
    | some s => .str s
    | none => .ofBytes data
  | .sint value =>
    let n := .num (.int (.ofInt64 value))
    if value.toInt < 0 then n else .obj [("sint", n)]
  | .uint value => .num (.int (.ofUInt64 value))
  | .user _ => .null
  | .seq children => .arr (sourceAll children)
  | .cut _ => .arr []

def sourceAll : List (Tree Unit) → List Json
  | [] => []
  | t :: ts => source t :: sourceAll ts

end

theorem source_seq (ts : List (Tree Unit)) : source (.seq ts) = .arr (ts.map source) := by
  have hall : sourceAll ts = ts.map source := by
    induction ts with
    | nil => rfl
    | cons t ts ih => rw [sourceAll, ih, List.map_cons]
  rw [source, hall]

end Tree

namespace Json

theorem Leaf.source {v : Json} {x : Cell} (hx : v.Leaf x) :
    ∃ t, x.tree? = some t ∧ t.source = v.condense := by
  cases hx with
  | str s =>
    refine ⟨_, rfl, ?_⟩
    rw [Tree.source, Tree.utf8?_toUTF8]
    rfl
  | nonneg hm => exact ⟨_, rfl, congrArg (fun n => num (.int n)) (WideInt.ofUInt64_eq hm)⟩
  | neg hn hm =>
    refine ⟨_, rfl, ?_⟩
    rw [Tree.source, WideInt.ofInt64_eq hm, hm, if_pos hn]
    rfl
  | sint hm =>
    refine ⟨_, rfl, ?_⟩
    rw [Tree.source, WideInt.ofInt64_eq hm, hm, condense_sint]
  | uint hm =>
    refine ⟨_, rfl, ?_⟩
    rw [Tree.source, WideInt.ofUInt64_eq hm, condense_uint]

/-- A compact text shows all but the objects that choose the kind of a number without need. -/
def shown : TreeReading Unit where
  limit := Tree.compactLimit
  read := Tree.source
  kept := condense
  leaf := Leaf.source
  seq := Tree.source_seq
  arr := condense_arr
  nil := ⟨.cut (), rfl, rfl⟩

end Json

namespace Arena

variable {a a' b b' : Arena} {v v' : Json} {root root' : Handle}

theorem compactTree_addJson (hadd : a.addJson v = (.ok root, b)) :
    ∃ t, b.compactTree root = .ok t ∧ t.source = v.condense :=
  read_addJson Json.shown hadd

/-- Two documents have the same compact text when they are imported, into whatever arenas, exactly
if they are the same when they are condensed. -/
theorem compact_addJson_eq_iff (hadd : a.addJson v = (.ok root, b))
    (hadd' : a'.addJson v' = (.ok root', b')) :
    ∃ s s', b.compact root = .ok s ∧ b'.compact root' = .ok s' ∧
      (s = s' ↔ v.condense = v'.condense) := by
  obtain ⟨t, ht, hsource⟩ := compactTree_addJson hadd
  obtain ⟨t', ht', hsource'⟩ := compactTree_addJson hadd'
  have hcompact : b.compact root = .ok t.compact := by simp [compact, ht]
  have hcompact' : b'.compact root' = .ok t'.compact := by simp [compact, ht']
  refine ⟨_, _, hcompact, hcompact', ?_⟩
  rw [Tree.compact_injective.eq_iff, ← hsource, ← hsource']
  refine ⟨congrArg Tree.source, fun hsame => ?_⟩
  -- what is the same when it is condensed is imported the same into an empty arena
  rw [hsource, hsource'] at hsame
  obtain ⟨k, c, hempty, hview⟩ := unfold_addJson hadd
  obtain ⟨k', c', hempty', hview'⟩ := unfold_addJson hadd'
  have hv := (layout_empty.addJson_ok hempty).1
  have hv' := (layout_empty.addJson_ok hempty').1
  have himport : empty.addJson v = empty.addJson v' := by
    rw [addJson, addJson, ← addValue_condense hv, hsame, addValue_condense hv']
  cases hempty.symm.trans (himport.trans hempty')
  rw [compactTree, hview] at ht
  rw [compactTree, hview'] at ht'
  exact Except.ok.inj (ht.symm.trans ht')

/-- `5`, the same number with its kind, and a signed one. -/
theorem compact_addJson_eq_iff_chosen :
    let plain : Json := .arr [.num (.int (.ofByte 5))]
    let idle : Json := .arr [.obj [("uint", .num (.int (.ofByte 5)))]]
    let signed : Json := .arr [.obj [("sint", .num (.int (.ofByte 5)))]]
    ∃ b c d s t, empty.addJson plain = (.ok ⟨0⟩, b) ∧ empty.addJson idle = (.ok ⟨0⟩, c) ∧
      empty.addJson signed = (.ok ⟨0⟩, d) ∧ b.compact ⟨0⟩ = .ok s ∧ c.compact ⟨0⟩ = .ok s ∧
      d.compact ⟨0⟩ = .ok t ∧ s ≠ t := by
  intro plain idle signed
  have hplain : empty.addJson plain = (.ok ⟨0⟩, (empty.addJson plain).2) := rfl
  have hidle : empty.addJson idle = (.ok ⟨0⟩, (empty.addJson idle).2) := rfl
  have hsigned : empty.addJson signed = (.ok ⟨0⟩, (empty.addJson signed).2) := rfl
  obtain ⟨s, s', hs, hs', hiff⟩ := compact_addJson_eq_iff hplain hidle
  obtain ⟨s'', t, hs'', ht, hiff'⟩ := compact_addJson_eq_iff hplain hsigned
  obtain rfl : s = s'' := Except.ok.inj (hs.symm.trans hs'')
  obtain rfl : s = s' := hiff.mpr rfl
  refine ⟨_, _, _, s, t, hplain, hidle, hsigned, hs, hs', ht, fun heq => ?_⟩
  cases hiff'.mp heq

end Arena

end TokenStore
