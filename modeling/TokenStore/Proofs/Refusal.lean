import TokenStore.Proofs.Positions

/-!
# What a refused import leaves

An import ends at the first value that it cannot take, first in the order of the text. The error
carries the path to that value, and the tokens of all values before it stay in the arena: whole
sequences where the import was through with them, the items so far where it was not.

## Main definitions

* `ImportFault.Told`: the message for each fault, word for word.
* `Json.Faulty`: the values that cannot be imported at a depth, each with its fault.
* `Json.Torn`: a document that is refused, with the cells that were made of it.
* `Json.held`: how many items of an array come before a position.
-/

namespace TokenStore

/-- What is said of a fault, word for word. -/
inductive ImportFault.Told : ImportFault → String → Prop
  | tooDeep : Told .tooDeep "nesting deeper than 256"
  | notInteger (value : Decimal.Binary64) :
      Told (.notInteger value) ("non-integer number " ++ (Number.float value).text)
  | notSigned (n : Number) : Told (.notSigned n) (n.text ++ " does not fit a signed token")
  | notUnsigned (n : Number) : Told (.notUnsigned n) (n.text ++ " does not fit an unsigned token")
  | unsupportedKey (key : String) :
      Told (.unsupportedKey key) ("unsupported object key " ++ Text.visible key)
  | keyCount : Told .keyCount "objects must have exactly one key"
  | boolean : Told .boolean "booleans have no token kind"
  | null : Told .null "null has no token kind"

theorem ImportFault.told_message (f : ImportFault) : f.Told f.message := by
  cases f with
  | tooDeep =>
    have hlimit : ImportFault.tooDeep.message = "nesting deeper than 256" := by decide
    rw [hlimit]
    exact .tooDeep
  | _ => constructor

/-- The failure of an import that ends with a fault at a path. -/
def ImportFault.failureAt (f : ImportFault) (path : List Nat) : Failure :=
  .error { direction := .importing, message := f.message, path }

namespace Json

/-- The values that cannot be imported at `depth`, whatever is in them. Beyond the greatest depth
nothing can, of whatever kind it is. -/
inductive Faulty (depth : Nat) : Json → ImportFault → Prop
  | tooDeep {v : Json} (hd : 256 < depth) : Faulty depth v .tooDeep
  | float (value : Decimal.Binary64) (hd : depth ≤ 256) :
      Faulty depth (.num (.float value)) (.notInteger value)
  | sint {n : Number} (hd : depth ≤ 256)
      (hn : ∀ k : WideInt, n = .int k →
        ¬ (-9223372036854775808 ≤ k.val ∧ k.val ≤ 9223372036854775807)) :
      Faulty depth (.obj [("sint", .num n)]) (.notSigned n)
  | uint {n : Number} (hd : depth ≤ 256)
      (hn : ∀ k : WideInt, n = .int k → ¬ (0 ≤ k.val ∧ k.val ≤ 18446744073709551615)) :
      Faulty depth (.obj [("uint", .num n)]) (.notUnsigned n)
  | key {key : String} {v : Json} (hd : depth ≤ 256)
      (hkey : (∀ n, v = .num n → key ≠ "sint" ∧ key ≠ "uint")) :
      Faulty depth (.obj [(key, v)]) (.unsupportedKey key)
  | keys {members : List (String × Json)} (hd : depth ≤ 256) (hmembers : members.length ≠ 1) :
      Faulty depth (.obj members) .keyCount
  | bool (b : Bool) (hd : depth ≤ 256) : Faulty depth (.bool b) .boolean
  | null (hd : depth ≤ 256) : Faulty depth .null .null

/-- A document that stands at `depth` and is refused for the fault `f` at the end of `path`, and the
cells that are made of it, root first, if the root is token number `base`. -/
inductive Torn : Nat → Nat → Json → List Nat → ImportFault → List Cell → Prop
  | here {depth base : Nat} {v : Json} {f : ImportFault} (hf : v.Faulty depth f) :
      Torn depth base v [] f []
  /-- The items before the faulty one are complete, and they are all that the sequence holds. -/
  | inside {depth base : Nat} {done rest : List Json} {v : Json} {path : List Nat}
      {f : ImportFault} {hs : List Handle} {xs ys : List Cell} (hd : depth ≤ 256)
      (hdone : ∀ w ∈ done, w.Importable (depth + 1)) (hblocks : Blocks (base + 1) done hs xs)
      (hv : Torn (depth + 1) (base + 1 + xs.length) v path f ys) :
      Torn depth base (.arr (done ++ v :: rest)) (done.length :: path) f (.seq hs :: (xs ++ ys))

/-! ## Faults -/

theorem toInt64?_eq_none {n : Number}
    (hn : ∀ k : WideInt, n = .int k →
      ¬ (-9223372036854775808 ≤ k.val ∧ k.val ≤ 9223372036854775807)) : n.toInt64? = none := by
  cases hm : n.toInt64? with
  | none => rfl
  | some m =>
    obtain ⟨k, rfl, hk⟩ := Number.toInt64?_eq_some_iff.mp hm
    have hlower := m.le_toInt
    have hupper := m.toInt_lt
    exact absurd ⟨by omega, by omega⟩ (hn k rfl)

theorem toUInt64?_eq_none {n : Number}
    (hn : ∀ k : WideInt, n = .int k → ¬ (0 ≤ k.val ∧ k.val ≤ 18446744073709551615)) :
    n.toUInt64? = none := by
  cases hm : n.toUInt64? with
  | none => rfl
  | some m =>
    obtain ⟨k, rfl, hk⟩ := Number.toUInt64?_eq_some_iff.mp hm
    have hupper := m.toNat_lt
    exact absurd ⟨by omega, by omega⟩ (hn k rfl)

/-- A value that is faulty where it stands, and not for standing too deep, has no cell. -/
theorem Faulty.cell {v : Json} {f : ImportFault} {depth : Nat} (hf : v.Faulty depth f)
    (hd : depth ≤ 256) : v.cell = .error f := by
  cases hf with
  | tooDeep hdeep => omega
  | float value _ => rfl
  | sint _ hn => simp [Json.cell, toInt64?_eq_none hn]
  | uint _ hn => simp [Json.cell, toUInt64?_eq_none hn]
  | @key key v _ hkey =>
    cases v with
    | num n => simp [Json.cell, hkey n rfl]
    | _ => rfl
  | @keys members _ hmembers =>
    obtain _ | ⟨m, _ | ⟨m', rest⟩⟩ := members
    · rfl
    · exact absurd rfl hmembers
    · simp [Json.cell]
  | bool b _ => rfl
  | null _ => rfl

theorem faulty_of_cell {v : Json} {f : ImportFault} (hv : v.cell = .error f)
    (hscalar : ∀ items, v ≠ .arr items) {depth : Nat} (hd : depth ≤ 256) : v.Faulty depth f := by
  unfold Json.cell at hv
  split at hv
  · cases hv
  next value =>
    cases hv
    exact .float value hd
  next n =>
    split at hv <;> cases hv
  next key n =>
    split at hv
    next hkey =>
      subst hkey
      split at hv
      next => cases hv
      next hn =>
        cases hv
        refine .sint hd fun k hk hrange => ?_
        have hm := Number.toInt64?_eq_some_iff.mpr
          ⟨k, hk, Int64.toInt_ofInt_of_le hrange.1 (by omega)⟩
        cases hn.symm.trans hm
    next hsint =>
      split at hv
      next hkey =>
        subst hkey
        split at hv
        next => cases hv
        next hn =>
          cases hv
          refine .uint hd fun k hk hrange => ?_
          subst hk
          exact absurd (WideInt.toUInt64?_eq_none_iff.mp hn) (Int.not_lt.mpr hrange.1)
      next huint =>
        cases hv
        exact .key hd fun _ _ => ⟨hsint, huint⟩
  next key v hnum =>
    cases hv
    exact .key hd fun n hn => absurd hn (hnum n)
  next b =>
    cases hv
    exact .bool b hd
  next =>
    cases hv
    exact .null hd
  next hstr hfloat hint _ hpair hbool hnull =>
    cases hv
    cases v with
    | obj members =>
      refine .keys hd fun h => ?_
      obtain ⟨m, rfl⟩ := List.length_eq_one_iff.mp h
      exact hpair m.1 m.2 rfl
    | num n =>
      cases n with
      | int n => exact (hint n rfl).elim
      | float value => exact (hfloat value rfl).elim
    | arr items => exact absurd rfl (hscalar items)
    | str s => exact (hstr s rfl).elim
    | bool b => exact (hbool b rfl).elim
    | null => exact (hnull rfl).elim

/-- What can be imported at a depth has no fault there. -/
theorem Importable.not_faulty {v : Json} {depth : Nat} (hv : v.Importable depth)
    (f : ImportFault) : ¬ v.Faulty depth f := by
  intro hf
  have hd : depth ≤ 256 := hv.depth_le
  cases v with
  | arr items =>
    cases hf with
    | tooDeep hdeep => omega
  | _ =>
    obtain ⟨x, hx⟩ := hv.exists_cell (by simp)
    cases hx.symm.trans (hf.cell hd)

/-! ## Refused documents by positions -/

theorem Importable.follow? {v w : Json} {depth : Nat} (hv : v.Importable depth) {path : List Nat}
    (hw : v.follow? path = some w) : w.Importable (depth + path.length) := by
  induction path generalizing v depth with
  | nil =>
    rw [follow?_nil, Option.some.injEq] at hw
    exact hw ▸ hv
  | cons i path ih =>
    cases hv with
    | arr hd hitems =>
      obtain ⟨u, hu, hw⟩ := Option.bind_eq_some_iff.mp hw
      have := ih (hitems u (List.mem_of_getElem? hu)) hw
      rwa [List.length_cons, Nat.add_comm path.length, ← Nat.add_assoc]
    | _ => cases hw

/-- How many of the `n` items of the array at `q` come before the position `stop`: all of them, or
those before the one that `stop` is in. -/
def held : (stop q : List Nat) → (n : Nat) → Nat
  | i :: _, [], _ => i
  | i :: stop, j :: q, n => if i = j then held stop q n else n
  | [], _, n => n

/-- None of the positions is that of a faulty value. -/
def Sound (v : Json) (depth : Nat) (ps : List (List Nat)) : Prop :=
  ∀ q ∈ ps, ∀ w, v.follow? q = some w → ∀ f, ¬ w.Faulty (depth + q.length) f

theorem sound_items {depth : Nat} {done back : List Json}
    (hdone : ∀ v ∈ done, v.Importable (depth + 1)) :
    Sound (.arr (done ++ back)) depth (itemPositions 0 done) := by
  intro q hq w hw f
  obtain ⟨i, path, hi, rfl⟩ := mem_itemPositions hq
  rw [Nat.zero_add, follow?_arr_cons, List.getElem?_append_left hi] at hw
  obtain ⟨u, hu, hw⟩ := Option.bind_eq_some_iff.mp hw
  have hsound := ((hdone u (List.mem_of_getElem? hu)).follow? hw).not_faulty f
  rwa [Nat.add_assoc, Nat.add_comm 1] at hsound

theorem Sound.below {v : Json} {depth : Nat} {ps : List (List Nat)} (h : v.Sound (depth + 1) ps)
    {items : List Json} {i : Nat} (hi : items[i]? = some v) :
    Sound (.arr items) depth (ps.map (i :: ·)) := by
  intro q hq w hw f
  obtain ⟨path, hpath, rfl⟩ := List.mem_map.mp hq
  rw [follow?_arr_cons, hi, Option.bind_some] at hw
  have hsound := h path hpath w hw f
  rwa [Nat.add_assoc, Nat.add_comm 1] at hsound

theorem sound_root {items : List Json} {depth : Nat} (hd : depth ≤ 256) :
    Sound (.arr items) depth [[]] := by
  intro q hq w hw f hf
  obtain rfl := List.mem_singleton.mp hq
  cases hw
  cases hf with
  | tooDeep hdeep => exact absurd hdeep (Nat.not_lt.mpr hd)

/-- The cells of the items before the faulty one, all of which are held. -/
theorem Blocks.spelled_before {base : Nat} {done : List Json} {hs : List Handle} {xs : List Cell}
    (h : Blocks (base + 1) done hs xs) (back : List Json) (path : List Nat) :
    Spelled (arr (done ++ back)).follow? (Numbers base ([] :: itemPositions 0 done))
        (held (done.length :: path)) ([] :: itemPositions 0 done) (.seq hs :: xs) := by
  obtain ⟨hspelled, hlength, hnames⟩ := h.spelled [] back
  refine .cons ⟨_, rfl, .arr hlength fun i h hi => ?_⟩ ?_
  · have hnumber := hnames i h hi
    rw [List.length_nil, Nat.zero_add] at hnumber
    exact hnumber.append_left [[]]
  · refine (hspelled.imp fun q h hq => hq.append_left [[]]).congr fun q hq => ?_
    obtain ⟨i, rest, hi, rfl⟩ := mem_itemPositions hq
    funext n
    simp [held, every, Nat.ne_of_gt hi]

/-- A refused document is sound up to the position of the fault, and cells are made of the values
before it. -/
theorem Torn.spelled {depth base : Nat} {v : Json} {path : List Nat} {f : ImportFault}
    {xs : List Cell} (h : Torn depth base v path f xs) :
    ∃ front back w, v.positions = front ++ path :: back ∧ v.follow? path = some w ∧
      w.Faulty (depth + path.length) f ∧ v.Sound depth front ∧
      Spelled v.follow? (Numbers base front) (held path) front xs := by
  induction h with
  | @here depth base v f hf =>
    refine ⟨[], v.positions.tail, v, ?_, follow?_nil v, hf, nofun, .nil⟩
    cases v <;> rfl
  | @inside depth base done rest v path f hs xs ys hd hdone hblocks _ ih =>
    obtain ⟨front, back, w, hpositions, hw, hf, hsound, hspelled⟩ := ih
    have hi : (done ++ v :: rest)[done.length]? = some v := by simp
    have hitems := itemPositions_append 0 done (v :: rest)
    rw [Nat.zero_add, itemPositions, hpositions] at hitems
    have hbefore := hblocks.spelled_before (v :: rest) path
    have hxs : base + 1 + xs.length = base + ([] :: itemPositions 0 done).length := by
      rw [hbefore.length_eq, List.length_cons, Nat.add_assoc, Nat.add_comm 1]
    rw [hxs] at hspelled
    refine ⟨[] :: itemPositions 0 done ++ front.map (done.length :: ·),
      back.map (done.length :: ·) ++ itemPositions (done.length + 1) rest, w, ?_, ?_, ?_, ?_, ?_⟩
    · simp [positions, hitems]
    · rw [follow?_arr_cons, hi, Option.bind_some, hw]
    · rwa [List.length_cons, Nat.add_comm path.length, ← Nat.add_assoc]
    · refine List.forall_mem_append.mpr ⟨?_, hsound.below hi⟩
      exact List.forall_mem_append.mpr ⟨sound_root hd, sound_items hdone⟩
    · refine List.rel_append (hbefore.imp fun q h hq => hq.append_right _) ?_
      refine hspelled.below hi (fun q h hq => (hq.below done.length).append_left _) fun q => ?_
      funext n
      simp [held]

end Json

namespace Cells

/-! ## Imports that are refused -/

/-- A value's import, if it is refused, adds the cells of what comes before the fault. -/
def AddsTorn (depth : Nat) (v : Json) : Prop :=
  ∀ {cs cs' : Cells} {e : Failure}, cs.addValue depth v = (.error e, cs') →
    ∃ path f xs, Json.Torn depth cs.length v path f xs ∧ e = f.failureAt path ∧ cs' = cs ++ xs

/-- Item by item: up to the faulty one, items are imported whole and go into the sequence. -/
theorem addItems_of_error {items : List Json} {depth : Nat}
    (hall : ∀ v ∈ items, AddsTorn depth v) {cs cs' : Cells} {index : Nat} {seq : Handle}
    {es : List Handle} {e : Failure} (hseq : cs[seq.index]? = some (.seq es))
    (herror : cs.addItems depth seq index items = (.error e, cs')) :
    ∃ done v rest hs xs path f ys, items = done ++ v :: rest ∧
      (∀ w ∈ done, w.Importable depth) ∧ Json.Blocks cs.length done hs xs ∧
      Json.Torn depth (cs.length + xs.length) v path f ys ∧
      e = f.failureAt ((index + done.length) :: path) ∧
      cs' = cs.put seq (.seq (es ++ hs)) ++ (xs ++ ys) := by
  induction items generalizing cs es index with
  | nil =>
    unfold addItems at herror
    cases herror
  | cons v vs ih =>
    unfold addItems at herror
    split at herror
    next h cs₁ hadd =>
      obtain ⟨hv, rfl, xs, hblock, rfl⟩ := addValue_of_ok v depth hadd
      have hseq₁ := getElem?_append_of_some hseq xs
      rw [push_of_seq hseq₁] at herror
      obtain ⟨done, w, rest, hs, ys, path, f, zs, rfl, hdone, hblocks, htorn, rfl, rfl⟩ :=
        ih (fun w hw => hall w (List.mem_cons_of_mem v hw)) (getElem?_put hseq₁ _) herror
      have hlength : (put (cs ++ xs) seq (.seq (es ++ [⟨cs.length⟩]))).length =
          cs.length + xs.length := by simp [put]
      rw [hlength] at hblocks htorn
      rw [Nat.add_assoc, ← List.length_append] at htorn
      refine ⟨v :: done, w, rest, _, _, path, f, zs, rfl, List.forall_mem_cons.mpr ⟨hv, hdone⟩,
        .cons hblock hblocks, htorn, ?_, ?_⟩
      · rw [List.length_cons, Nat.add_right_comm, Nat.add_assoc]
      · rw [put_put, put_append hseq]
        simp only [List.append_assoc, List.cons_append, List.nil_append]
    next e₁ cs₁ hadd =>
      cases herror
      obtain ⟨path, f, ys, htorn, rfl, rfl⟩ := hall v List.mem_cons_self hadd
      refine ⟨[], v, vs, [], [], path, f, ys, rfl, by simp, .nil, htorn, rfl, ?_⟩
      obtain ⟨hlt, hes⟩ := List.getElem?_eq_some_iff.mp hseq
      simp [put, ← hes]

theorem addValue_of_error (v : Json) (depth : Nat) : AddsTorn depth v := by
  induction v using Json.itemsInduction generalizing depth with
  | arr items ih =>
    intro cs cs' e herror
    unfold addValue at herror
    split at herror
    next hd =>
      cases herror
      exact ⟨[], .tooDeep, [], .here (.tooDeep hd), rfl, (List.append_nil cs).symm⟩
    next hd =>
      dsimp only at herror
      split at herror
      next => cases herror
      next e' cs'' hitems =>
        cases herror
        have hseq : (cs ++ [Cell.seq []])[cs.length]? = some (.seq []) := by simp
        obtain ⟨done, w, rest, hs, xs, path, f, ys, rfl, hdone, hblocks, htorn, rfl, rfl⟩ :=
          addItems_of_error (fun v hv => ih v hv (depth + 1)) hseq hitems
        rw [List.length_append, List.length_singleton] at hblocks htorn
        refine ⟨done.length :: path, f, _, .inside (Nat.not_lt.mp hd) hdone hblocks htorn, ?_, ?_⟩
        · rw [Nat.zero_add]
        · simp [put]
  | other v hscalar =>
    intro cs cs' e herror
    unfold addValue at herror
    split at herror
    next hd =>
      cases herror
      exact ⟨[], .tooDeep, [], .here (.tooDeep hd), rfl, (List.append_nil cs).symm⟩
    next hd =>
      split at herror
      next items => exact absurd rfl (hscalar items)
      next =>
        split at herror
        next => cases herror
        next f hf =>
          cases herror
          have hfaulty := Json.faulty_of_cell hf hscalar (Nat.not_lt.mp hd)
          exact ⟨[], f, [], .here hfaulty, rfl, (List.append_nil cs).symm⟩

end Cells

namespace Json

theorem Torn.shift {depth base : Nat} {v : Json} {path : List Nat} {f : ImportFault}
    {xs : List Cell} (h : Torn depth base v path f xs) (n : Nat) :
    Torn depth (n + base) v path f (xs.map (Cell.shift n)) := by
  induction h with
  | here hf => exact .here hf
  | inside hd hdone hblocks _ ih =>
    have hblocks := hblocks.shift n
    rw [← Nat.add_assoc] at hblocks
    rw [List.map_cons, List.map_append]
    refine .inside hd hdone hblocks ?_
    rwa [List.length_map, Nat.add_assoc n, Nat.add_assoc n]

theorem Torn.payload?_eq_none {depth base : Nat} {v : Json} {path : List Nat} {f : ImportFault}
    {xs : List Cell} (h : Torn depth base v path f xs) : ∀ x ∈ xs, x.payload? = none := by
  induction h with
  | here hf => simp
  | inside hd hdone hblocks _ ih =>
    rintro x (_ | ⟨_, hx⟩)
    · rfl
    · rcases List.mem_append.mp hx with hx | hx
      · exact hblocks.payload?_eq_none x hx
      · exact ih x hx

/-- Only what stands one level beyond the greatest depth is too deep, since the walk ends there. -/
theorem Torn.depth_of_tooDeep {depth base : Nat} {v : Json} {path : List Nat} {f : ImportFault}
    {xs : List Cell} (h : Torn depth base v path f xs) (hdepth : depth ≤ 257) (hf : f = .tooDeep) :
    depth + path.length = 257 := by
  induction h with
  | @here depth base v f hfaulty =>
    subst hf
    cases hfaulty with
    | tooDeep hd => simp; omega
  | inside hd hdone hblocks _ ih =>
    have := ih (by omega) hf
    rw [List.length_cons]
    omega

end Json

namespace Arena

/-- A refused import into an empty arena. -/
theorem addJson_empty_error {v : Json} {e : Failure} {b : Arena}
    (herror : empty.addJson v = (.error e, b)) :
    ∃ path f xs, Json.Torn 0 0 v path f xs ∧ e = f.failureAt path ∧ b.payloads = #[] ∧
      b.size = xs.length ∧ ∀ k x, xs[k]? = some x → b.Shows ⟨k⟩ x := by
  have hb : b.Layout := by
    have := (empty.addValue_moves 0 v).preserve Move.layout layout_empty
    rwa [← addJson, herror] at this
  have hseen := layout_empty.seen_addValue 0 v
  rw [← addJson, herror] at hseen
  obtain ⟨path, f, xs, htorn, rfl, hcells⟩ := Cells.addValue_of_error v 0 hseen.symm
  have hxs : b.cells = xs := hcells
  refine ⟨path, f, xs, htorn, rfl, ?_, ?_, fun k x hx => hb.shows (hxs ▸ hx)⟩
  · have hnone : b.cells.countP (fun x => x.payload?.isSome) = 0 := by
      rw [hxs, List.countP_eq_zero]
      intro x hx
      simp [htorn.payload?_eq_none x hx]
    have hsize : b.cells.stats.payloads = b.payloads.size := congrArg Stats.payloads hb.stats_cells
    exact Array.eq_empty_of_size_eq_zero (hsize.symm.trans hnone)
  · rw [← length_cells, hxs]

/-- A refused import reports the first faulty value in the order of the text, with the message for
its fault and the path to it, and leaves one token for every position before it: a sequence that the
fault is in holds its items so far, everything else is complete, and what was in the arena stays as
it is. -/
theorem addJson_refused {a b : Arena} {v : Json} {e : Failure}
    (herror : a.addJson v = (.error e, b)) :
    ∃ front path back w f,
      v.positions = front ++ path :: back ∧
      v.follow? path = some w ∧ w.Faulty path.length f ∧
      (∀ q ∈ front, ∀ u, v.follow? q = some u → ∀ g, ¬ u.Faulty q.length g) ∧
      (∃ message, f.Told message ∧ e = .error { direction := .importing, message, path }) ∧
      (f = .tooDeep → path.length = 257) ∧
      b.size = a.size + front.length ∧
      (∀ k q, front[k]? = some q → ∃ u x, v.follow? q = some u ∧
        Json.Made (Json.Numbers a.size front) (Json.held path q) q u x ∧ b.Shows ⟨a.size + k⟩ x) ∧
      a.tokens.toList <+: b.tokens.toList ∧ a.lists.toList <+: b.lists.toList ∧
      a.pool.toList <+: b.pool.toList ∧ b.payloads = a.payloads := by
  rcases hadd : empty.addJson v with ⟨r, c⟩
  rw [a.addJson_eq_join v, hadd] at herror
  cases r with
  | ok h => cases herror
  | error e =>
    cases herror
    obtain ⟨path, f, xs, htorn, rfl, hpayloads, hsize, hshows⟩ := addJson_empty_error hadd
    obtain ⟨front, back, w, hpositions, hw, hf, hsound, hspelled⟩ := (htorn.shift a.size).spelled
    have htold := f.told_message
    refine ⟨front, path, back, w, f, hpositions, hw, ?_, ?_, ⟨_, htold, rfl⟩, ?_, ?_, ?_, ?_⟩
    · rwa [Nat.zero_add] at hf
    · simpa only [Json.Sound, Nat.zero_add] using hsound
    · intro hdeep
      have := htorn.depth_of_tooDeep (Nat.zero_le _) hdeep
      omega
    · rw [size_join, hsize, hspelled.length_eq, List.length_map]
    · intro k q hq
      obtain ⟨u, x, hu, hx, hk⟩ := hspelled.getElem? hq
      obtain ⟨y, hy, rfl⟩ : ∃ y, xs[k]? = some y ∧ y.shift a.size = x := by simpa using hk
      exact ⟨u, _, hu, hx, (hshows k y hy).join⟩
    · simp [join, hpayloads]

/-- An empty array, then an array of `7` and a null. -/
def refused : Json := .arr [.arr [], .arr [.num (.int (.ofByte 7)), .null]]

/-- A number, and behind it what is made of the document before the null is met. The root and its
second item lack the item that the null is in. -/
def leftover : Arena where
  tokens := #[.uint 7, .sequence ⟨0⟩, .sequence ⟨1⟩, .sequence ⟨2⟩, .uint 7]
  lists := #[⟨#[⟨2⟩], 2⟩, ⟨#[], 0⟩, ⟨#[⟨4⟩], 2⟩]

/-- Documents that are refused at the root, with the messages. -/
def refusals : List (Json × String) :=
  [(.num (.float ⟨false, ⟨0x3ff8000000000000, by decide⟩⟩), "non-integer number 1.5"),
    (.obj [("sint", .num (.int (.ofUInt64 18446744073709551615)))],
      "18446744073709551615 does not fit a signed token"),
    (.obj [("uint", .num (.int (.ofInt64 (-1))))], "-1 does not fit an unsigned token"),
    (.obj [("\"\n", .str "ab")], "unsupported object key \"\\\"\\n\""),
    (.obj [], "objects must have exactly one key"), (.bool true, "booleans have no token kind"),
    (.null, "null has no token kind")]

theorem addJson_refused_nested :
    (∃ front back, (empty.addUint 7).2.addJson refused =
        (.error (.error ⟨.importing, "null has no token kind", [1, 1]⟩), leftover) ∧
      refused.positions = front ++ [1, 1] :: back ∧ front = [[], [0], [1], [1, 0]] ∧
      leftover.size = 1 + front.length ∧
      leftover.Shows ⟨1⟩ (.seq [⟨2⟩]) ∧ leftover.Shows ⟨3⟩ (.seq [⟨4⟩])) ∧
    ∀ d ∈ refusals, empty.addJson d.1 = (.error (.error ⟨.importing, d.2, []⟩), empty) := by
  have herror : (empty.addUint 7).2.addJson refused =
      (.error (.error ⟨.importing, "null has no token kind", [1, 1]⟩), leftover) := by
    decide +kernel
  obtain ⟨front, path, back, w, f, hpositions, -, -, -, ⟨message, -, he⟩, -, hsize, -⟩ :=
    addJson_refused herror
  cases he
  have hlength : 5 = 1 + front.length := hsize
  have hfront : front = [[], [0], [1], [1, 0]] := by
    have := congrArg (List.take 4) hpositions
    rw [List.take_left' (by omega)] at this
    exact this.symm
  refine ⟨⟨front, back, herror, hpositions, hfront, hsize, rfl, rfl⟩, ?_⟩
  decide +kernel

end Arena

end TokenStore
