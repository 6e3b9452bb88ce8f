import TokenStore.Json.Reader
import TokenStore.Proofs.Reimport
import TokenStore.Proofs.Spelling

/-!
# Documents read back from their texts

The reader gives back what was written, if it has only integers for numbers and no two members of an
object have the same key. All exports are of that kind. So the text of an export and its document
say the same, and an export of what was imported gives the document back in both forms.

## Main definitions

* `Json.Exact`: the documents that are read back as they were.
* `Json.letters`: the letters of a compact text.
-/

namespace TokenStore

namespace Json

/-- Nothing is lost when the document is written: its numbers are integers, and the members of an
object have keys of their own. -/
inductive Exact : Json → Prop where
  | null : Exact .null
  | bool (value : Bool) : Exact (.bool value)
  | int (value : WideInt) : Exact (.num (.int value))
  | str (value : String) : Exact (.str value)
  | arr {items : List Json} (each : ∀ v ∈ items, Exact v) : Exact (.arr items)
  | obj {members : List (String × Json)} (keys : (members.map Prod.fst).Nodup)
      (each : ∀ m ∈ members, Exact m.2) : Exact (.obj members)

/-! ## Letters of a document -/

mutual

/-- The letters of the compact text. -/
def letters : Json → List Char
  | .null => ['n', 'u', 'l', 'l']
  | .bool true => ['t', 'r', 'u', 'e']
  | .bool false => ['f', 'a', 'l', 's', 'e']
  | .num value => value.text.toList
  | .str value => (quoted value).toList
  | .arr items => '[' :: itemLetters items
  | .obj members => '\x7b' :: memberLetters members

/-- The letters of an array behind its first bracket. -/
def itemLetters : List Json → List Char
  | [] => [']']
  | v :: vs => letters v ++ moreItems vs

/-- The letters of further items of an array, and of its end. -/
def moreItems : List Json → List Char
  | [] => [']']
  | v :: vs => ',' :: (letters v ++ moreItems vs)

/-- The letters of an object behind its first bracket. -/
def memberLetters : List (String × Json) → List Char
  | [] => ['\x7d']
  | (key, v) :: ms => (quoted key).toList ++ ':' :: (letters v ++ moreMembers ms)

/-- The letters of further members of an object, and of its end. -/
def moreMembers : List (String × Json) → List Char
  | [] => ['\x7d']
  | (key, v) :: ms => ',' :: ((quoted key).toList ++ ':' :: (letters v ++ moreMembers ms))

end

mutual

theorem toList_write (out : String) (v : Json) :
    (write out v).toList = out.toList ++ v.letters := by
  cases v with
  | null => simp [write, letters]
  | bool value => cases value <;> simp [write, letters]
  | num value => simp [write, letters]
  | str value => simp [write, letters]
  | arr items =>
    cases items with
    | nil => simp [write, letters, itemLetters]
    | cons v vs =>
      rw [write, toList_writeItems, toList_write]
      simp [letters, itemLetters]
  | obj members =>
    match members with
    | [] => simp [write, letters, memberLetters]
    | (key, v) :: ms =>
      rw [write, toList_writeMembers, toList_write]
      simp [letters, memberLetters]

theorem toList_writeItems (out : String) (vs : List Json) :
    ((writeItems out vs).push ']').toList = out.toList ++ moreItems vs := by
  cases vs with
  | nil => simp [writeItems, moreItems]
  | cons v vs =>
    rw [writeItems, toList_writeItems, toList_write]
    simp [moreItems]

theorem toList_writeMembers (out : String) (ms : List (String × Json)) :
    ((writeMembers out ms).push '\x7d').toList = out.toList ++ moreMembers ms := by
  match ms with
  | [] => simp [writeMembers, moreMembers]
  | (key, v) :: ms =>
    rw [writeMembers, toList_writeMembers, toList_write]
    simp [moreMembers]

end

theorem toList_compact (v : Json) : v.compact.toList = v.letters := by
  rw [compact, toList_write, String.toList_empty, List.nil_append]

/-! ## Steps of the reader -/

section steps

variable {state state' : Reading} {stack stack' : List Frame} {c : Char} {cs rest : List Char}
  {v : Json} {key : String}

theorem readFrom?_more (h : step state stack cs = .more state' stack' rest) :
    readFrom? state stack cs = readFrom? state' stack' rest := by
  rw [readFrom?]
  split <;> simp_all

theorem readFrom?_done (h : step state stack cs = .done v) : readFrom? state stack cs = some v := by
  rw [readFrom?]
  split <;> simp_all

theorem skipBlanks_cons (hc : isBlank c = false) : skipBlanks (c :: cs) = c :: cs := by
  simp [skipBlanks, hc]

/-- The marks that a document is put together with are no blanks. -/
@[simp] theorem skipBlanks_mark (hc : c ∈ ['"', ':', ',', '[', ']', '\x7b', '\x7d']) :
    skipBlanks (c :: cs) = c :: cs := by
  refine skipBlanks_cons ?_
  simp only [List.mem_cons, List.not_mem_nil, or_false] at hc
  rcases hc with rfl | rfl | rfl | rfl | rfl | rfl | rfl <;> rfl

theorem toList_quoted (s : String) (rest : List Char) :
    (quoted s).toList ++ rest = '"' :: (s.toList.flatMap escape ++ '"' :: rest) := by
  simp [quoted]

theorem read?_quoted (s : String) (rest : List Char) :
    Quoted.read? "" (s.toList.flatMap escape ++ '"' :: rest) = some (s, rest) := by
  rw [Quoted.read?_flatMap_escape]
  simp

theorem readKey?_quoted (key : String) (rest : List Char) :
    readKey? ((quoted key).toList ++ ':' :: rest) = some (key, rest) := by
  simp [readKey?, toList_quoted, read?_quoted]

/-- A value that is no array or object is read in one step. -/
theorem startValue_of_scalar (hc : isBlank c = false ∧ c ≠ '[' ∧ c ≠ '\x7b')
    (hv : readScalar? (c :: cs) = some (v, rest)) :
    startValue stack (c :: cs) = .more (.after v) stack rest := by
  obtain ⟨hblank, harr, hobj⟩ := hc
  rw [startValue, skipBlanks_cons hblank]
  simp [harr, hobj, hv]

theorem startValue_arr (hc : isBlank c = false ∧ c ≠ ']') :
    startValue stack ('[' :: c :: cs) = .more .value (.items [] :: stack) (c :: cs) := by
  simp [startValue, skipBlanks_cons hc.1, hc.2]

theorem startValue_obj (key : String) (rest : List Char) :
    startValue stack ('\x7b' :: ((quoted key).toList ++ ':' :: rest)) =
      .more .value (.members [] key :: stack) rest := by
  have hkey := readKey?_quoted key rest
  rw [toList_quoted] at hkey ⊢
  simp [startValue, hkey]

/-- An integer starts with a digit or a sign. -/
theorem exists_cons_spelled (n : Int) :
    ∃ c cs, n.repr.toList = c :: cs ∧ (c = '-' ∨ c.isDigit = true) := by
  rw [Text.toList_repr]
  split
  · exact ⟨'-', _, rfl, .inl rfl⟩
  · obtain ⟨d, ds, hds, hd⟩ := Numeral.exists_cons_toDigits n.natAbs
    exact ⟨d, ds, hds, .inr hd⟩

/-- No other value starts like an integer. -/
theorem apart_of_digit {c : Char} (hc : c = '-' ∨ c.isDigit = true) :
    isBlank c = false ∧ c ∉ ['"', 't', 'f', 'n', '[', ']', '\x7b'] := by
  rcases hc with rfl | hc
  · decide
  · constructor
    · by_contra hblank
      simp only [Bool.not_eq_false, isBlank, Bool.or_eq_true, decide_eq_true_eq] at hblank
      rcases hblank with ((rfl | rfl) | rfl) | rfl <;> cases hc
    · intro hmem
      simp only [List.mem_cons, List.not_mem_nil, or_false] at hmem
      rcases hmem with rfl | rfl | rfl | rfl | rfl | rfl | rfl <;> cases hc

theorem readScalar?_int (n : WideInt) (hrest : EndsValue rest) :
    readScalar? (n.val.repr.toList ++ rest) = some (.num (.int n), rest) := by
  obtain ⟨c, cs, hcs, hc⟩ := exists_cons_spelled n.val
  have hapart := (apart_of_digit hc).2
  have hread := Numeral.read?_spelled n.val hrest
  rw [hcs, List.cons_append] at hread ⊢
  rw [readScalar?]
  · simp [hread, Numeral.number?_spelled]
  all_goals
    intros
    simp_all

/-- What does not go on in an array ends a value. -/
theorem endsValue_moreItems (vs : List Json) (rest : List Char) :
    EndsValue (moreItems vs ++ rest) := by
  cases vs with
  | nil => rintro _ ⟨⟩; exact .inr (.inl rfl)
  | cons v vs => rintro _ ⟨⟩; exact .inl rfl

theorem endsValue_moreMembers (ms : List (String × Json)) (rest : List Char) :
    EndsValue (moreMembers ms ++ rest) := by
  cases ms with
  | nil => rintro _ ⟨⟩; exact .inr (.inr rfl)
  | cons m ms => rintro _ ⟨⟩; exact .inl rfl

/-- A value does not start like the end of an array, nor with a blank. -/
theorem Exact.exists_cons (hv : v.Exact) :
    ∃ c cs, v.letters = c :: cs ∧ isBlank c = false ∧ c ≠ ']' := by
  cases hv with
  | bool value => cases value <;> exact ⟨_, _, rfl, by decide, by decide⟩
  | int n =>
    obtain ⟨c, cs, hcs, hc⟩ := exists_cons_spelled n.val
    have hapart := apart_of_digit hc
    exact ⟨c, cs, hcs, hapart.1, fun heq => hapart.2 (by simp [heq])⟩
  | str value =>
    exact ⟨'"', _, (List.append_nil _).symm.trans (toList_quoted value []), by decide, by decide⟩
  | _ => exact ⟨_, _, rfl, by decide, by decide⟩

end steps

/-! ## Documents -/

section documents

variable {stack : List Frame} {rest : List Char} {v : Json} {key : String}

/-- A value is read where it stands: the reader is left with what comes behind it, and the stack is
as before. -/
def ReadsBack (v : Json) : Prop :=
  ∀ stack rest, EndsValue rest →
    readFrom? .value stack (v.letters ++ rest) = readFrom? (.after v) stack rest

theorem readsBack_of_scalar {c : Char} {cs : List Char} (hv : v.letters = c :: cs)
    (hc : isBlank c = false ∧ c ≠ '[' ∧ c ≠ '\x7b')
    (hread : ∀ rest, EndsValue rest → readScalar? (v.letters ++ rest) = some (v, rest)) :
    ReadsBack v := by
  intro stack rest hrest
  have hread := hread rest hrest
  rw [hv, List.cons_append] at hread ⊢
  exact readFrom?_more (startValue_of_scalar hc hread)

/-- The items of an array are read one after the other, and then the array is complete. -/
theorem readFrom?_moreItems {vs : List Json} (hvs : ∀ w ∈ vs, ReadsBack w) (v : Json)
    (done : List Json) :
    readFrom? (.after v) (.items done :: stack) (moreItems vs ++ rest) =
      readFrom? (.after (.arr (done.reverse ++ v :: vs))) stack rest := by
  induction vs generalizing v done with
  | nil =>
    refine readFrom?_more ?_
    simp [step, afterValue, moreItems]
  | cons w vs ih =>
    obtain ⟨hw, hvs⟩ := List.forall_mem_cons.mp hvs
    have hstep : step (.after v) (.items done :: stack) (moreItems (w :: vs) ++ rest) =
        .more .value (.items (v :: done) :: stack) (w.letters ++ (moreItems vs ++ rest)) := by
      simp [step, afterValue, moreItems]
    rw [readFrom?_more hstep, hw _ _ (endsValue_moreItems vs rest), ih hvs]
    simp

/-- A member with a new key comes behind the others. -/
theorem setMember_of_nodup {key : String} {v : Json} {done ms : List (String × Json)}
    (hkeys : ((done ++ (key, v) :: ms).map Prod.fst).Nodup) :
    setMember key v done = done ++ [(key, v)] := by
  induction done with
  | nil => rfl
  | cons m done ih =>
    rw [List.cons_append, List.map_cons, List.nodup_cons] at hkeys
    have hne : m.1 ≠ key := fun heq => hkeys.1 (by simp [heq])
    rw [setMember, if_neg hne, ih hkeys.2, List.cons_append]

/-- The members of an object are read one after the other, and stay in their order if every key is
new. -/
theorem readFrom?_moreMembers {ms : List (String × Json)} (hms : ∀ m ∈ ms, ReadsBack m.2)
    (key : String) (v : Json) (done : List (String × Json))
    (hkeys : ((done ++ (key, v) :: ms).map Prod.fst).Nodup) :
    readFrom? (.after v) (.members done key :: stack) (moreMembers ms ++ rest) =
      readFrom? (.after (.obj (done ++ (key, v) :: ms))) stack rest := by
  induction ms generalizing key v done with
  | nil =>
    refine readFrom?_more ?_
    simp [step, afterValue, moreMembers, setMember_of_nodup hkeys]
  | cons m ms ih =>
    obtain ⟨next, w⟩ := m
    obtain ⟨hw, hms⟩ := List.forall_mem_cons.mp hms
    have hstep :
        step (.after v) (.members done key :: stack) (moreMembers ((next, w) :: ms) ++ rest) =
          .more .value (.members (done ++ [(key, v)]) next :: stack)
            (w.letters ++ (moreMembers ms ++ rest)) := by
      have hkey := readKey?_quoted next (w.letters ++ (moreMembers ms ++ rest))
      simp [step, afterValue, moreMembers, setMember_of_nodup hkeys, hkey]
    have hmore : ((done ++ [(key, v)] ++ (next, w) :: ms).map Prod.fst).Nodup := by
      simpa using hkeys
    rw [readFrom?_more hstep, hw _ _ (endsValue_moreMembers ms rest), ih hms _ _ _ hmore]
    simp

/-- Every value that was written is read where it stands. -/
theorem Exact.readsBack (hv : v.Exact) : ReadsBack v := by
  induction hv with
  | null => exact readsBack_of_scalar rfl (by decide) fun _ _ => rfl
  | bool value => cases value <;> exact readsBack_of_scalar rfl (by decide) fun _ _ => rfl
  | int n =>
    obtain ⟨c, cs, hcs, hc⟩ := exists_cons_spelled n.val
    obtain ⟨hblank, hapart⟩ := apart_of_digit hc
    refine readsBack_of_scalar hcs ⟨hblank, ?_, ?_⟩ fun rest hrest => readScalar?_int n hrest
    · rintro rfl
      simp at hapart
    · rintro rfl
      simp at hapart
  | str value =>
    have hletters : (Json.str value).letters = '"' :: (value.toList.flatMap escape ++ ['"']) :=
      (List.append_nil _).symm.trans (toList_quoted value [])
    refine readsBack_of_scalar hletters (by decide) fun rest _ => ?_
    rw [letters, toList_quoted, readScalar?, read?_quoted]
    rfl
  | @arr items each ih =>
    intro stack rest hrest
    cases items with
    | nil =>
      refine readFrom?_more ?_
      simp [step, startValue, letters, itemLetters]
    | cons v vs =>
      obtain ⟨hv, hvs⟩ := List.forall_mem_cons.mp ih
      obtain ⟨c, cs, hcs, hc⟩ := (each v List.mem_cons_self).exists_cons
      have hstep : step .value stack ((Json.arr (v :: vs)).letters ++ rest) =
          .more .value (.items [] :: stack) (v.letters ++ (moreItems vs ++ rest)) := by
        rw [step, letters, itemLetters, hcs]
        simpa using startValue_arr hc
      rw [readFrom?_more hstep, hv _ _ (endsValue_moreItems vs rest), readFrom?_moreItems hvs]
      rfl
  | @obj members keys each ih =>
    intro stack rest hrest
    match members with
    | [] =>
      refine readFrom?_more ?_
      simp [step, startValue, letters, memberLetters]
    | (key, v) :: ms =>
      obtain ⟨hv, hms⟩ := List.forall_mem_cons.mp ih
      have hstep : step .value stack ((Json.obj ((key, v) :: ms)).letters ++ rest) =
          .more .value (.members [] key :: stack) (v.letters ++ (moreMembers ms ++ rest)) := by
        rw [step, letters, memberLetters]
        simpa using startValue_obj key (v.letters ++ (moreMembers ms ++ rest))
      rw [readFrom?_more hstep, hv _ _ (endsValue_moreMembers ms rest),
        readFrom?_moreMembers hms _ _ _ keys]
      rfl

/-- A document is read back from its compact text. -/
theorem Exact.read?_compact (hv : v.Exact) : read? v.compact = some v := by
  have hend : readFrom? (.after v) [] [] = some v := readFrom?_done rfl
  rw [read?, toList_compact, ← List.append_nil v.letters, hv.readsBack [] [] nofun, hend]

end documents

end Json

/-! ## Exports -/

/-- All that a tree is exported as can be read back. -/
theorem Tree.exact_toJson (t : Tree Empty) : t.toJson.Exact := by
  induction t using childrenInduction with
  | seq ts ih =>
    rw [toJson, toJsonAll_eq_map]
    exact .arr (List.forall_mem_map.mpr ih)
  | leaf t ht =>
    cases t with
    | seq ts => exact absurd rfl (ht ts)
    | cut stub => cases stub
    | sint value => exact .int _
    | uint value => exact .int _
    | user tag =>
      refine .obj (List.nodup_singleton _) ?_
      exact List.forall_mem_singleton.mpr (.int _)
    | bytes data =>
      rw [toJson]
      cases utf8? data with
      | some s => exact .str s
      | none => exact .arr (List.forall_mem_map.mpr fun b _ => .int _)

namespace Arena

/-- The text of an export is that of its document, which can be read back. -/
theorem jsonText_of_toJson {a : Arena} {h : Handle} {v : Json} (hv : a.toJson h = .ok v) :
    a.jsonText h = .ok v.compact ∧ v.Exact := by
  obtain ⟨t, ht, hv⟩ := Outcome.bind_eq_ok_iff.mp hv
  obtain rfl : t.toJson = v := Except.ok.inj hv
  exact ⟨(toJson_of_exportTree ht).2, t.exact_toJson⟩

/-- The text of an export and its document say the same. Both succeed, or both fail with the same
failure. The text is read as the document, so that an import of either does the same to any arena,
and the texts of two exports are the same exactly if their documents are. -/
theorem text_and_value_agree (a : Arena) (h : Handle) :
    (∀ e, a.jsonText h = .error e ↔ a.toJson h = .error e) ∧
    ∀ v, a.toJson h = .ok v →
      ∃ s, a.jsonText h = .ok s ∧ Json.read? s = some v ∧
        (∀ b : Arena, (Json.read? s).map b.addJson = some (b.addJson v)) ∧
        ∀ (b : Arena) (k : Handle) (w : Json) (u : String),
          b.toJson k = .ok w → b.jsonText k = .ok u → (s = u ↔ v = w) := by
  constructor
  · intro e
    rw [jsonText, toJson]
    cases a.exportTree h <;> simp
  · intro v hv
    obtain ⟨htext, hexact⟩ := jsonText_of_toJson hv
    have hread := hexact.read?_compact
    refine ⟨_, htext, hread, fun b => by rw [hread, Option.map_some], fun b k w u hw hu => ?_⟩
    obtain ⟨htext', hexact'⟩ := jsonText_of_toJson hw
    obtain rfl : w.compact = u := Except.ok.inj (htext'.symm.trans hu)
    constructor
    · intro heq
      have hsame := hexact'.read?_compact
      rw [← heq, hread] at hsame
      exact Option.some.inj hsame
    · rintro rfl
      rfl

/-- A number beside an application's value. -/
theorem text_and_value_agree_mixed :
    ∃ v, mixed.toJson ⟨3⟩ = .ok v ∧ mixed.jsonText ⟨3⟩ = .ok "[7,\x7b\"user\":64\x7d]" ∧
      Json.read? "[7,\x7b\"user\":64\x7d]" = some v := by
  have htext : mixed.jsonText ⟨3⟩ = .ok "[7,\x7b\"user\":64\x7d]" := by decide +kernel
  obtain ⟨herrors, hvalues⟩ := text_and_value_agree mixed ⟨3⟩
  cases hv : mixed.toJson ⟨3⟩ with
  | error e =>
    have herror := (herrors e).mpr hv
    cases htext.symm.trans herror
  | ok v =>
    obtain ⟨s, hs, hread, -⟩ := hvalues v hv
    obtain rfl : _ = s := Except.ok.inj (htext.symm.trans hs)
    exact ⟨v, rfl, htext, hread⟩

/-! ## Imports that are undone -/

variable {a b : Arena} {v : Json} {root : Handle}

/-- An import that succeeds can be undone by an export, at once or after a run that does not change
the tokens that it made. The text is read back as what is kept of the document. -/
theorem toJson_addJson (hadd : a.addJson v = (.ok root, b)) :
    b.toJson root = .ok v.strip ∧ b.jsonText root = .ok v.strip.compact ∧
      Json.read? v.strip.compact = some v.strip ∧
      ((∀ path members, v.follow? path ≠ some (.obj members)) → v.strip = v) ∧
      (a.Built → ∀ ops, b.Spares (fun h => a.size ≤ h.index ∧ h.index < b.size) ops →
        (b.after ops).toJson root = .ok v.strip ∧
          (b.after ops).jsonText root = .ok v.strip.compact) := by
  obtain ⟨t, ht, hjson⟩ := exportTree_addJson hadd
  have hnow := toJson_of_exportTree ht
  rw [hjson] at hnow
  have hread := (jsonText_of_toJson hnow.1).2.read?_compact
  refine ⟨hnow.1, hnow.2, hread, Json.strip_eq_self, fun ha ops hops => ?_⟩
  obtain ⟨hv, rfl, hb, xs, hblock, hcells⟩ := ha.layout.addJson_ok hadd
  have hsize : b.size = a.size + xs.length := by
    rw [← length_cells, hcells, List.length_append, length_cells]
  have hcontains : (b.after ops).cells.Contains a.size xs := by
    intro k x hx
    obtain ⟨hk, -⟩ := List.getElem?_eq_some_iff.mp hx
    have hkept : a.size ≤ a.size + k ∧ a.size + k < b.size := by omega
    exact hb.after_keeps (h := ⟨a.size + k⟩) hops hkept (contains_behind hcells k x hx)
  obtain ⟨u, hu, hjson⟩ := (hb.after ops).exportTree_block hv hblock hcontains
  have hlater := toJson_of_exportTree hu
  rwa [hjson] at hlater

/-- A signed `5` and an empty array. -/
def chosen : Json := .arr [.obj [("sint", .num (.int (.ofByte 5)))], .arr []]

/-- Token 0 takes up what was imported, and the number among it refuses to take up anything. -/
def takingUp : List Op :=
  [.change (.push ⟨0⟩ ⟨1⟩), .change (.append ⟨0⟩ ⟨1⟩), .change (.push ⟨2⟩ ⟨0⟩)]

theorem toJson_addJson_chosen :
    ∃ b, empty.addSeq.2.addJson chosen = (.ok ⟨1⟩, b) ∧
      (b.after takingUp).jsonText ⟨1⟩ = .ok "[5,[]]" ∧
      Json.read? "[5,[]]" = some chosen.strip ∧
      (b.after takingUp).elementsOf ⟨0⟩ = .ok { items := #[⟨1⟩, ⟨2⟩, ⟨3⟩] } := by
  have hadd : empty.addSeq.2.addJson chosen = (.ok ⟨1⟩, (empty.addSeq.2.addJson chosen).2) := rfl
  have hbuilt : empty.addSeq.2.Built := built_after [.change .addSeq]
  obtain ⟨-, -, hread, -, hlater⟩ := toJson_addJson hadd
  refine ⟨_, hadd, (hlater hbuilt takingUp ?_).2, hread, rfl⟩
  refine ⟨⟨nofun, ?_⟩, ⟨nofun, ?_⟩, ⟨nofun, ?_⟩, trivial⟩
  · rintro h ⟨⟩ ⟨hle, -⟩
    cases hle
  · rintro h ⟨⟩ ⟨hle, -⟩
    cases hle
  · rintro h ⟨⟩ -
    rfl

end Arena

end TokenStore
