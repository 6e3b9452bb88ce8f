import Mathlib.Algebra.Group.Nat.Defs
import Mathlib.Data.List.Induction
import Mathlib.Data.List.Nodup
import TokenStore.TagTable

/-!
# Names and tags

A table is read in two directions. Along every run of `intern` they stay inverse to each other, as
long as there are tags for all names. Names beyond that share the largest tag, and the table still
finds each of them.

## Main definitions

* `TagTable.internAll`: the table after a run.
* `TagTable.Inverse`: each name stands once, and its tag counts its place.
* `TagTable.Counted`: what a run leads to.
-/

namespace TokenStore

/-- One more member is a new one, or it was met before. -/
theorem eraseDups_concat (xs : List String) (x : String) :
    (xs ++ [x]).eraseDups = if x ∈ xs then xs.eraseDups else xs.eraseDups ++ [x] := by
  rw [List.eraseDups_append]
  by_cases hx : x ∈ xs <;> simp [List.removeAll, hx, List.eraseDups_cons]

theorem eraseDups_of_nodup {xs : List String} (h : xs.Nodup) : xs.eraseDups = xs := by
  induction xs using List.reverseRecOn with
  | nil => rfl
  | append_singleton xs x ih =>
    rw [← List.concat_eq_append, List.nodup_concat] at h
    rw [eraseDups_concat, if_neg h.1, ih h.2]

theorem getElem?_push_eq_some_iff {xs : Array String} {x y : String} {i : Nat} :
    (xs.push x)[i]? = some y ↔ xs[i]? = some y ∨ (i = xs.size ∧ x = y) := by
  rw [Array.getElem?_push]
  by_cases hi : i = xs.size
  · simp [hi]
  · simp [hi]

namespace TagTable

/-- The table after names were interned, one after the other. -/
def internAll (t : TagTable) (calls : List String) : TagTable :=
  calls.foldl (fun t name => (t.intern name).2) t

/-- Each name stands once, and its tag counts its place. -/
structure Inverse (t : TagTable) : Prop where
  nodup : t.names.toList.Nodup
  tags : ∀ name tag, t.tag? name = some tag ↔ ∃ i, t.names[i]? = some name ∧ tag = tagAt i

theorem toNat_tagAt (n : Nat) : (tagAt n).code.toNat = min (64 + n) (2 ^ 32 - 1) := by
  have hlt : min (64 + n) (2 ^ 32 - 1) < 2 ^ 32 := by omega
  exact UInt32.toNat_ofNat'.trans (Nat.mod_eq_of_lt hlt)

theorem tag_eq_tagAt_iff {tag : Tag} {n : Nat} :
    tag = tagAt n ↔ tag.code.toNat = min (64 + n) (2 ^ 32 - 1) := by
  rw [← toNat_tagAt, UInt32.toNat_inj]
  exact ⟨fun heq => heq ▸ rfl, fun heq => congrArg Tag.mk heq⟩

/-! ## One step -/

section step

variable {t : TagTable} {name other : String} {tag : Tag}

theorem intern_of_some (h : t.tag? name = some tag) : t.intern name = (tag, t) := by
  have htags : t.tags[name]? = some tag := h
  simp [intern, htags]

theorem intern_of_none (h : t.tag? name = none) :
    t.intern name = (tagAt t.names.size,
      { names := t.names.push name, tags := t.tags.insert name (tagAt t.names.size) }) := by
  have htags : t.tags[name]? = none := h
  simp [intern, htags]

/-- The tag that is answered is the one that is found. -/
theorem tag?_intern_self (t : TagTable) (name : String) :
    (t.intern name).2.tag? name = some (t.intern name).1 := by
  cases h : t.tag? name with
  | some tag => rw [intern_of_some h, h]
  | none => simp [intern_of_none h, tag?]

/-- What was found once stays as it is. -/
theorem tag?_intern (h : t.tag? other = some tag) (name : String) :
    (t.intern name).2.tag? other = some tag := by
  cases hname : t.tag? name with
  | some _ => rwa [intern_of_some hname]
  | none =>
    have hne : name ≠ other := by
      rintro rfl
      cases hname.symm.trans h
    simpa [intern_of_none hname, tag?, Std.HashMap.getElem?_insert, hne] using h

theorem Inverse.exists_tag?_iff (h : t.Inverse) :
    (∃ tag, t.tag? name = some tag) ↔ name ∈ t.names.toList := by
  simp only [h.tags, List.mem_iff_getElem?, Array.getElem?_toList]
  constructor
  · rintro ⟨tag, i, hi, -⟩
    exact ⟨i, hi⟩
  · rintro ⟨i, hi⟩
    exact ⟨_, i, hi, rfl⟩

theorem Inverse.tag?_eq_none_iff (h : t.Inverse) : t.tag? name = none ↔ name ∉ t.names.toList := by
  rw [← h.exists_tag?_iff, ← Option.ne_none_iff_exists', not_not]

theorem Inverse.names_intern (h : t.Inverse) (name : String) :
    (t.intern name).2.names.toList =
      if name ∈ t.names.toList then t.names.toList else t.names.toList ++ [name] := by
  cases hname : t.tag? name with
  | some tag =>
    have hmem : name ∈ t.names.toList := by
      by_contra hmem
      cases hname.symm.trans (h.tag?_eq_none_iff.mpr hmem)
    rw [intern_of_some hname, if_pos hmem]
  | none =>
    rw [intern_of_none hname, if_neg (h.tag?_eq_none_iff.mp hname), Array.toList_push]

theorem inverse_empty : empty.Inverse := by
  refine ⟨List.nodup_nil, fun name tag => ?_⟩
  simp [empty, tag?]

/-- One step: a new name is put where its tag counts to. -/
theorem Inverse.intern (h : t.Inverse) (name : String) : (t.intern name).2.Inverse := by
  cases hname : t.tag? name with
  | some tag => rwa [intern_of_some hname]
  | none =>
    have hnew := h.tag?_eq_none_iff.mp hname
    rw [intern_of_none hname]
    refine ⟨?_, fun other tag => ?_⟩
    · rw [Array.toList_push, ← List.concat_eq_append, List.nodup_concat]
      exact ⟨hnew, h.nodup⟩
    · rw [tag?, Std.HashMap.getElem?_insert]
      simp only [getElem?_push_eq_some_iff, or_and_right, exists_or, ← h.tags]
      by_cases hother : name = other
      · subst hother
        simp [hname, eq_comm]
      · simp [hother, tag?]

end step

/-! ## Names and tags of a table -/

section table

variable {t : TagTable} {name other : String} {tag : Tag}

theorem name?_eq (t : TagTable) {i : Nat} (htag : tag.code.toNat = 64 + i) :
    t.name? tag = t.names[i]? := by
  have huser : tag.isUser = true := (Tag.isUser_iff tag).mpr (by omega)
  have hplace : tag.code.toNat - Tag.firstUser.code.toNat = i := by
    rw [htag]
    exact Nat.add_sub_cancel_left 64 i
  rw [name?, Tag.builtinName?_eq_none_of_isUser huser]
  simp only [huser, if_true, hplace]

theorem Inverse.tag?_eq_some_iff (h : t.Inverse) :
    t.tag? name = some tag ↔
      ∃ i, t.names.toList[i]? = some name ∧ tag.code.toNat = min (64 + i) (2 ^ 32 - 1) := by
  simp only [h.tags, tag_eq_tagAt_iff, Array.getElem?_toList]

theorem Inverse.le_of_tag? (h : t.Inverse) (htag : t.tag? name = some tag) :
    64 ≤ tag.code.toNat := by
  obtain ⟨i, -, hi⟩ := h.tag?_eq_some_iff.mp htag
  omega

/-- While there are tags for all names, a name is found under the tag that is found for it, and the
other way round. -/
theorem Inverse.tag?_iff_name? (h : t.Inverse) (hsize : t.names.toList.length ≤ 2 ^ 32 - 64) :
    t.tag? name = some tag ↔ 64 ≤ tag.code.toNat ∧ t.name? tag = some name := by
  rw [h.tag?_eq_some_iff]
  constructor
  · rintro ⟨i, hi, htag⟩
    obtain ⟨hlt, -⟩ := List.getElem?_eq_some_iff.mp hi
    have hcode : tag.code.toNat = 64 + i := by omega
    exact ⟨by omega, by rw [t.name?_eq hcode, ← hi, Array.getElem?_toList]⟩
  · rintro ⟨hle, hname⟩
    have hlt : tag.code.toNat < 2 ^ 32 := tag.code.toNat_lt
    have hcode : tag.code.toNat = 64 + (tag.code.toNat - 64) := by omega
    rw [t.name?_eq hcode, ← Array.getElem?_toList] at hname
    exact ⟨_, hname, by omega⟩

theorem Inverse.exists_name_iff (h : t.Inverse) (hsize : t.names.toList.length ≤ 2 ^ 32 - 64) :
    (∃ name, t.tag? name = some tag) ↔
      64 ≤ tag.code.toNat ∧ tag.code.toNat < 64 + t.names.toList.length := by
  constructor
  · rintro ⟨name, htag⟩
    obtain ⟨i, hi, hcode⟩ := h.tag?_eq_some_iff.mp htag
    obtain ⟨hlt, -⟩ := List.getElem?_eq_some_iff.mp hi
    omega
  · rintro ⟨hle, hlt⟩
    have hi : tag.code.toNat - 64 < t.names.toList.length := by omega
    exact ⟨_, h.tag?_eq_some_iff.mpr ⟨_, List.getElem?_eq_getElem hi, by omega⟩⟩

end table

/-! ## Runs -/

section run

variable {t : TagTable} {name : String} {tag : Tag}

theorem internAll_append (t : TagTable) (calls later : List String) :
    t.internAll (calls ++ later) = (t.internAll calls).internAll later := List.foldl_append

theorem internAll_concat (t : TagTable) (calls : List String) (name : String) :
    t.internAll (calls ++ [name]) = ((t.internAll calls).intern name).2 :=
  t.internAll_append calls [name]

theorem tag?_internAll (h : t.tag? name = some tag) (later : List String) :
    (t.internAll later).tag? name = some tag := by
  induction later generalizing t with
  | nil => exact h
  | cons other later ih => exact ih (tag?_intern h other)

/-- What was answered in the course of a run is what is found after it. -/
theorem tag?_of_call (t : TagTable) (before : List String) (name : String) (later : List String) :
    (t.internAll (before ++ name :: later)).tag? name =
      some ((t.internAll before).intern name).1 := by
  rw [internAll_append]
  exact tag?_internAll (tag?_intern_self _ name) later

theorem inverse_internAll (calls : List String) : (empty.internAll calls).Inverse := by
  induction calls using List.reverseRecOn with
  | nil => exact inverse_empty
  | append_singleton calls name ih =>
    rw [internAll_concat]
    exact ih.intern name

theorem names_internAll (calls : List String) :
    (empty.internAll calls).names.toList = calls.eraseDups := by
  induction calls using List.reverseRecOn with
  | nil => rfl
  | append_singleton calls name ih =>
    rw [internAll_concat, (inverse_internAll calls).names_intern, eraseDups_concat, ih]
    simp only [List.mem_eraseDups]

end run

/-- The table after a run of calls in which `names` were met first in this order. -/
structure Counted (calls names : List String) (t : TagTable) : Prop where
  /-- Whenever a name is interned, the tag that is answered counts its place. -/
  answered : ∀ i name, names[i]? = some name → ∀ before later, calls = before ++ name :: later →
    ((empty.internAll before).intern name).1.code.toNat = min (64 + i) (2 ^ 32 - 1)
  size : t.size = names.length
  found : ∀ name tag, t.tag? name = some tag ↔
    ∃ i, names[i]? = some name ∧ tag.code.toNat = min (64 + i) (2 ^ 32 - 1)
  kept : ∀ name tag, t.tag? name = some tag → ∀ later, (t.internAll later).tag? name = some tag
  named : ∀ i tag, tag.code.toNat = 64 + i → t.name? tag = names[i]?
  /-- While there are tags for all names, names and tags are inverse to each other. -/
  inverse : names.length ≤ 2 ^ 32 - 64 →
    (∀ name tag, t.tag? name = some tag ↔ 64 ≤ tag.code.toNat ∧ t.name? tag = some name) ∧
    (∀ tag, (∃ name, t.tag? name = some tag) ↔
      64 ≤ tag.code.toNat ∧ tag.code.toNat < 64 + names.length) ∧
    ∀ name other tag, t.tag? name = some tag → t.tag? other = some tag → name = other
  /-- The first name beyond that shares its tag with the one before. -/
  shared : ∀ previous name, names[2 ^ 32 - 65]? = some previous →
    names[2 ^ 32 - 64]? = some name →
    previous ≠ name ∧ t.tag? previous = some ⟨0xffffffff⟩ ∧ t.tag? name = some ⟨0xffffffff⟩
  /-- The name of a built-in kind is a name like any other, and has an application's tag. -/
  foreign : ∀ name tag, t.tag? name = some tag → 64 ≤ tag.code.toNat ∧ tag.builtinName? = none

/-- After any run, the names are those that were met, in the order of their first appearance, and
their tags count them. -/
theorem tags_count_places (calls : List String) :
    Counted calls calls.eraseDups (empty.internAll calls) := by
  have ht : (empty.internAll calls).Inverse := inverse_internAll calls
  rw [← names_internAll calls]
  constructor
  case answered =>
    intro i name hi before later hcalls
    have hcall : (empty.internAll calls).tag? name =
        some ((empty.internAll before).intern name).1 := by
      rw [← tag?_of_call empty before name later, ← hcalls]
    obtain ⟨j, hj, htag⟩ := ht.tag?_eq_some_iff.mp hcall
    obtain ⟨hlt, -⟩ := List.getElem?_eq_some_iff.mp hi
    rw [htag, (List.getElem?_inj hlt ht.nodup).mp (hi.trans hj.symm)]
  case size => exact Array.length_toList.symm
  case found => exact fun name tag => ht.tag?_eq_some_iff
  case kept => exact fun name tag => tag?_internAll
  case named =>
    intro i tag htag
    rw [name?_eq _ htag, Array.getElem?_toList]
  case inverse =>
    intro hlength
    refine ⟨fun name tag => ht.tag?_iff_name? hlength, fun tag => ht.exists_name_iff hlength, ?_⟩
    intro name other tag hname hother
    have hsame := ((ht.tag?_iff_name? hlength).mp hname).2
    exact Option.some.inj (hsame.symm.trans ((ht.tag?_iff_name? hlength).mp hother).2)
  case shared =>
    intro previous name hprevious hname
    refine ⟨?_, ht.tag?_eq_some_iff.mpr ⟨_, hprevious, by decide⟩,
      ht.tag?_eq_some_iff.mpr ⟨_, hname, by decide⟩⟩
    rintro rfl
    obtain ⟨hlt, -⟩ := List.getElem?_eq_some_iff.mp hprevious
    have hplace := (List.getElem?_inj hlt ht.nodup).mp (hprevious.trans hname.symm)
    omega
  case foreign =>
    intro name tag htag
    have hle := ht.le_of_tag? htag
    exact ⟨hle, Tag.builtinName?_eq_none_of_isUser ((Tag.isUser_iff tag).mpr hle)⟩

/-- One name more than there are tags. -/
def tooMany : List String :=
  (List.range (2 ^ 32 - 63)).map fun n => String.ofList (List.replicate n 'a')

theorem nodup_tooMany : tooMany.Nodup := by
  refine List.nodup_range.map fun m n hmn => ?_
  simpa using congrArg String.length hmn

theorem getElem?_tooMany {n : Nat} (hn : n < 2 ^ 32 - 63) :
    tooMany[n]? = some (String.ofList (List.replicate n 'a')) := by
  rw [tooMany, List.getElem?_map, List.getElem?_range hn, Option.map_some]

/-- A name of a built-in kind has an application's tag if it was interned, and none otherwise. Of
too many names, two have the same tag. -/
theorem tags_count_places_ends :
    (∃ t, t = empty.internAll ["ident", "UINT", "ident"] ∧
      t.tag? "UINT" = some ⟨65⟩ ∧ t.name? ⟨65⟩ = some "UINT" ∧ t.tag? "BYTES" = none) ∧
    ∃ name other, name ≠ other ∧
      (empty.internAll tooMany).tag? name = (empty.internAll tooMany).tag? other := by
  constructor
  · have hcount := tags_count_places ["ident", "UINT", "ident"]
    have hnames : ["ident", "UINT", "ident"].eraseDups = ["ident", "UINT"] := by decide
    rw [hnames] at hcount
    refine ⟨_, rfl, (hcount.found _ _).mpr ⟨1, rfl, rfl⟩, hcount.named 1 ⟨65⟩ rfl, ?_⟩
    refine Option.eq_none_iff_forall_ne_some.mpr fun tag htag => ?_
    obtain ⟨i, hi, -⟩ := (hcount.found _ _).mp htag
    exact absurd (List.mem_of_getElem? hi) (by decide)
  · have hcount := tags_count_places tooMany
    rw [eraseDups_of_nodup nodup_tooMany] at hcount
    obtain ⟨hne, hprevious, hlast⟩ :=
      hcount.shared _ _ (getElem?_tooMany (by omega)) (getElem?_tooMany (by omega))
    exact ⟨_, _, hne, hprevious.trans hlast.symm⟩

end TagTable

end TokenStore
