/-!
# Kind tags

A tag says of which kind a token is. Built-in kinds and the kinds of an application share one
ordered space: every tag below `Tag.firstUser` is reserved, the others are free for applications.

## Main definitions

* `Tag`: a kind tag, with the built-in kinds as constants.
* `Tag.isUser`: the tag belongs to an application.
* `Tag.text`: the tag in words, as messages show it.
-/

namespace TokenStore

/-- A kind tag. -/
structure Tag where
  code : UInt32
  deriving DecidableEq, Inhabited

namespace Tag

def bytes : Tag := ⟨2⟩

def sint : Tag := ⟨4⟩

def uint : Tag := ⟨8⟩

def sequence : Tag := ⟨16⟩

/-- The first tag that an application may use. -/
def firstUser : Tag := ⟨64⟩

/-- Tags are ordered by their codes. -/
instance : Ord Tag where
  compare a b := compare a.code b.code

def isUser (t : Tag) : Bool :=
  firstUser.code ≤ t.code

/-- The name of a built-in kind. Reserved tags without a kind have no name. -/
def builtinName? (t : Tag) : Option String :=
  if t = bytes then some "BYTES"
  else if t = sint then some "SINT"
  else if t = uint then some "UINT"
  else if t = sequence then some "SEQUENCE"
  else none

/-- The tag in words. A tag without a built-in name shows its code, reserved or not. -/
def text (t : Tag) : String :=
  match t.builtinName? with
  | some name => name
  | none => s!"USER({t.code.toNat})"

theorem isUser_iff (t : Tag) : t.isUser = true ↔ 64 ≤ t.code.toNat := by
  simp [isUser, firstUser, UInt32.le_iff_toNat_le]

/-- No built-in kind carries an application's tag. -/
theorem builtinName?_eq_none_of_isUser {t : Tag} (h : t.isUser = true) :
    t.builtinName? = none := by
  rw [isUser_iff] at h
  have apart (k : Tag) (hk : k.code.toNat < 64) : t ≠ k := by rintro rfl; omega
  simp [builtinName?, apart bytes (by decide), apart sint (by decide), apart uint (by decide),
    apart sequence (by decide)]

end Tag

end TokenStore
