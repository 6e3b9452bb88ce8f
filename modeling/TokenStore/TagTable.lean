import Std.Data.HashMap
import TokenStore.Tag

/-!
# Names for application tags

A table hands out application tags in order, one for each new name, so that the same names in the
same order have the same tags on every run.

## Main definitions

* `TagTable.intern`: the tag of a name, a fresh one if the name is new.
* `TagTable.tag?` and `TagTable.name?`: from names to tags and back.
-/

namespace TokenStore

structure TagTable where
  /-- The names in the order of their first appearance. -/
  names : Array String := #[]
  tags : Std.HashMap String Tag := ∅

namespace TagTable

def empty : TagTable := {}

/-- The tag of the n-th new name: consecutive from the first application tag, and the largest of
all tags once these are used up. -/
def tagAt (n : Nat) : Tag :=
  ⟨UInt32.ofNat (min (Tag.firstUser.code.toNat + n) 0xffffffff)⟩

def intern (t : TagTable) (name : String) : Tag × TagTable :=
  match t.tags[name]? with
  | some tag => (tag, t)
  | none =>
    let tag := tagAt t.names.size
    (tag, { names := t.names.push name, tags := t.tags.insert name tag })

def tag? (t : TagTable) (name : String) : Option Tag := t.tags[name]?

/-- The name of a tag. Built-in tags go by their own names. -/
def name? (t : TagTable) (tag : Tag) : Option String :=
  match tag.builtinName? with
  | some name => some name
  | none =>
    if tag.isUser then t.names[tag.code.toNat - Tag.firstUser.code.toNat]? else none

def size (t : TagTable) : Nat := t.names.size

def isEmpty (t : TagTable) : Bool := t.names.isEmpty

end TagTable

end TokenStore
