import TokenStore.Json.Number

/-!
# JSON documents

The value of a JSON document. Members of an object keep the order of their first appearance.
-/

namespace TokenStore

inductive Json where
  | null
  | bool (value : Bool)
  | num (value : Number)
  | str (value : String)
  | arr (items : List Json)
  | obj (members : List (String × Json))
  deriving Inhabited

namespace Json

/-- Sets a member. A key that is there already keeps its place and takes the new value. -/
def setMember (key : String) (value : Json) :
    List (String × Json) → List (String × Json)
  | [] => [(key, value)]
  | m :: rest =>
    if m.1 = key then (key, value) :: rest else m :: setMember key value rest

/-- The array of the bytes as numbers. -/
def ofBytes (data : List UInt8) : Json :=
  arr (data.map fun b => num (.int (.ofByte b)))

/-- Induction over nested arrays. -/
@[elab_as_elim]
theorem itemsInduction {motive : Json → Prop}
    (arr : ∀ items, (∀ v ∈ items, motive v) → motive (.arr items))
    (other : ∀ v, (∀ items, v ≠ .arr items) → motive v) : ∀ v, motive v
  | .arr items => arr items fun v _ => itemsInduction arr other v
  | .null => other _ nofun
  | .bool _ => other _ nofun
  | .num _ => other _ nofun
  | .str _ => other _ nofun
  | .obj _ => other _ nofun

end Json

end TokenStore
