import TokenStore.Json.Import

/-!
# Cells of single tokens

A token with everything it names is a cell. A scalar of a document becomes one cell or none.

## Main definitions

* `Cell`: a token with everything it names, and its parts.
* `Json.cell`: the cell of a scalar.
-/

namespace TokenStore

/-- A token together with everything it names. -/
inductive Cell where
  | seq (elements : List Handle)
  | bytes (data : List UInt8)
  | sint (value : Int64)
  | uint (value : UInt64)
  | user (tag : Tag) (value : Payload)
  deriving DecidableEq, Inhabited

namespace Cell

def tag : Cell → Tag
  | seq _ => Tag.sequence
  | bytes _ => Tag.bytes
  | sint _ => Tag.sint
  | uint _ => Tag.uint
  | user tag _ => tag

def elements? : Cell → Option (List Handle)
  | seq es => some es
  | _ => none

def content? : Cell → Option (List UInt8)
  | bytes data => some data
  | _ => none

def sint? : Cell → Option Int64
  | sint value => some value
  | _ => none

def uint? : Cell → Option UInt64
  | uint value => some value
  | _ => none

def payload? : Cell → Option Payload
  | user _ value => some value
  | _ => none

/-- The cell is not of the kind asked for. -/
def mismatch (x : Cell) (expected : Tag) : Failure := .misuse (.wrongKind expected x.tag)

section parts

variable {x : Cell}

theorem elements?_eq_none (hx : x.tag ≠ Tag.sequence) : x.elements? = none := by
  cases x with
  | seq es => exact absurd rfl hx
  | _ => rfl

theorem content?_eq_none (hx : x.tag ≠ Tag.bytes) : x.content? = none := by
  cases x with
  | bytes data => exact absurd rfl hx
  | _ => rfl

theorem sint?_eq_none (hx : x.tag ≠ Tag.sint) : x.sint? = none := by
  cases x with
  | sint value => exact absurd rfl hx
  | _ => rfl

theorem uint?_eq_none (hx : x.tag ≠ Tag.uint) : x.uint? = none := by
  cases x with
  | uint value => exact absurd rfl hx
  | _ => rfl

end parts

end Cell

/-- A scalar of a document as a cell, or the fault that there is none. -/
def Json.cell (v : Json) : Except ImportFault Cell :=
  match v with
  | .str s => .ok (.bytes s.toUTF8.data.toList)
  | .num (.float value) => .error (.notInteger value)
  | .num (.int value) =>
    match value.toUInt64? with
    | some n => .ok (.uint n)
    | none => .ok (.sint (Int64.ofInt value.val))
  | .obj [(key, .num n)] =>
    if key = "sint" then
      match n.toInt64? with
      | some n => .ok (.sint n)
      | none => .error (.notSigned n)
    else if key = "uint" then
      match n.toUInt64? with
      | some n => .ok (.uint n)
      | none => .error (.notUnsigned n)
    else
      .error (.unsupportedKey key)
  | .obj [(key, _)] => .error (.unsupportedKey key)
  | .bool _ => .error .boolean
  | .null => .error .null
  | _ => .error .keyCount

namespace Arena

/-- All that the import of a scalar can do: it adds the token of the scalar's cell, or nothing. -/
def AddsCell (v : Json) : Prop :=
  (∃ data, v.cell = .ok (.bytes data) ∧
    ∀ a : Arena, a.addScalar v = (.ok (a.addBytes data).1, (a.addBytes data).2)) ∨
  (∃ n, v.cell = .ok (.sint n) ∧
    ∀ a : Arena, a.addScalar v = (.ok (a.addSint n).1, (a.addSint n).2)) ∨
  (∃ n, v.cell = .ok (.uint n) ∧
    ∀ a : Arena, a.addScalar v = (.ok (a.addUint n).1, (a.addUint n).2)) ∨
  ∃ f, v.cell = .error f ∧ ∀ a : Arena, a.addScalar v = (.error f, a)

theorem addsCell_of_error {v : Json} (f : ImportFault) (hv : v.cell = .error f)
    (hadd : ∀ a : Arena, a.addScalar v = (.error f, a)) : AddsCell v :=
  .inr (.inr (.inr ⟨f, hv, hadd⟩))

theorem addsCell_int (n : WideInt) : AddsCell (.num (.int n)) := by
  cases hn : n.toUInt64? with
  | some m =>
    refine .inr (.inr (.inl ⟨m, by simp [Json.cell, hn], fun a => ?_⟩))
    simp [addScalar, addNumber, hn]
  | none =>
    refine .inr (.inl ⟨Int64.ofInt n.val, by simp [Json.cell, hn], fun a => ?_⟩)
    simp [addScalar, addNumber, hn]

theorem addsCell_member (key : String) (v : Json) : AddsCell (.obj [(key, v)]) := by
  cases v with
  | num n =>
    by_cases hsint : key = "sint"
    · subst hsint
      cases hn : n.toInt64? with
      | some m =>
        refine .inr (.inl ⟨m, by simp [Json.cell, hn], fun a => ?_⟩)
        simp [addScalar, addMember, hn]
      | none =>
        refine addsCell_of_error (.notSigned n) (by simp [Json.cell, hn]) fun a => ?_
        simp [addScalar, addMember, hn]
    · by_cases huint : key = "uint"
      · subst huint
        cases hn : n.toUInt64? with
        | some m =>
          refine .inr (.inr (.inl ⟨m, by simp [Json.cell, hn], fun a => ?_⟩))
          simp [addScalar, addMember, hn]
        | none =>
          refine addsCell_of_error (.notUnsigned n) (by simp [Json.cell, hn]) fun a => ?_
          simp [addScalar, addMember, hn]
      · refine addsCell_of_error (.unsupportedKey key) (by simp [Json.cell, hsint, huint])
          fun a => ?_
        simp [addScalar, addMember, hsint, huint]
  | _ => exact addsCell_of_error _ rfl fun _ => rfl

theorem addScalar_cases (v : Json) : AddsCell v := by
  cases v with
  | str s => exact .inl ⟨_, rfl, fun _ => rfl⟩
  | num n =>
    cases n with
    | int n => exact addsCell_int n
    | float value => exact addsCell_of_error _ rfl fun _ => rfl
  | obj members =>
    match members with
    | [] => exact addsCell_of_error _ rfl fun _ => rfl
    | [(key, v)] => exact addsCell_member key v
    | _ :: _ :: _ =>
      exact addsCell_of_error .keyCount (by simp [Json.cell]) fun a => by simp [addScalar]
  | _ => exact addsCell_of_error _ rfl fun _ => rfl

end Arena

end TokenStore
