import TokenStore.Arena.Flatten

/-!
# Parses

A parse is an arena together with its result, a token that may be absent. A reshaper answers the
token to put in place of the result. The ready-made ones do not fail on a result of a shape they did
not expect; they answer that there is none.

## Main definitions

* `Parse`, and `Parse.reshape` to put a reshaper's answer in place of the result.
* `Reshaper`: any reshaper; `Pick`: the ready-made ones, with `Pick.run`.
-/

namespace TokenStore

structure Parse where
  arena : Arena := {}
  result : Option Handle := none
  deriving DecidableEq, Inhabited

/-- Answers the new result. The parse comes back as the reshaper left it, also from a failure. -/
abbrev Reshaper : Type := Parse → Except Failure (Option Handle) × Parse

/-- The ready-made reshapers. -/
inductive Pick where
  | nothing
  /-- The leaves of the result as a flat sequence. -/
  | leaves
  /-- One element of a sequence. -/
  | element (index : Nat)
  /-- The final element of a sequence. -/
  | final
  deriving DecidableEq

namespace Parse

/-- The elements of the result, if it is a sequence. -/
def elements? (p : Parse) : Except Failure (Option Elements) := do
  match p.result with
  | none => return none
  | some h =>
    match (← p.arena.token h).list? with
    | none => return none
    | some id => return some (← p.arena.list id)

/-- Puts what a reshaper answers in place of the result. A failure leaves the result alone. -/
def reshape (p : Parse) (f : Reshaper) : Except Failure (Option Handle) × Parse :=
  match f p with
  | (.ok result, p) => (.ok result, { p with result })
  | (.error e, p) => (.error e, p)

end Parse

namespace Pick

def first : Pick := element 0

def second : Pick := element 1

def run : Pick → Reshaper
  | nothing, p => (.ok none, p)
  | leaves, ⟨arena, none⟩ => (.ok none, ⟨arena, none⟩)
  | leaves, ⟨arena, some h⟩ =>
    match arena.flatten h with
    | (.ok flat, arena) => (.ok (some flat), ⟨arena, some h⟩)
    | (.error e, arena) => (.error e, ⟨arena, some h⟩)
  | element index, p => (return (← p.elements?).bind (·.get? index), p)
  | final, p => (return (← p.elements?).bind (·.last?), p)

end Pick

end TokenStore
