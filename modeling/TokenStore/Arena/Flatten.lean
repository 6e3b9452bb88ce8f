import TokenStore.Arena.Sequence

/-!
# Flattening

Flattening collapses nested sequences into one fresh sequence of the tokens that are not
sequences, in order. It works through an explicit worklist, so nesting of any depth costs memory
and no call depth.

A chain of nested sequences longer than the arena has tokens repeats one of them, and then the
leaves have no end. Each handle on the worklist therefore carries the number of levels that may
still lie below it; a sequence met with none left is reported as `Failure.endless`.

## Main definitions

* `Sweep`: the worklist and the leaves found so far, with `Sweep.visit` for one handle.
* `Sweep.run`: visits until the worklist is empty.
* `Arena.flatten`: the leaves as a fresh sequence.
-/

namespace TokenStore

/-- A flattening under way. `pending` has the handle to visit next in front, each with the number
of levels that may lie below it. -/
structure Sweep where
  pending : List (Nat × Handle)
  found : Array Handle

namespace Sweep

/-- The start of a sweep through everything below `h`. -/
def start (room : Nat) (h : Handle) : Sweep := ⟨[(room, h)], #[]⟩

/-- Visits `h`, which stood in front of `rest`. A sequence gives way to its elements, any other
token is a leaf. -/
def visit (a : Arena) (room : Nat) (h : Handle) (rest : List (Nat × Handle))
    (found : Array Handle) : Except Failure Sweep := do
  match (← a.token h).list? with
  | none => return ⟨rest, found.push h⟩
  | some id =>
    let e ← a.list id
    match room with
    | 0 => throw .endless
    | room + 1 => return ⟨e.toList.map (room, ·) ++ rest, found⟩

/-- One more than the elements of all sequences together. -/
def breadth (a : Arena) : Nat := a.lists.toList.foldr (fun e n => e.size + n) 0 + 1

/-- How many handles a sweep may still visit: a tree of `breadth` branches at every level. -/
def weight (a : Arena) (s : Sweep) : Nat :=
  s.pending.foldr (fun p n => Nat.pow (breadth a) p.1 + n) 0

private theorem size_le_foldr {e : Elements} {es : List Elements} (h : e ∈ es) :
    e.size ≤ es.foldr (fun e n => e.size + n) 0 := by
  induction h with
  | head es => simp
  | tail _ _ ih => simp only [List.foldr_cons]; omega

private theorem size_lt_breadth {a : Arena} {id : ListId} {e : Elements}
    (h : a.list id = .ok e) : e.size < breadth a := by
  rw [Arena.list_eq_ok_iff, ← Array.getElem?_toList] at h
  exact Nat.lt_succ_of_le (size_le_foldr (List.mem_of_getElem? h))

private theorem weight_append (a : Arena) (room : Nat) (hs : List Handle)
    (rest : List (Nat × Handle)) (found : Array Handle) :
    weight a ⟨hs.map (room, ·) ++ rest, found⟩ =
      hs.length * Nat.pow (breadth a) room + weight a ⟨rest, found⟩ := by
  induction hs with
  | nil => simp
  | cons h t ih =>
    simp only [weight, List.map_cons, List.cons_append, List.foldr_cons, List.length_cons,
      Nat.succ_mul] at ih ⊢
    omega

theorem weight_visit_lt {a : Arena} {room : Nat} {h : Handle} {rest : List (Nat × Handle)}
    {found : Array Handle} {s : Sweep} (hv : visit a room h rest found = .ok s) :
    s.weight a < weight a ⟨(room, h) :: rest, found⟩ := by
  have hpos (n : Nat) : 0 < Nat.pow (breadth a) n :=
    Nat.pow_pos (Nat.succ_pos _)
  unfold visit at hv
  cases ht : a.token h with
  | error e => simp [ht, bind, Except.bind] at hv
  | ok t =>
    cases hl : t.list? with
    | none =>
      simp only [ht, hl, bind, Except.bind, pure, Except.pure, Except.ok.injEq] at hv
      subst hv
      have := hpos room
      simp only [weight, List.foldr_cons]; omega
    | some id =>
      cases he : a.list id with
      | error e => simp [ht, hl, he, bind, Except.bind] at hv
      | ok e =>
        cases room with
        | zero => simp [ht, hl, he, bind, Except.bind, throw, throwThe, MonadExceptOf.throw] at hv
        | succ room =>
          simp only [ht, hl, he, bind, Except.bind, pure, Except.pure, Except.ok.injEq] at hv
          subst hv
          have : e.size * Nat.pow (breadth a) room < breadth a * Nat.pow (breadth a) room :=
            Nat.mul_lt_mul_of_pos_right (size_lt_breadth he) (hpos room)
          rw [weight_append, ← Elements.size_eq_length]
          simp only [weight, List.foldr_cons]
          rw [show Nat.pow (breadth a) (room + 1) = breadth a * Nat.pow (breadth a) room from
            Nat.pow_succ']
          omega

/-- Visits until nothing is pending. -/
def run (a : Arena) (s : Sweep) : Except Failure (Array Handle) :=
  match s with
  | ⟨[], found⟩ => .ok found
  | ⟨(room, h) :: rest, found⟩ =>
    match _hv : visit a room h rest found with
    | .ok s => run a s
    | .error e => .error e
termination_by s.weight a
decreasing_by exact weight_visit_lt _hv

end Sweep

namespace Arena

/-- The tokens below `h` that are not sequences, in order. A token that is no sequence is its own
only leaf. -/
def leaves (a : Arena) (h : Handle) : Except Failure (Array Handle) :=
  (Sweep.start a.size h).run a

/-- Adds a flat sequence of the leaves below `h`. It is a new token also when `h` is flat. -/
def flatten (a : Arena) (h : Handle) : Except Failure Handle × Arena :=
  match a.leaves h with
  | .ok found =>
    let (flat, a) := a.addList ((Elements.withCapacity found.size).append found.toList)
    (.ok flat, a)
  | .error e => (.error e, a)

end Arena

end TokenStore
