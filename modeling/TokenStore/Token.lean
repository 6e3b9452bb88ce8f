import TokenStore.Tag

/-!
# Tokens

A token is a small value: numbers are held in place, everything longer is named by where its
arena keeps it. `Handle` names a token itself.

## Main definitions

* `Handle`, `ListId`, `Span`: places in an arena.
* `Token`: one token, with its tag and its parts.
-/

namespace TokenStore

/-- Names a token of an arena: the n-th token allocated has index n. Equality is identity. -/
structure Handle where
  index : Nat
  deriving DecidableEq, Inhabited

/-- Names the element list of a sequence. -/
structure ListId where
  index : Nat
  deriving DecidableEq, Inhabited

/-- A range of an arena's byte pool, from `start` up to and without `stop`. -/
structure Span where
  start : Nat
  stop : Nat
  deriving DecidableEq, Inhabited

namespace Span

def length (s : Span) : Nat := s.stop - s.start

def isEmpty (s : Span) : Bool := s.start = s.stop

end Span

inductive Token where
  | bytes (span : Span)
  | sint (value : Int64)
  | uint (value : UInt64)
  | sequence (list : ListId)
  /-- An application's value, kept in the payload slot `slot`. -/
  | user (tag : Tag) (slot : Nat)
  deriving DecidableEq, Inhabited

namespace Token

def tag : Token → Tag
  | bytes _ => Tag.bytes
  | sint _ => Tag.sint
  | uint _ => Tag.uint
  | sequence _ => Tag.sequence
  | user tag _ => tag

def isSequence : Token → Bool
  | sequence _ => true
  | _ => false

def span? : Token → Option Span
  | bytes span => some span
  | _ => none

def sint? : Token → Option Int64
  | sint value => some value
  | _ => none

def uint? : Token → Option UInt64
  | uint value => some value
  | _ => none

def list? : Token → Option ListId
  | sequence list => some list
  | _ => none

def slot? : Token → Option Nat
  | user _ slot => some slot
  | _ => none

end Token

end TokenStore
