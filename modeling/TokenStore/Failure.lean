import TokenStore.Payload
import TokenStore.Tag

/-!
# What can go wrong

Three kinds of failure are kept apart. A `Misuse` is the caller's own fault: the wrong kind, an
index past the end. An `Error` is about the data: a document that cannot be imported, a tree that
cannot be exported. The other failures have no text: something named is not in the arena, there
cannot be as much room as is asked for, or a search has no end.

## Main definitions

* `Misuse` and `Misuse.message`.
* `Error`, with the path to the offending value, and `Error.text`.
* `Failure`: any of them.
-/

namespace TokenStore

/-- Misuse of an arena by its caller. -/
inductive Misuse where
  | wrongKind (expected found : Tag)
  | pastEnd (index length : Nat)
  /-- A built-in tag stands where an application's is needed. -/
  | reservedTag (tag : Tag)
  /-- The value under `tag` is not of the type asked for. -/
  | wrongPayload (tag : Tag) (asked : PayloadType)
  | poolFull (length : Nat)
  deriving DecidableEq

namespace Misuse

def message : Misuse → String
  | wrongKind expected found =>
    s!"token kind mismatch: expected {expected.text}, found {found.text}"
  | pastEnd index length =>
    s!"index {index} out of bounds for sequence of length {length}"
  | reservedTag tag => s!"token type {tag.text} is reserved for built-in kinds"
  | wrongPayload tag asked => s!"user payload tagged {tag.text} is not a {asked.typeName}"
  | poolFull length => s!"byte buffer of length {length} does not fit the arena"

end Misuse

/-- Which way the data was going when an `Error` arose. -/
inductive Direction where
  | importing
  | exporting
  deriving DecidableEq

/-- An error about the data, found at the end of `path`, the indices from the root down. -/
structure Error where
  direction : Direction
  message : String
  path : List Nat := []
  deriving DecidableEq

namespace Error

/-- Moves the error below element `index` of an enclosing sequence. -/
def below (e : Error) (index : Nat) : Error :=
  { e with path := index :: e.path }

/-- The message, followed by the path if there is one. -/
def text (e : Error) : String :=
  match e.path with
  | [] => e.message
  | path => e.message ++ " at " ++ String.intercalate "." (path.map toString)

end Error

/-- Where something that was named is not to be found. -/
inductive Store where
  | tokens
  | lists
  | pool
  | payloads
  deriving DecidableEq

inductive Failure where
  | misuse (m : Misuse)
  | error (e : Error)
  /-- A name leads outside its store. -/
  | missing (store : Store)
  /-- A token carries a built-in tag that is not its own. -/
  | mistagged (tag : Tag)
  /-- More room is asked for than there can be in one piece. -/
  | noRoom
  /-- A sequence contains itself, and a search through all its elements does not end. -/
  | endless
  deriving DecidableEq

end TokenStore
