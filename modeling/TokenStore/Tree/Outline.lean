import TokenStore.Limits
import TokenStore.Text.Bytes
import TokenStore.Tree.Basic

/-!
# Outlines

One line for each token of a tree, indented by its depth. A sequence tells how many elements it
has; one that was cut is marked.

## Main definitions

* `OutlineOptions`: how far lines are indented, and where trees are cut.
* `Page`: lines under way, with the indents worked out so far.
* `Tree.body`: what a token's own line says.
* `Tree.outline`: the whole text.
-/

namespace TokenStore

structure OutlineOptions where
  /-- Spaces per level. -/
  indent : Nat := defaultIndent
  /-- Sequences at this depth are cut unless they are empty. -/
  maxDepth : Nat := TokenStore.maxDepth
  deriving DecidableEq, Inhabited

/-- Lines under way. Entry d of `indents` is the indent of depth d; the table grows when a line is
deeper than any before. -/
structure Page where
  text : String := ""
  unit : String
  indents : Array String := #[""]

namespace Page

def blank (spaces : Nat) : Page where
  unit := String.ofList (List.replicate spaces ' ')

/-- Extends a table of indents until it covers `depth`. -/
def grow (unit : String) (indents : Array String) (depth : Nat) : Array String :=
  if depth < indents.size then indents
  else grow unit (indents.push (indents.back?.getD "" ++ unit)) depth
termination_by depth + 1 - indents.size

def indent (p : Page) (depth : Nat) : Page :=
  if depth = 0 ∨ p.unit.isEmpty then p
  else
    let indents := grow p.unit p.indents depth
    { p with text := p.text ++ indents.getD depth "", indents }

def write (p : Page) (s : String) : Page := { p with text := p.text ++ s }

/-- Writes a line, without an end. -/
def line (p : Page) (depth : Nat) (body : String) : Page := (p.indent depth).write body

def newline (p : Page) : Page := { p with text := p.text.push '\n' }

end Page

namespace Tree

/-- Bytes are quoted if all of them are printable. -/
def bodyOfBytes (data : List UInt8) : String :=
  if data.all Text.isPrintable then Text.quotedAscii data else Text.dotted data

/-- What a token's own line says. `name?` may know a better name for an application's tag. -/
def body (name? : Tag → Option String) : Tree Nat → String
  | .bytes data => "BYTES " ++ bodyOfBytes data
  | .sint value => s!"SINT {value.toInt}"
  | .uint value => s!"UINT {value.toNat}"
  | .user tag => (name? tag).getD tag.text
  | .seq children => s!"SEQUENCE[{children.length}]"
  | .cut size => s!"SEQUENCE[{size}] ..."

mutual

/-- Writes the lines of a tree that stands at `depth`. -/
def writeOutline (name? : Tag → Option String) (depth : Nat) (p : Page) : Tree Nat → Page
  | .seq children =>
    writeOutlines name? (depth + 1) (p.line depth (body name? (.seq children))) children
  | .bytes data => p.line depth (body name? (.bytes data))
  | .sint value => p.line depth (body name? (.sint value))
  | .uint value => p.line depth (body name? (.uint value))
  | .user tag => p.line depth (body name? (.user tag))
  | .cut size => p.line depth (body name? (.cut size))

/-- Writes trees that stand side by side at `depth`, each on lines of its own. -/
def writeOutlines (name? : Tag → Option String) (depth : Nat) (p : Page) :
    List (Tree Nat) → Page
  | [] => p
  | t :: ts => writeOutlines name? depth (writeOutline name? depth p.newline t) ts

end

/-- The lines of a tree, without an end of line at the last. -/
def outline (t : Tree Nat) (indent : Nat) (name? : Tag → Option String) : String :=
  (writeOutline name? 0 (Page.blank indent) t).text

end Tree

end TokenStore
