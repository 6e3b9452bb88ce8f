import TokenStore.Proofs.Unfolding

/-!
# Lines on a page

A page keeps a table of indents, which grows as lines get deeper. The table does not show in the
text: every line is indented by its depth, and a tree stands on the page as its own line and then
those of its children, whatever was on the page before.

## Main definitions

* `Page.Ruled`: the indents worked out so far are those of their depths.
* `Tree.outlineLetters`: the letters of the lines of a tree.
-/

namespace TokenStore

/-- Spaces for `n` columns. -/
def Text.blanks (n : Nat) : List Char := List.replicate n ' '

theorem Text.blanks_add (n m : Nat) : blanks (n + m) = blanks n ++ blanks m :=
  List.replicate_add n m ' '

namespace Page

open Text (blanks)

/-- The entries of a table of indents are those of their depths, and there is one at least. -/
structure Ruling (spaces : Nat) (indents : Array String) : Prop where
  nonempty : 0 < indents.size
  entries : ∀ d s, indents[d]? = some s → s.toList = blanks (d * spaces)

structure Ruled (spaces : Nat) (p : Page) : Prop where
  unit : p.unit.toList = blanks spaces
  indents : Ruling spaces p.indents

variable {spaces : Nat} {p : Page}

theorem ruled_blank (spaces : Nat) : (blank spaces).Ruled spaces := by
  refine ⟨String.toList_ofList, Nat.one_pos, fun d s hs => ?_⟩
  obtain ⟨hd, rfl⟩ := Array.getElem?_eq_some_iff.mp hs
  obtain rfl : d = 0 := Nat.lt_one_iff.mp hd
  simp [blank, blanks]

/-- The entry after the last is one unit further. -/
theorem Ruling.push {indents : Array String} (h : Ruling spaces indents) {unit : String}
    (hunit : unit.toList = blanks spaces) :
    Ruling spaces (indents.push (indents.back?.getD "" ++ unit)) := by
  have hpos := h.nonempty
  refine ⟨by simp, fun d s hs => ?_⟩
  rw [Array.getElem?_push] at hs
  split at hs
  next hd =>
    have hlast : indents.size - 1 < indents.size := by omega
    have hback : indents.back? = some indents[indents.size - 1] := by
      rw [Array.back?_eq_getElem?, Array.getElem?_eq_getElem hlast]
    have hentry := h.entries _ _ (Array.getElem?_eq_getElem hlast)
    have hd : d * spaces = (indents.size - 1) * spaces + spaces := by
      rw [← Nat.succ_mul]
      congr 1
      omega
    rw [hback, Option.getD_some, Option.some.injEq] at hs
    rw [← hs, String.toList_append, hentry, hunit, hd, Text.blanks_add]
  next => exact h.entries d s hs

theorem Ruling.grow {indents : Array String} (h : Ruling spaces indents) {unit : String}
    (hunit : unit.toList = blanks spaces) (depth : Nat) :
    Ruling spaces (grow unit indents depth) ∧ depth < (Page.grow unit indents depth).size := by
  fun_induction Page.grow unit indents depth with
  | case1 indents hdepth => exact ⟨h, hdepth⟩
  | case2 indents hdepth ih => exact ih (h.push hunit)

/-- Columns are as many as the depth asks for, and the table is left in order. -/
theorem Ruled.indent (h : p.Ruled spaces) (depth : Nat) :
    (p.indent depth).Ruled spaces ∧
      (p.indent depth).text.toList = p.text.toList ++ blanks (depth * spaces) := by
  unfold Page.indent
  split
  next hnone =>
    -- no indent is looked up for the root, nor where levels are not indented at all
    have hzero : depth * spaces = 0 := by
      rcases hnone with rfl | hempty
      · exact Nat.zero_mul spaces
      · have hlength := congrArg List.length h.unit
        rw [String.isEmpty_iff.mp hempty] at hlength
        have hspaces : spaces = 0 := by simpa [blanks] using hlength.symm
        rw [hspaces, Nat.mul_zero]
    exact ⟨h, by simp [hzero, blanks]⟩
  next =>
    obtain ⟨hruling, hdepth⟩ := h.indents.grow h.unit depth
    have hentry := hruling.entries _ _ (Array.getElem?_eq_getElem hdepth)
    exact ⟨⟨h.unit, hruling⟩, by simp [Array.getD, hdepth, hentry]⟩

theorem Ruled.write (h : p.Ruled spaces) (s : String) : (p.write s).Ruled spaces :=
  ⟨h.unit, h.indents⟩

/-- A line is indented by its depth and leaves the table in order. -/
theorem Ruled.line (h : p.Ruled spaces) (depth : Nat) (body : String) :
    (p.line depth body).Ruled spaces ∧
      (p.line depth body).text.toList =
        p.text.toList ++ (blanks (depth * spaces) ++ body.toList) := by
  obtain ⟨hruled, htext⟩ := h.indent depth
  refine ⟨hruled.write body, ?_⟩
  rw [Page.line, Page.write, String.toList_append, htext, List.append_assoc]

theorem Ruled.newline (h : p.Ruled spaces) : p.newline.Ruled spaces := ⟨h.unit, h.indents⟩

end Page

namespace Tree

section letters

variable (spaces : Nat) (name? : Tag → Option String)

mutual

/-- The letters of the lines of a tree that stands at `depth`. -/
def outlineLetters (depth : Nat) : Tree Nat → List Char
  | .seq ts =>
    Text.blanks (depth * spaces) ++ (body name? (.seq ts)).toList ++ outlineMore (depth + 1) ts
  | t => Text.blanks (depth * spaces) ++ (body name? t).toList

/-- The letters of the lines of trees that stand side by side at `depth`, below another line. -/
def outlineMore (depth : Nat) : List (Tree Nat) → List Char
  | [] => []
  | t :: ts => '\n' :: (outlineLetters depth t ++ outlineMore depth ts)

end

/-- A tree is its own line, and then its children's. -/
theorem outlineLetters_eq (depth : Nat) (t : Tree Nat) :
    outlineLetters spaces name? depth t =
      Text.blanks (depth * spaces) ++
        ((body name? t).toList ++ outlineMore spaces name? (depth + 1) t.children) := by
  cases t <;> simp [outlineLetters, children, outlineMore]

end letters

section pages

variable {spaces : Nat} {name? : Tag → Option String}

mutual

theorem writeOutline_spec {p : Page} (h : p.Ruled spaces) (depth : Nat) (t : Tree Nat) :
    (writeOutline name? depth p t).Ruled spaces ∧
      (writeOutline name? depth p t).text.toList =
        p.text.toList ++ outlineLetters spaces name? depth t := by
  obtain ⟨hruled, htext⟩ := h.line depth (body name? t)
  cases t with
  | seq ts =>
    obtain ⟨hruled, hmore⟩ := writeOutlines_spec hruled (depth + 1) ts
    rw [writeOutline, outlineLetters, hmore, htext]
    exact ⟨hruled, by simp⟩
  | _ =>
    rw [writeOutline, outlineLetters]
    · exact ⟨hruled, htext⟩
    · nofun

theorem writeOutlines_spec {p : Page} (h : p.Ruled spaces) (depth : Nat) (ts : List (Tree Nat)) :
    (writeOutlines name? depth p ts).Ruled spaces ∧
      (writeOutlines name? depth p ts).text.toList =
        p.text.toList ++ outlineMore spaces name? depth ts := by
  cases ts with
  | nil => exact ⟨h, by simp [writeOutlines, outlineMore]⟩
  | cons t ts =>
    obtain ⟨hruled, hfirst⟩ := writeOutline_spec h.newline depth t
    obtain ⟨hruled, hmore⟩ := writeOutlines_spec hruled depth ts
    rw [writeOutlines, outlineMore, hmore, hfirst]
    exact ⟨hruled, by simp [Page.newline]⟩

end

theorem toList_outline (t : Tree Nat) (spaces : Nat) (name? : Tag → Option String) :
    (t.outline spaces name?).toList = outlineLetters spaces name? 0 t := by
  rw [outline, (writeOutline_spec (Page.ruled_blank spaces) 0 t).2]
  exact List.nil_append _

end pages

end Tree

end TokenStore
