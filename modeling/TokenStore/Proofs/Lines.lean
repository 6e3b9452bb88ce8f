import TokenStore.Proofs.Page
import TokenStore.Proofs.Paths

/-!
# Lines of an outline

An outline has a line for every tree that stands in it, a tree before its children and the children
in order. If no line goes on into the next one, splitting the text at its line ends gives them back.

## Main definitions

* `Tree.at?`: the tree at the end of a path.
* `Tree.occurrences`: all trees that stand in a tree, with their paths; `Tree.paths`: the paths
  alone.
* `Text.lines`: a text split at its line ends.
-/

namespace TokenStore

/-- The lines of a text. -/
def Text.lines (s : String) : List (List Char) := s.toList.splitOn '\n'

namespace Tree

variable {Stub : Type}

/-- The tree that a path of indices leads to. -/
def at? : Tree Stub → List Nat → Option (Tree Stub)
  | t, [] => some t
  | t, i :: path => t.children[i]?.bind (at? · path)

/-- Induction from the children of a tree to the tree, whether or not it has any. -/
@[elab_as_elim]
theorem inductionBelow {motive : Tree Stub → Prop}
    (step : ∀ t, (∀ c ∈ t.children, motive c) → motive t) (t : Tree Stub) : motive t := by
  induction t using childrenInduction with
  | seq ts ih => exact step (.seq ts) ih
  | leaf t ht =>
    have hnone : t.children = [] := by
      cases t with
      | seq ts => exact absurd rfl (ht ts)
      | _ => rfl
    exact step t (by simp [hnone])

mutual

/-- The trees that stand in a tree with their paths: a sequence before its children, and the
children in order. -/
def occurrences : Tree Stub → List (List Nat × Tree Stub)
  | .seq ts => ([], .seq ts) :: childOccurrences 0 ts
  | t => [([], t)]

/-- The trees that stand in the children of a sequence from number `index` on. -/
def childOccurrences (index : Nat) : List (Tree Stub) → List (List Nat × Tree Stub)
  | [] => []
  | t :: ts => t.occurrences.map (Prod.map (index :: ·) id) ++ childOccurrences (index + 1) ts

end

@[simp] theorem at?_nil (t : Tree Stub) : t.at? [] = some t := by
  cases t <;> rfl

theorem at?_cons (t : Tree Stub) (i : Nat) (path : List Nat) :
    t.at? (i :: path) = t.children[i]?.bind (at? · path) := by
  cases t <;> rfl

/-- The tree at the end of a path, as far as it can be seen. -/
theorem unfolding_eq_map_at? (mark : Stub → Option Nat) (t : Tree Stub) (path : List Nat) :
    t.unfolding mark path = (t.at? path).map (label mark) := by
  induction path generalizing t with
  | nil => simp [unfolding]
  | cons i path ih =>
    rw [unfolding, at?_cons]
    cases t.children[i]? with
    | none => rfl
    | some u => exact ih u

theorem occurrences_eq (t : Tree Stub) :
    t.occurrences = ([], t) :: childOccurrences 0 t.children := by
  cases t <;> simp [occurrences, children, childOccurrences]

theorem mem_childOccurrences {index : Nat} {ts : List (Tree Stub)} {path : List Nat}
    {u : Tree Stub} :
    (path, u) ∈ childOccurrences index ts ↔
      ∃ i t rest, ts[i]? = some t ∧ path = (index + i) :: rest ∧ (rest, u) ∈ t.occurrences := by
  induction ts generalizing index with
  | nil => simp [childOccurrences]
  | cons t ts ih =>
    rw [childOccurrences, List.mem_append, ih]
    constructor
    · rintro (hmem | ⟨i, t', rest, hi, rfl, hrest⟩)
      · obtain ⟨⟨rest, v⟩, hrest, heq⟩ := List.mem_map.mp hmem
        cases heq
        exact ⟨0, t, rest, rfl, rfl, hrest⟩
      · exact ⟨i + 1, t', rest, hi, by rw [Nat.add_right_comm, Nat.add_assoc], hrest⟩
    · rintro ⟨_ | i, t', rest, hi, rfl, hrest⟩
      · cases hi
        exact .inl (List.mem_map.mpr ⟨_, hrest, rfl⟩)
      · exact .inr ⟨i, t', rest, hi, by rw [Nat.add_right_comm, Nat.add_assoc], hrest⟩

/-- What stands in a tree is what its paths lead to. -/
theorem mem_occurrences {t u : Tree Stub} {path : List Nat} :
    (path, u) ∈ t.occurrences ↔ t.at? path = some u := by
  induction path generalizing t with
  | nil =>
    rw [occurrences_eq, List.mem_cons, mem_childOccurrences, at?_nil]
    constructor
    · rintro (heq | ⟨i, t', rest, -, hnil, -⟩)
      · cases heq
        rfl
      · cases hnil
    · rintro ⟨⟩
      exact .inl rfl
  | cons i path ih =>
    rw [occurrences_eq, List.mem_cons, mem_childOccurrences, at?_cons, Option.bind_eq_some_iff]
    constructor
    · rintro (heq | ⟨j, t', rest, hj, hcons, hrest⟩)
      · cases heq
      · rw [Nat.zero_add] at hcons
        cases hcons
        exact ⟨t', hj, ih.mp hrest⟩
    · rintro ⟨t', hi, hpath⟩
      exact .inr ⟨i, t', path, hi, by rw [Nat.zero_add], ih.mpr hpath⟩

/-! ## Paths -/

/-- The paths of the trees that stand in a tree. -/
def paths (t : Tree Stub) : List (List Nat) := t.occurrences.map Prod.fst

theorem paths_eq (t : Tree Stub) : t.paths = [] :: pathsBelow 0 (t.children.map paths) := by
  have hbelow : ∀ (index : Nat) (ts : List (Tree Stub)),
      (childOccurrences index ts).map Prod.fst = pathsBelow index (ts.map paths) := by
    intro index ts
    induction ts generalizing index with
    | nil => rfl
    | cons u us ih =>
      rw [childOccurrences, List.map_append, List.map_map, ih, List.map_cons, pathsBelow, paths,
        List.map_map]
      rfl
  rw [paths, occurrences_eq, List.map_cons, hbelow]

theorem mem_paths {t : Tree Stub} {path : List Nat} :
    path ∈ t.paths ↔ ∃ u, t.at? path = some u := by
  simp only [paths, List.mem_map, Prod.exists, exists_and_right, exists_eq_right, mem_occurrences]

/-- The trees that stand in a tree come in the lexicographic order of their paths. -/
theorem pairwise_paths (t : Tree Stub) : t.paths.Pairwise (· < ·) := by
  induction t using inductionBelow with
  | step t ih =>
    rw [paths_eq]
    refine .cons ?_ (pairwise_pathsBelow (List.forall_mem_map.mpr ih))
    intro path hpath
    obtain ⟨i, -, rest, -, -, rfl⟩ := mem_pathsBelow.mp hpath
    exact List.nil_lt_cons _ _

/-! ## Lines -/

section lines

variable {spaces : Nat} {name? : Tag → Option String}

/-- The line of a tree that stands at the end of `path`, in a tree that stands at `depth`. -/
def outlineLine (spaces : Nat) (name? : Tag → Option String) (depth : Nat)
    (o : List Nat × Tree Nat) : List Char :=
  Text.blanks ((depth + o.1.length) * spaces) ++ (body name? o.2).toList

theorem outlineLine_below (depth index : Nat) (os : List (List Nat × Tree Nat)) :
    (os.map (Prod.map (index :: ·) id)).map (outlineLine spaces name? depth) =
      os.map (outlineLine spaces name? (depth + 1)) := by
  rw [List.map_map]
  refine List.map_congr_left fun o _ => ?_
  simp only [outlineLine, Function.comp_apply, Prod.map_fst, Prod.map_snd, id_eq, List.length_cons]
  rw [Nat.add_comm o.1.length 1, Nat.add_assoc]

/-- Lines behind others, each after a line end. -/
def followingLines (ls : List (List Char)) : List Char := ls.flatMap ('\n' :: ·)

theorem followingLines_append (ls ms : List (List Char)) :
    followingLines (ls ++ ms) = followingLines ls ++ followingLines ms := List.flatMap_append

theorem intercalate_newline (l : List Char) (ls : List (List Char)) :
    ['\n'].intercalate (l :: ls) = l ++ followingLines ls := by
  induction ls generalizing l with
  | nil => simp [followingLines]
  | cons m ls ih =>
    rw [List.intercalate_cons_cons, ih, List.append_assoc]
    rfl

/-- The lines of trees side by side are those of the first and then those of the others. -/
theorem outlineMore_eq_lines {ts : List (Tree Nat)}
    (hts : ∀ t ∈ ts, ∀ depth, outlineLetters spaces name? depth t =
      ['\n'].intercalate (t.occurrences.map (outlineLine spaces name? depth)))
    (depth index : Nat) :
    outlineMore spaces name? (depth + 1) ts =
      followingLines ((childOccurrences index ts).map (outlineLine spaces name? depth)) := by
  induction ts generalizing index with
  | nil => rfl
  | cons t ts ih =>
    obtain ⟨ht, hts⟩ := List.forall_mem_cons.mp hts
    rw [outlineMore, ht, ih hts (index + 1), childOccurrences, List.map_append, outlineLine_below,
      followingLines_append, occurrences_eq, List.map_cons, intercalate_newline]
    rfl

theorem outlineLetters_eq_lines (t : Tree Nat) (depth : Nat) :
    outlineLetters spaces name? depth t =
      ['\n'].intercalate (t.occurrences.map (outlineLine spaces name? depth)) := by
  induction t using inductionBelow generalizing depth with
  | step t ih =>
    rw [outlineLetters_eq, outlineMore_eq_lines ih depth 0, occurrences_eq, List.map_cons,
      intercalate_newline, outlineLine, List.append_assoc]
    rfl

theorem newline_notMem_outlineLine {o : List Nat × Tree Nat}
    (ho : ∀ c ∈ (body name? o.2).toList, c ≠ '\n') (depth : Nat) :
    '\n' ∉ outlineLine spaces name? depth o := by
  intro hmem
  rcases List.mem_append.mp hmem with hblank | hbody
  · cases List.eq_of_mem_replicate hblank
  · exact ho _ hbody rfl

/-- Split at its line ends, the text of an outline is the lines of all trees that stand in it, each
indented by the length of its path. -/
theorem lines_outline {t : Tree Nat}
    (hlines : ∀ o ∈ t.occurrences, ∀ c ∈ (body name? o.2).toList, c ≠ '\n') :
    Text.lines (t.outline spaces name?) = t.occurrences.map (outlineLine spaces name? 0) := by
  rw [Text.lines, toList_outline, outlineLetters_eq_lines, List.splitOn_intercalate]
  · exact List.forall_mem_map.mpr fun o ho => newline_notMem_outlineLine (hlines o ho) 0
  · simp [occurrences_eq]

end lines

end Tree

end TokenStore
