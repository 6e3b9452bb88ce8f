import TokenStore.Parse
import TokenStore.Proofs.Reimport

/-!
# Soft and failing readings

What a token holds can be read in two ways. One looks at what the token is and answers nothing if it
is something else; the other compares tags and fails. As no application's token carries a built-in
tag, the two agree: they answer the same, and where there is nothing to answer the other fails.

## Main definitions

* `Agree`: a soft and a failing reading of the same.
* `Arena.Readings`: all readings of a token go together.
-/

namespace TokenStore

/-- The soft reading answers what the failing one does, and nothing where the failing one fails,
which is for `m`. -/
structure Agree {α : Type} (soft : Option α) (m : Misuse) (failing : Except Failure α) : Prop where
  answer : ∀ x, soft = some x ↔ failing = .ok x
  failure : soft = none ↔ failing = .error (.misuse m)

section agree

variable {α : Type} {soft : Option α} {m : Misuse} {failing : Except Failure α}

theorem agree_elim (soft : Option α) (m : Misuse) :
    Agree soft m (soft.elim (.error (.misuse m)) .ok) := by
  cases soft <;> constructor <;> simp

theorem Agree.isSome_eq (h : Agree soft m failing) : soft.isSome = failing.isOk := by
  cases soft with
  | none => rw [h.failure.mp rfl]; rfl
  | some x => rw [(h.answer x).mp rfl]; rfl

/-- Past the end there is nothing to answer. -/
theorem Elements.agree_get (e : Elements) (i : Nat) :
    Agree (e.get? i) (.pastEnd i e.size) (e.get i) := by
  have hget : e.get i = (e.get? i).elim (.error (.misuse (.pastEnd i e.size))) .ok := by
    unfold get
    cases e.get? i <;> rfl
  exact hget ▸ agree_elim _ _

end agree

namespace Arena

variable {a : Arena} {h : Handle} {t : Token}

/-! ## Readings of one token -/

theorem agree_cast {α : Type} {part : Cell → Option α} {expected : Tag} {soft : Option α}
    (ht : a.token h = .ok t) (hpart : part (a.cell t) = soft) :
    Agree soft (.wrongKind expected t.tag) (a.cells.cast part expected h) := by
  have hcast : a.cells.cast part expected h =
      soft.elim (.error (.misuse (.wrongKind expected t.tag))) .ok := by
    rw [Cells.cast, find_cells, ht, Outcome.map_ok, Outcome.ok_bind, hpart]
    cases soft <;> simp [Cell.mismatch]
  exact hcast ▸ agree_elim _ _

theorem Layout.agree_sintOf (ha : a.Layout) (ht : a.token h = .ok t) :
    Agree t.sint? (.wrongKind Tag.sint t.tag) (a.sintOf h) := by
  rw [ha.sintOf_cells]
  exact agree_cast ht (by cases t <;> rfl)

theorem Layout.agree_uintOf (ha : a.Layout) (ht : a.token h = .ok t) :
    Agree t.uint? (.wrongKind Tag.uint t.tag) (a.uintOf h) := by
  rw [ha.uintOf_cells]
  exact agree_cast ht (by cases t <;> rfl)

theorem Layout.agree_bytesOf (ha : a.Layout) (ht : a.token h = .ok t) :
    ∃ data?, a.content h = .ok data? ∧ data?.isSome = t.span?.isSome ∧
      Agree data? (.wrongKind Tag.bytes t.tag) (a.bytesOf h) := by
  refine ⟨(a.cell t).content?, ?_, ?_, ?_⟩
  · simp [ha.content_cells, Cells.content, ht]
  · cases t <;> rfl
  · rw [ha.bytesOf_cells]
    exact agree_cast ht rfl

theorem Layout.agree_elementsOf (ha : a.Layout) (ht : a.token h = .ok t) :
    ∃ e?, t.list?.mapM a.list = .ok e? ∧ e?.isSome = t.isSequence ∧
      Agree e? (.wrongKind Tag.sequence t.tag) (a.elementsOf h) := by
  by_cases htag : t.tag = Tag.sequence
  · obtain ⟨id, rfl⟩ := (ha.kind_of_tag ht).1 htag
    obtain ⟨e, he⟩ := ha.exists_list ht
    have helements : a.elementsOf h = .ok e := by
      simp [elementsOf, listOf, expect_of_tag ht htag, he]
    refine ⟨some e, by simp [Token.list?, he], rfl, ?_⟩
    rw [helements]
    exact agree_elim _ _
  · have hother : t.list? = none ∧ t.isSequence = false := by
      cases t with
      | sequence id => exact absurd rfl htag
      | _ => exact ⟨rfl, rfl⟩
    have helements : a.elementsOf h = .error (.misuse (.wrongKind Tag.sequence t.tag)) := by
      simp [elementsOf, listOf, expect_of_ne ht htag]
    rw [helements]
    exact ⟨none, by simp [hother.1], hother.2.symm, agree_elim _ _⟩

/-- Which of the four readings of built-in kinds do not fail. -/
def castsOf (a : Arena) (h : Handle) : List Bool :=
  [(a.elementsOf h).isOk, (a.bytesOf h).isOk, (a.sintOf h).isOk, (a.uintOf h).isOk]

/-- Soft and failing readings of a token go together. -/
structure Readings (a : Arena) (h : Handle) (t : Token) : Prop where
  sint : Agree t.sint? (.wrongKind Tag.sint t.tag) (a.sintOf h)
  uint : Agree t.uint? (.wrongKind Tag.uint t.tag) (a.uintOf h)
  bytes : ∃ data?, a.content h = .ok data? ∧
    Agree data? (.wrongKind Tag.bytes t.tag) (a.bytesOf h)
  elements : ∃ e?, t.list?.mapM a.list = .ok e? ∧
    Agree e? (.wrongKind Tag.sequence t.tag) (a.elementsOf h)
  lookup : ∀ (e : Elements) (i : Nat), Agree (e.get? i) (.pastEnd i e.size) (e.get i)
  children : ∃ hs, a.children h = .ok hs ∧ (∀ e, a.elementsOf h = .ok e → hs = e.toList) ∧
    (t.isSequence = false → hs = [])
  /-- Picking an element goes with reading it. -/
  element : ∀ i, ∃ r, Pick.run (.element i) ⟨a, some h⟩ = (.ok r, ⟨a, some h⟩) ∧
    (∀ x, r = some x ↔ a.element h i = .ok x) ∧
    (r = none ↔ a.element h i = .error (.misuse (.wrongKind Tag.sequence t.tag)) ∨
      ∃ n, a.length h = .ok n ∧ a.element h i = .error (.misuse (.pastEnd i n)))
  /-- Picking the final element goes with reading the one before the end. -/
  final : ∃ r, Pick.run .final ⟨a, some h⟩ = (.ok r, ⟨a, some h⟩) ∧
    (∀ x, r = some x ↔ ∃ n, a.length h = .ok (n + 1) ∧ a.element h n = .ok x) ∧
    (r = none ↔ t.isSequence = false ∨ a.length h = .ok 0)
  /-- A token is of one built-in kind, or it is an application's. -/
  casts : (a.castsOf h).count true ≤ 1 ∧
    ((a.castsOf h).count true = 0 ↔ ∃ tag slot, t = .user tag slot)

section picks

variable {e? : Option Elements} {m : Misuse}

theorem elements?_eq (ht : a.token h = .ok t) :
    (⟨a, some h⟩ : Parse).elements? = t.list?.mapM a.list := by
  simp only [Parse.elements?, ht, Outcome.ok_bind]
  cases t.list? <;> rfl

theorem children_eq (ht : a.token h = .ok t) :
    a.children h = (fun e? => e?.elim [] Elements.toList) <$> t.list?.mapM a.list := by
  simp only [children, ht, Outcome.ok_bind]
  cases t.list? with
  | none => rfl
  | some id => cases hid : a.list id <;> simp [hid]

theorem agree_element (he : Agree e? m (a.elementsOf h)) (i : Nat) :
    (∀ x, e?.bind (·.get? i) = some x ↔ a.element h i = .ok x) ∧
    (e?.bind (·.get? i) = none ↔ a.element h i = .error (.misuse m) ∨
      ∃ n, a.length h = .ok n ∧ a.element h i = .error (.misuse (.pastEnd i n))) := by
  unfold element length
  cases e? with
  | none => simp [he.failure.mp rfl]
  | some e =>
    have hget := e.agree_get i
    rw [(he.answer e).mp rfl]
    refine ⟨hget.answer, fun hnone => ?_, fun hfail => ?_⟩
    · exact .inr ⟨e.size, rfl, hget.failure.mp hnone⟩
    · refine Option.eq_none_iff_forall_ne_some.mpr fun x hx => ?_
      have hok := (hget.answer x).mp hx
      rcases hfail with hfail | ⟨n, -, hfail⟩
      · cases hok.symm.trans hfail
      · cases hok.symm.trans hfail

/-- The final element is the one before the end. -/
theorem agree_final (he : Agree e? m (a.elementsOf h)) :
    (∀ x, e?.bind (·.last?) = some x ↔ ∃ n, a.length h = .ok (n + 1) ∧ a.element h n = .ok x) ∧
    (e?.bind (·.last?) = none ↔ e?.isSome = false ∨ a.length h = .ok 0) := by
  unfold element length
  cases e? with
  | none => simp [he.failure.mp rfl]
  | some e =>
    rw [(he.answer e).mp rfl]
    simp only [Option.bind_some, Elements.last?_eq, Outcome.ok_bind, Outcome.pure_eq_ok,
      Except.ok.injEq, Elements.size_eq_length]
    constructor
    · intro x
      simp only [← (e.agree_get _).answer, Elements.get?_eq]
      rcases e.toList.eq_nil_or_concat' with hnil | ⟨hs, y, hconcat⟩
      · simp [hnil]
      · simp [hconcat]
    · simp

end picks

theorem count_castsOf {l : List Bool}
    (hl : l = [t.isSequence, t.span?.isSome, t.sint?.isSome, t.uint?.isSome]) :
    l.count true ≤ 1 ∧ (l.count true = 0 ↔ ∃ tag slot, t = .user tag slot) := by
  cases t <;> simp [hl, Token.isSequence, Token.span?, Token.sint?, Token.uint?]

/-- Of every token that was issued, soft and failing readings go together. -/
theorem readings_agree (ha : a.Built) (hh : h ∈ a.handles) :
    ∃ t, a.token h = .ok t ∧ a.Readings h t := by
  obtain ⟨t, ht⟩ := exists_token hh
  obtain ⟨e?, hlist, hsequence, helements⟩ := ha.layout.agree_elementsOf ht
  obtain ⟨data?, hcontent, hspan, hbytes⟩ := ha.layout.agree_bytesOf ht
  have hsint := ha.layout.agree_sintOf ht
  have huint := ha.layout.agree_uintOf ht
  have hparse : (⟨a, some h⟩ : Parse).elements? = .ok e? := (elements?_eq ht).trans hlist
  refine ⟨t, ht, ?_⟩
  constructor
  case sint => exact hsint
  case uint => exact huint
  case bytes => exact ⟨data?, hcontent, hbytes⟩
  case elements => exact ⟨e?, hlist, helements⟩
  case lookup => exact fun e i => e.agree_get i
  case children =>
    refine ⟨_, (children_eq ht).trans (by rw [hlist, Outcome.map_ok]), ?_, ?_⟩
    · intro e he
      rw [(helements.answer e).mpr he, Option.elim_some]
    · intro hother
      rw [hother, Option.isSome_eq_false_iff, Option.isNone_iff_eq_none] at hsequence
      rw [hsequence, Option.elim_none]
  case element =>
    intro i
    exact ⟨_, by rw [Pick.run, hparse]; rfl, agree_element helements i⟩
  case final =>
    rw [← hsequence]
    exact ⟨_, by rw [Pick.run, hparse]; rfl, agree_final helements⟩
  case casts =>
    refine count_castsOf ?_
    rw [castsOf, ← helements.isSome_eq, ← hbytes.isSome_eq, ← hsint.isSome_eq, ← huint.isSome_eq,
      hsequence, hspan]

/-- The final element of `[7, user]` is the application's token, of which nothing built in is
read. -/
theorem readings_agree_mixed :
    Pick.run .final ⟨mixed, some ⟨3⟩⟩ = (.ok (some ⟨1⟩), ⟨mixed, some ⟨3⟩⟩) ∧
      (mixed.castsOf ⟨1⟩).count true = 0 := by
  have hmixed : mixed.Built := built_after _
  constructor
  · obtain ⟨t, -, hreadings⟩ := readings_agree hmixed (h := ⟨3⟩) (mem_handles.mpr (by decide))
    obtain ⟨r, hrun, hsome, -⟩ := hreadings.final
    rwa [(hsome ⟨1⟩).mpr ⟨1, rfl, rfl⟩] at hrun
  · obtain ⟨t, ht, hreadings⟩ := readings_agree hmixed (h := ⟨1⟩) (mem_handles.mpr (by decide))
    exact hreadings.casts.2.mpr ⟨_, _, Except.ok.inj (ht.symm.trans rfl)⟩

end Arena

end TokenStore
