import Mathlib.Algebra.Group.Nat.Defs
import TokenStore.Proofs.Commute

/-!
# Appending

To append a sequence is to push its elements one after the other, as they were before anything was
added. It makes no difference whether the sequence is the one that it is appended to, or occurs in
it: the elements are read first.

## Main definitions

* `Arena.pushAll`: pushing handles one after the other.
* `Arena.NoSequence`: how a handle is refused that names no sequence.
-/

namespace TokenStore

namespace Arena

/-- Pushes the handles one after the other, until one is refused. -/
def pushAll (a : Arena) (seq : Handle) : List Handle → Except Failure Unit × Arena
  | [] => (.ok (), a)
  | h :: hs =>
    match a.push seq h with
    | (.ok _, b) => pushAll b seq hs
    | (.error e, b) => (.error e, b)

/-- The failure on a handle that names no sequence: it was never issued, or its token is of another
kind. -/
inductive NoSequence (a : Arena) (h : Handle) : Failure → Prop where
  | missing (hh : h ∉ a.handles) : NoSequence a h (.missing .tokens)
  | other {t : Token} (ht : a.token h = .ok t) (kind : t.isSequence = false) :
      NoSequence a h (.misuse (.wrongKind Tag.sequence t.tag))

variable {a : Arena} {dst src h s : Handle} {id : ListId} {d e : Elements} {f : Failure}

/-! ## Growing twice -/

theorem apply_grow_nil (a : Arena) (id : ListId) : (Edit.grow id []).apply a = a := by
  have hsame : a.lists.modify id.index (·.append []) = a.lists := by
    apply Array.ext_getElem?
    intro i
    rw [Array.getElem?_modify]
    split <;> simp [Elements.append_nil]
  rw [Edit.apply, hsame]

theorem apply_grow_grow (a : Arena) (id : ListId) (hs more : List Handle) :
    (Edit.grow id more).apply ((Edit.grow id hs).apply a) =
      (Edit.grow id (hs ++ more)).apply a := by
  have hboth : (a.lists.modify id.index (·.append hs)).modify id.index (·.append more) =
      a.lists.modify id.index (·.append (hs ++ more)) := by
    apply Array.ext_getElem?
    intro i
    simp only [Array.getElem?_modify]
    split <;> simp [Function.comp_def, Elements.append_append]
  simp only [Edit.apply, hboth]

namespace Layout

theorem apply_grow (ha : a.Layout) (hid : a.listOf h = .ok id) (hs : List Handle) :
    ((Edit.grow id hs).apply a).Layout :=
  Move.layout (.grow id hs (ha.list_lt (listOf_eq_ok_iff.mp hid))) ha

/-- Pushing handles one after the other is growing by all of them. -/
theorem pushAll_eq_grow (ha : a.Layout) (hid : a.listOf s = .ok id) (hs : List Handle) :
    a.pushAll s hs = (.ok (), (Edit.grow id hs).apply a) := by
  induction hs generalizing a with
  | nil => rw [pushAll, apply_grow_nil]
  | cons x hs ih =>
    have hpush : a.push s x = (.ok (), (Edit.grow id [x]).apply a) := by
      simp only [push, hid]
      exact ha.modifyList_eq_grow hid [x]
    have hid' : ((Edit.grow id [x]).apply a).listOf s = .ok id := by rw [Edit.listOf_apply, hid]
    simp only [pushAll, hpush]
    rw [ih (ha.apply_grow hid [x]) hid', apply_grow_grow, List.singleton_append]

theorem append_eq_grow (ha : a.Layout) (hid : a.listOf dst = .ok id)
    (he : a.elementsOf src = .ok e) :
    a.append dst src = (.ok (), (Edit.grow id e.toList).apply a) := by
  simp only [append, hid, he]
  exact ha.modifyList_eq_grow hid e.toList

theorem elementsOf_grow (hid : a.listOf h = .ok id) (he : a.elementsOf h = .ok e)
    (hs : List Handle) : ((Edit.grow id hs).apply a).elementsOf h = .ok (e.append hs) := by
  have hlist : a.lists[id.index]? = some e := by
    rw [elementsOf, hid, Outcome.ok_bind] at he
    exact list_eq_ok_iff.mp he
  rw [elementsOf, Edit.listOf_apply, hid, Outcome.ok_bind, list_eq_ok_iff]
  simp [Edit.apply, Array.getElem?_modify, hlist]

/-! ## Sequences and other tokens -/

/-- A handle names a sequence, or is refused for what it is. -/
theorem elementsOf_cases (ha : a.Layout) (h : Handle) :
    (∃ e, a.elementsOf h = .ok e) ∨ ∃ f, a.elementsOf h = .error f ∧ a.NoSequence h f := by
  by_cases hh : h ∈ a.handles
  · obtain ⟨t, ht⟩ := exists_token hh
    by_cases htag : t.tag = Tag.sequence
    · obtain ⟨id, rfl⟩ := (ha.kind_of_tag ht).1 htag
      obtain ⟨e, he⟩ := ha.exists_list ht
      exact .inl ⟨e, by simp [elementsOf, listOf_eq_ok_iff.mpr ht, he]⟩
    · have hkind : t.isSequence = false := by
        cases t with
        | sequence id => exact absurd rfl htag
        | _ => rfl
      exact .inr ⟨_, by simp [elementsOf, listOf, expect_of_ne ht htag], .other ht hkind⟩
  · exact .inr ⟨_, by simp [elementsOf, listOf, expect_error (token_eq_error hh)], .missing hh⟩

theorem append_ok_cases (ha : a.Layout) (hd : a.elementsOf dst = .ok d)
    (he : a.elementsOf src = .ok e) :
    a.append dst src = a.pushAll dst e.toList ∧ (a.append dst src).1 = .ok () ∧
      (a.append dst src).2.elementsOf dst = .ok (d.append e.toList) := by
  obtain ⟨id, hid, -⟩ := Outcome.bind_eq_ok_iff.mp hd
  rw [ha.append_eq_grow hid he, ha.pushAll_eq_grow hid]
  exact ⟨rfl, rfl, elementsOf_grow hid hd e.toList⟩

/-- What is appended to is looked at first. -/
theorem append_error_cases (ha : a.Layout)
    (hf : a.elementsOf dst = .error f ∨
      (∃ d, a.elementsOf dst = .ok d) ∧ a.elementsOf src = .error f) :
    a.append dst src = (.error f, a) := by
  rcases hf with hf | ⟨⟨d, hd⟩, hf⟩
  · cases hid : a.listOf dst with
    | ok id =>
      obtain ⟨e, he⟩ := ha.exists_list (listOf_eq_ok_iff.mp hid)
      simp [elementsOf, hid, he] at hf
    | error e =>
      obtain rfl : e = f := by simpa [elementsOf, hid] using hf
      simp [append, hid]
  · obtain ⟨id, hid, -⟩ := Outcome.bind_eq_ok_iff.mp hd
    simp [append, hid, hf]

/-- Each time a sequence is appended to itself, it is twice as long. -/
theorem elementsOf_doubled (ha : a.Layout) (he : a.elementsOf s = .ok e) (k : Nat) :
    ∃ d, (a.after (List.replicate k (.change (.append s s)))).elementsOf s = .ok d ∧
      d.toList = (List.replicate (2 ^ k) e.toList).flatten := by
  induction k with
  | zero => exact ⟨e, he, by simp⟩
  | succ k ih =>
    obtain ⟨d, hd, hlist⟩ := ih
    have hb := ha.after (List.replicate k (.change (.append s s)))
    refine ⟨d.append d.toList, ?_, ?_⟩
    · rw [List.replicate_succ', after_append]
      exact (hb.append_ok_cases hd hd).2.2
    · rw [Elements.toList_append, hlist, ← List.flatten_append, List.replicate_append_replicate,
        Nat.pow_succ, Nat.mul_two]

end Layout

/-- Appending succeeds exactly if both handles name sequences, and then leads to the same arena as
pushing the elements one after the other that `src` had before. Otherwise the arena stays, and the
failure is that on `dst`, or that on `src` if `dst` is a sequence. By appending a sequence to itself
time and again it comes to hold its elements 1, 2, 4, 8 times. -/
theorem append_eq_pushAll (ha : a.Built) (dst src : Handle) :
    ((a.append dst src).1 = .ok () ↔
      (∃ d, a.elementsOf dst = .ok d) ∧ ∃ e, a.elementsOf src = .ok e) ∧
    (∀ d e, a.elementsOf dst = .ok d → a.elementsOf src = .ok e →
      a.append dst src = a.pushAll dst e.toList ∧
        (·.toList) <$> (a.append dst src).2.elementsOf dst = .ok (d.toList ++ e.toList)) ∧
    (∀ f, (a.append dst src).1 = .error f →
      (a.append dst src).2 = a ∧
        (a.NoSequence dst f ∨ (∃ d, a.elementsOf dst = .ok d) ∧ a.NoSequence src f)) ∧
    ∀ s e, a.elementsOf s = .ok e → ∀ k,
      let b := a.after (List.replicate k (.change (.append s s)))
      (b.append s s).1 = .ok () ∧
        (·.toList) <$> b.elementsOf s = .ok (List.replicate (2 ^ k) e.toList).flatten := by
  have ha := ha.layout
  refine ⟨?_, fun d e hd he => ?_, ?_, fun s e he k => ?_⟩
  · rcases ha.elementsOf_cases dst with ⟨d, hd⟩ | ⟨f, hf, -⟩
    · rcases ha.elementsOf_cases src with ⟨e, he⟩ | ⟨f, hf, -⟩
      · simp [hd, he, (ha.append_ok_cases hd he).2.1]
      · simp [hd, hf, ha.append_error_cases (.inr ⟨⟨d, hd⟩, hf⟩)]
    · have hfail : a.append dst src = (.error f, a) := ha.append_error_cases (.inl hf)
      simp [hf, hfail]
  · obtain ⟨hpush, -, hlist⟩ := ha.append_ok_cases hd he
    exact ⟨hpush, by rw [hlist, Outcome.map_ok, Elements.toList_append]⟩
  · intro f hf
    rcases ha.elementsOf_cases dst with ⟨d, hd⟩ | ⟨g, hg, hno⟩
    · rcases ha.elementsOf_cases src with ⟨e, he⟩ | ⟨g, hg, hno⟩
      · cases hf.symm.trans (ha.append_ok_cases hd he).2.1
      · rw [ha.append_error_cases (.inr ⟨⟨d, hd⟩, hg⟩)] at hf ⊢
        cases hf
        exact ⟨rfl, .inr ⟨⟨d, hd⟩, hno⟩⟩
    · rw [ha.append_error_cases (.inl hg)] at hf ⊢
      cases hf
      exact ⟨rfl, .inl hno⟩
  · obtain ⟨d, hd, hlist⟩ := ha.elementsOf_doubled he k
    have hb := ha.after (List.replicate k (.change (.append s s)))
    exact ⟨(hb.append_ok_cases hd hd).2.1, by rw [hd, Outcome.map_ok, hlist]⟩

/-- A sequence takes up one that it occurs in, and is doubled twice. A number takes up nothing, and
is refused before a handle that was never issued. -/
theorem append_eq_pushAll_sharing :
    let b := sharing.after [.change (.append ⟨1⟩ ⟨1⟩), .change (.append ⟨1⟩ ⟨1⟩)]
    sharing.append ⟨1⟩ ⟨3⟩ = sharing.pushAll ⟨1⟩ [⟨1⟩, ⟨2⟩, ⟨0⟩, ⟨1⟩] ∧
      (·.toList) <$> (sharing.append ⟨1⟩ ⟨3⟩).2.elementsOf ⟨1⟩ =
        .ok [⟨0⟩, ⟨1⟩, ⟨2⟩, ⟨0⟩, ⟨1⟩] ∧
      (·.toList) <$> b.elementsOf ⟨1⟩ = .ok [⟨0⟩, ⟨0⟩, ⟨0⟩, ⟨0⟩] ∧
      (sharing.append ⟨0⟩ ⟨9⟩).1 = .error (.misuse (.wrongKind Tag.sequence Tag.uint)) := by
  intro b
  have hbuilt : sharing.Built := built_after _
  obtain ⟨-, hok, -, hdouble⟩ := append_eq_pushAll hbuilt ⟨1⟩ ⟨3⟩
  obtain ⟨hpush, hlist⟩ := hok _ _ rfl rfl
  exact ⟨hpush, hlist, (hdouble ⟨1⟩ _ rfl 2).2, rfl⟩

end Arena

end TokenStore
