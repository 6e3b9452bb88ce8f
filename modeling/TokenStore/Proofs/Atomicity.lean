import TokenStore.Proofs.Cycles

/-!
# Failures

An operation checks all that it is given before it writes anything, so when it fails the arena is as
it was. Only an import writes as it goes. A reshaper may have done a lot to the arena when it fails,
but the result of the parse stays in place.

## Main definitions

* `Arena.Atomic`: a failure leaves the arena alone.
* `Reshaper.KeepsResult`: the reshapers that leave it to the parse to put the result in place.
* `Script`: what an application does with an arena, as data, with `Script.play` and
  `Script.reshaper`.
-/

namespace TokenStore

/-- The operation is the import of a document. -/
def Op.Imports (op : Op) : Prop := ∃ v, op = .change (.addJson v)

namespace Arena

/-- If there is a failure, the arena is still `a`. -/
def Atomic {α : Type} (a : Arena) (r : Except Failure α × Arena) : Prop :=
  ∀ e, r.1 = .error e → r.2 = a

variable {α : Type} {a : Arena}

theorem Atomic.ok (x : α) (b : Arena) : Atomic a (.ok x, b) := nofun

theorem Atomic.error (e : Failure) : Atomic a ((.error e, a) : Except Failure α × Arena) :=
  fun _ _ => rfl

theorem Atomic.attempt {r : Except Failure α × Arena} (hr : Atomic a r) (wrap : α → Answer) :
    Atomic a (Update.attempt wrap r) := by
  intro e he
  rcases r with ⟨e' | x, b⟩
  · exact hr e' rfl
  · cases he

/-! ## Every operation but the import -/

theorem atomic_addSeqReserving (a : Arena) (capacity : Nat) :
    Atomic a (a.addSeqReserving capacity) := by
  unfold addSeqReserving
  split
  · apply Atomic.ok
  · apply Atomic.error

theorem atomic_addZeros (a : Arena) (length : Nat) : Atomic a (a.addZeros length) := by
  unfold addZeros
  split
  · apply Atomic.error
  · split
    · apply Atomic.error
    · apply Atomic.ok

theorem atomic_addUser (a : Arena) (tag : Tag) (value : Payload) :
    Atomic a (a.addUser tag value) := by
  unfold addUser
  split
  · apply Atomic.ok
  · apply Atomic.error

theorem atomic_modifyList (a : Arena) (id : ListId) (change : Elements → Elements) :
    Atomic a (a.modifyList id change) := by
  unfold modifyList
  split
  · apply Atomic.ok
  · apply Atomic.error

theorem atomic_push (a : Arena) (seq value : Handle) : Atomic a (a.push seq value) := by
  unfold push
  split
  · apply atomic_modifyList
  · apply Atomic.error

/-- Both sequences are read before the first of them grows. -/
theorem atomic_append (a : Arena) (dst src : Handle) : Atomic a (a.append dst src) := by
  unfold append
  split
  · split
    · apply atomic_modifyList
    · apply Atomic.error
  · apply Atomic.error

theorem atomic_flatten (a : Arena) (h : Handle) : Atomic a (a.flatten h) := by
  unfold flatten
  split
  · apply Atomic.ok
  · apply Atomic.error

theorem atomic_writeBytes (a : Arena) (h : Handle) (offset : Nat) (data : List UInt8) :
    Atomic a (a.writeBytes h offset data) := by
  unfold writeBytes
  split
  · split
    · split
      · apply Atomic.ok
      · apply Atomic.ok
    · apply Atomic.error
  · apply Atomic.error

theorem atomic_setPayload (a : Arena) (tag : Tag) (h : Handle) (value : Payload) :
    Atomic a (a.setPayload tag h value) := by
  unfold setPayload
  split
  · apply Atomic.ok
  · apply Atomic.error

theorem atomic_run (a : Arena) {op : Op} (hop : ¬ op.Imports) : Atomic a (op.run a) := by
  cases op with
  | ask q => exact fun _ _ => rfl
  | change u =>
    cases u with
    | clear => apply Atomic.ok
    | addSeq => apply Atomic.ok
    | addSeqReserving capacity => exact (a.atomic_addSeqReserving capacity).attempt _
    | addBytes data => apply Atomic.ok
    | addSint value => apply Atomic.ok
    | addUint value => apply Atomic.ok
    | addZeros length => exact (a.atomic_addZeros length).attempt _
    | addUser tag value => exact (a.atomic_addUser tag value).attempt _
    | addJson v => exact absurd ⟨v, rfl⟩ hop
    | push seq value => exact (a.atomic_push seq value).attempt _
    | append dst src => exact (a.atomic_append dst src).attempt _
    | flatten h => exact (a.atomic_flatten h).attempt _
    | writeBytes h offset data => exact (a.atomic_writeBytes h offset data).attempt _
    | setPayload tag h value => exact (a.atomic_setPayload tag h value).attempt _

end Arena

/-! ## Reshapers -/

/-- The reshaper leaves the result as it is, also when it fails. -/
def Reshaper.KeepsResult (f : Reshaper) : Prop := ∀ p, (f p).2.result = p.result

/-- A failure to reshape is a failure of the reshaper, and leaves what the reshaper left. -/
theorem Parse.reshape_of_error {p : Parse} {f : Reshaper} {e : Failure}
    (he : (p.reshape f).1 = .error e) : (f p).1 = .error e ∧ (p.reshape f).2 = (f p).2 := by
  rcases hf : f p with ⟨e' | x, q⟩ <;> simp_all [reshape]

namespace Pick

theorem keepsResult_run (pick : Pick) : Reshaper.KeepsResult pick.run := by
  intro p
  rcases pick.run_cases p with hsame | ⟨h, -, -, hrun⟩
  · rw [hsame]
  · rw [hrun]

/-- A ready-made reshaper that fails leaves the parse alone. -/
theorem run_of_error {pick : Pick} {p : Parse} {e : Failure} (he : (pick.run p).1 = .error e) :
    (pick.run p).2 = p := by
  rcases pick.run_cases p with hsame | ⟨h, -, -, hrun⟩
  · exact hsame
  · rw [hrun] at he ⊢
    have hflat : (p.arena.flatten h).1 = .error e := by
      cases hfound : (p.arena.flatten h).1 <;> simp_all
    rw [p.arena.atomic_flatten h e hflat]

end Pick

/-- What an application does with an arena: operations one after another, each chosen by the answers
before it, and in the end an answer or a failure of its own. -/
inductive Script where
  | answer (result : Option Handle)
  | fail (e : Failure)
  | step (op : Op) (next : Answer → Script)

namespace Script

/-- A failure ends the script. -/
def play : Script → Arena → Except Failure (Option Handle) × Arena
  | answer result, a => (.ok result, a)
  | fail e, a => (.error e, a)
  | step op next, a =>
    match op.run a with
    | (.ok x, b) => (next x).play b
    | (.error e, b) => (.error e, b)

/-- A reshaper that reads the result and plays a script on the arena. -/
def reshaper (s : Option Handle → Script) : Reshaper := fun p =>
  let (r, arena) := (s p.result).play p.arena
  (r, { p with arena })

theorem keepsResult_reshaper (s : Option Handle → Script) : (reshaper s).KeepsResult :=
  fun _ => rfl

end Script

namespace Parse

/-- A failing operation leaves the arena as it was, unless it is an import, and a failing ready-made
reshaper the whole parse. Whatever a reshaper does to the arena before it fails, the result stays in
place, if the reshaper does not replace it by itself, as the ready-made ones do not. -/
theorem failures_atomic :
    (∀ (a : Arena) (op : Op) (e : Failure), ¬ op.Imports → (op.run a).1 = .error e →
      (op.run a).2 = a) ∧
    (∀ (p : Parse) (pick : Pick) (e : Failure), (pick.run p).1 = .error e → (pick.run p).2 = p) ∧
    (∀ (p : Parse) (pick : Pick) (e : Failure), (p.reshape pick.run).1 = .error e →
      (p.reshape pick.run).2 = p) ∧
    (∀ pick : Pick, Reshaper.KeepsResult pick.run) ∧
    ∀ (p : Parse) (f : Reshaper) (e : Failure), f.KeepsResult → (p.reshape f).1 = .error e →
      (p.reshape f).2 = { p with arena := (f p).2.arena } := by
  refine ⟨?_, fun p pick e => Pick.run_of_error, ?_, Pick.keepsResult_run, ?_⟩
  · intro a op e hop
    exact a.atomic_run hop e
  · intro p pick e he
    obtain ⟨hrun, hsame⟩ := reshape_of_error he
    rw [hsame, Pick.run_of_error hrun]
  · intro p f e hf he
    obtain ⟨-, hsame⟩ := reshape_of_error he
    rw [hsame, ← hf p]

/-- Adds a number and takes it for a sequence. -/
def mistaken : Option Handle → Script := fun _ =>
  .step (.change (.addUint 8)) fun _ => .step (.change (.push ⟨4⟩ ⟨0⟩)) fun _ => .answer none

/-- A number is appended to a sequence, the final element of a missing token is asked for, and a
script goes wrong after it has added a number. -/
theorem failures_atomic_sharing :
    let p : Parse := ⟨Arena.sharing, some ⟨3⟩⟩
    let q : Parse := ⟨Arena.sharing, some ⟨9⟩⟩
    ((Op.change (.append ⟨1⟩ ⟨0⟩)).run p.arena).2 = p.arena ∧ (q.reshape Pick.final.run).2 = q ∧
      (p.reshape (Script.reshaper mistaken)).2 = { p with arena := (p.arena.addUint 8).2 } := by
  intro p q
  obtain ⟨hop, -, hpick, -, hreshape⟩ := failures_atomic
  have hkind : ((Op.change (.append ⟨1⟩ ⟨0⟩)).run p.arena).1 =
      .error (.misuse (.wrongKind Tag.sequence Tag.uint)) := rfl
  have hmissing : (q.reshape Pick.final.run).1 = .error (.missing .tokens) := rfl
  have hmistaken : (p.reshape (Script.reshaper mistaken)).1 =
      .error (.misuse (.wrongKind Tag.sequence Tag.uint)) := rfl
  refine ⟨hop _ _ _ ?_ hkind, hpick _ _ _ hmissing, ?_⟩
  · rintro ⟨v, hv⟩
    cases hv
  · exact hreshape _ _ _ (Script.keepsResult_reshaper mistaken) hmistaken

end Parse

end TokenStore
