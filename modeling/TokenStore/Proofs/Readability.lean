import TokenStore.Proofs.Unfolding

/-!
# Compact texts can be read back

A compact text tells the tree that it was written from. Words are separated by blanks and closing
parentheses, neither of which is in a word, and a word tells its kind by how it starts. What a token
is written as therefore says as much as the tree below it, cut at the greatest depth.

## Main definitions

* `Tree.letters`: the letters of a compact text.
* `Text.Inner`, `Text.Ends`: the letters that words are made of, and what may come behind a word.
-/

namespace TokenStore

namespace Text

/-- A letter that can be in a word. -/
def Inner (c : Char) : Prop := c ≠ '(' ∧ c ≠ ' ' ∧ c ≠ ')'

instance (c : Char) : Decidable (Inner c) := inferInstanceAs (Decidable (_ ∧ _))

/-- No word goes on here. -/
def Ends : List Char → Prop
  | [] => True
  | c :: _ => c = ' ' ∨ c = ')'

/-! ## Words -/

theorem inner_of_all {w : List Char} (hw : w.all fun c => Inner c) : ∀ c ∈ w, Inner c :=
  fun c hc => of_decide_eq_true (List.all_eq_true.mp hw c hc)

/-- Letters that are all of a kind are told apart from what comes behind them, if that starts with a
letter of another kind or not at all. -/
theorem front_inj {P : Char → Prop} {w w' r r' : List Char} (hw : ∀ c ∈ w, P c)
    (hw' : ∀ c ∈ w', P c) (hr : ∀ c ∈ r.head?, ¬ P c) (hr' : ∀ c ∈ r'.head?, ¬ P c)
    (h : w ++ r = w' ++ r') : w = w' ∧ r = r' := by
  induction w generalizing w' with
  | nil =>
    cases w' with
    | nil => exact ⟨rfl, h⟩
    | cons c w' =>
      subst h
      exact absurd (hw' c List.mem_cons_self) (hr c rfl)
  | cons c w ih =>
    obtain ⟨hc, hw⟩ := List.forall_mem_cons.mp hw
    cases w' with
    | nil =>
      subst h
      exact absurd hc (hr' c rfl)
    | cons c' w' =>
      obtain ⟨rfl, htail⟩ := List.cons.inj h
      obtain ⟨rfl, rfl⟩ := ih hw (List.forall_mem_cons.mp hw').2 htail
      exact ⟨rfl, rfl⟩

theorem Ends.not_inner {r : List Char} (hr : Ends r) : ∀ c ∈ r.head?, ¬ Inner c := by
  cases r with
  | nil => nofun
  | cons c r =>
    rintro _ ⟨⟩ ⟨-, hblank, hclose⟩
    exact hr.elim hblank hclose

/-- Words are told apart from what comes behind them. -/
theorem word_append_inj {w w' r r' : List Char} (hw : ∀ c ∈ w, Inner c) (hw' : ∀ c ∈ w', Inner c)
    (hr : Ends r) (hr' : Ends r') (h : w ++ r = w' ++ r') : w = w' ∧ r = r' :=
  front_inj hw hw' hr.not_inner hr'.not_inner h

/-! ## Digits -/

theorem inner_digitChar : ∀ d < 16, Inner d.digitChar := by decide

theorem digitChar_inj : ∀ d < 16, ∀ e < 16, d.digitChar = e.digitChar → d = e := by decide

section digits

variable {base : Nat} (hone : 1 < base)

include hone

/-- The last digit, behind those before it if there are any. -/
theorem toDigits_eq (n : Nat) :
    Nat.toDigits base n =
      (if n < base then [] else Nat.toDigits base (n / base)) ++ [(n % base).digitChar] := by
  rw [Nat.toDigits_eq_if hone]
  split
  next hn => rw [Nat.mod_eq_of_lt hn, List.nil_append]
  next => rfl

/-- What holds of all sixteen digits holds of the digits of a number. -/
theorem forall_mem_toDigits (hbase : base ≤ 16) {P : Char → Prop} (hP : ∀ d < 16, P d.digitChar)
    (n : Nat) : ∀ c ∈ Nat.toDigits base n, P c := by
  induction n using Nat.strongRecOn with
  | ind n ih =>
    have hlast : n % base < 16 := by
      have := Nat.mod_lt n (Nat.zero_lt_of_lt hone)
      omega
    rw [toDigits_eq hone]
    refine List.forall_mem_append.mpr ⟨?_, List.forall_mem_singleton.mpr (hP _ hlast)⟩
    split
    · nofun
    · exact ih (n / base) (Nat.div_lt_self (by omega) hone)

/-- A number is known by its digits. -/
theorem toDigits_inj (hbase : base ≤ 16) {n m : Nat}
    (h : Nat.toDigits base n = Nat.toDigits base m) : n = m := by
  induction n using Nat.strongRecOn generalizing m with
  | ind n ih =>
    have hn := Nat.mod_lt n (Nat.zero_lt_of_lt hone)
    have hm := Nat.mod_lt m (Nat.zero_lt_of_lt hone)
    rw [toDigits_eq hone, toDigits_eq hone (n := m)] at h
    obtain ⟨hfront, hlast⟩ := List.append_inj' h rfl
    have hmod : n % base = m % base :=
      digitChar_inj _ (by omega) _ (by omega) (List.cons.inj hlast).1
    -- the digits in front are none for a single digit, and never none otherwise
    split at hfront <;> split at hfront
    next hn hm => rwa [Nat.mod_eq_of_lt hn, Nat.mod_eq_of_lt hm] at hmod
    next => exact absurd hfront.symm Nat.toDigits_ne_nil
    next => exact absurd hfront Nat.toDigits_ne_nil
    next hn hm =>
      have hdiv := ih (n / base) (Nat.div_lt_self (by omega) hone) hfront
      rw [← Nat.div_add_mod n base, ← Nat.div_add_mod m base, hdiv, hmod]

end digits

/-! ## Byte strings -/

theorem forall_mem_hexByte {P : Char → Prop} (hP : ∀ d < 16, P d.digitChar) (b : UInt8) :
    ∀ c ∈ hexByte b, P c := by
  have hb := b.toNat_lt
  exact List.forall_mem_cons.mpr ⟨hP _ (by omega), List.forall_mem_singleton.mpr (hP _ (by omega))⟩

theorem hexByte_inj {b c : UInt8} (h : hexByte b = hexByte c) : b = c := by
  have hb := b.toNat_lt
  have hc := c.toNat_lt
  obtain ⟨hhigh, hlow⟩ := List.cons.inj h
  have hdiv := digitChar_inj _ (by omega) _ (by omega) hhigh
  have hmod := digitChar_inj _ (by omega) _ (by omega) (List.cons.inj hlow).1
  exact UInt8.toNat_inj.mp (by omega)

/-- Bytes behind others, with a dot before each. -/
def moreBytes (data : List UInt8) : List Char := data.flatMap fun b => '.' :: hexByte b

theorem moreBytes_inj {data data' : List UInt8} (h : moreBytes data = moreBytes data') :
    data = data' := by
  induction data generalizing data' with
  | nil =>
    cases data' with
    | nil => rfl
    | cons c data' => cases h
  | cons b data ih =>
    cases data' with
    | nil => cases h
    | cons c data' =>
      obtain ⟨hbyte, hmore⟩ := List.append_inj (List.cons.inj h).2 rfl
      rw [hexByte_inj hbyte, ih hmore]

/-- What stands between the angle brackets. -/
def dots : List UInt8 → List Char
  | [] => []
  | b :: data => hexByte b ++ moreBytes data

theorem dots_eq (data : List UInt8) : ['.'].intercalate (data.map hexByte) = dots data := by
  induction data with
  | nil => rfl
  | cons b data ih =>
    cases data with
    | nil => simp [dots, moreBytes]
    | cons c data =>
      rw [List.map_cons, List.map_cons, List.intercalate_cons_cons, ← List.map_cons, ih,
        List.append_assoc]
      rfl

@[simp] theorem toList_dotted (data : List UInt8) :
    (dotted data).toList = '<' :: (dots data ++ ['>']) := by
  rw [dotted, String.toList_ofList, dots_eq, List.cons_append]

/-- Dotted bytes are digits, dots and brackets. -/
theorem forall_mem_dotted {P : Char → Prop} (hP : ∀ d < 16, P d.digitChar)
    (hmarks : P '<' ∧ P '.' ∧ P '>') (data : List UInt8) : ∀ c ∈ (dotted data).toList, P c := by
  obtain ⟨hopen, hdot, hclose⟩ := hmarks
  have hmore : ∀ c ∈ moreBytes data.tail, P c := by
    intro c hc
    obtain ⟨b, -, hb⟩ := List.mem_flatMap.mp hc
    exact List.forall_mem_cons.mpr ⟨hdot, forall_mem_hexByte hP b⟩ c hb
  rw [toList_dotted]
  refine List.forall_mem_cons.mpr ⟨hopen, List.forall_mem_append.mpr ⟨?_, by simpa using hclose⟩⟩
  cases data with
  | nil => nofun
  | cons b data => exact List.forall_mem_append.mpr ⟨forall_mem_hexByte hP b, hmore⟩

theorem dotted_inj {data data' : List UInt8} (h : (dotted data).toList = (dotted data').toList) :
    data = data' := by
  rw [toList_dotted, toList_dotted] at h
  have hdots : dots data = dots data' := List.append_cancel_right (List.cons.inj h).2
  cases data with
  | nil =>
    cases data' with
    | nil => rfl
    | cons c data' => cases hdots
  | cons b data =>
    cases data' with
    | nil => cases hdots
    | cons c data' =>
      obtain ⟨hbyte, hmore⟩ := List.append_inj hdots rfl
      rw [hexByte_inj hbyte, moreBytes_inj hmore]

end Text

/-- A tag is known by the digits of its code. -/
theorem Tag.eq_of_digits {tag tag' : Tag}
    (h : Nat.toDigits 10 tag.code.toNat = Nat.toDigits 10 tag'.code.toNat) : tag = tag' := by
  have hcode := Text.toDigits_inj (by decide) (by decide) h
  cases tag
  cases tag'
  exact congrArg Tag.mk (UInt32.toNat_inj.mp hcode)

/-! ## Letters of a tree -/

namespace Tree

mutual

/-- The letters of the compact text. -/
def letters : Tree Unit → List Char
  | .bytes data => (Text.dotted data).toList
  | .sint value => (compactSint value).toList
  | .uint value => (compactUint value).toList
  | .user tag => ['u', 's', 'e', 'r', ':'] ++ Nat.toDigits 10 tag.code.toNat
  | .seq ts => '(' :: lettersInside ts
  | .cut _ => ['.', '.', '.']

/-- The letters of a sequence behind its first parenthesis. -/
def lettersInside : List (Tree Unit) → List Char
  | [] => [')']
  | t :: ts => letters t ++ lettersMore ts

/-- The letters of further members of a sequence, and of its end. -/
def lettersMore : List (Tree Unit) → List Char
  | [] => [')']
  | t :: ts => ' ' :: (letters t ++ lettersMore ts)

end

mutual

theorem toList_writeCompact (out : String) (t : Tree Unit) :
    (writeCompact out t).toList = out.toList ++ t.letters := by
  cases t with
  | seq children =>
    cases children with
    | nil => simp [writeCompact, letters, lettersInside]
    | cons t ts =>
      rw [writeCompact, toList_writeCompactMore, toList_writeCompact]
      simp [letters, lettersInside]
  | _ => simp [writeCompact, letters]

theorem toList_writeCompactMore (out : String) (ts : List (Tree Unit)) :
    ((writeCompactMore out ts).push ')').toList = out.toList ++ lettersMore ts := by
  cases ts with
  | nil => simp [writeCompactMore, lettersMore]
  | cons t ts =>
    rw [writeCompactMore, toList_writeCompactMore, toList_writeCompact]
    simp [lettersMore]

end

theorem toList_compact (t : Tree Unit) : t.compact.toList = t.letters := by
  rw [compact, toList_writeCompact, String.toList_empty, List.nil_append]

/-! ## Words of scalars -/

@[simp] theorem toList_compactSint (value : Int64) :
    (compactSint value).toList =
      's' :: ((if value.toInt < 0 then ['-'] else []) ++
        '0' :: 'x' :: Nat.toDigits 16 value.toInt.natAbs) := by
  unfold compactSint Text.hex
  split <;> simp

@[simp] theorem toList_compactUint (value : UInt64) :
    (compactUint value).toList = 'u' :: '0' :: 'x' :: Nat.toDigits 16 value.toNat := by
  simp [compactUint, Text.hex]

theorem compactSint_inj {value value' : Int64}
    (h : (compactSint value).toList = (compactSint value').toList) : value = value' := by
  rw [toList_compactSint, toList_compactSint] at h
  have hnumber : value.toInt.natAbs = value'.toInt.natAbs ∧
      (value.toInt < 0 ↔ value'.toInt < 0) := by
    split at h <;> split at h <;>
      simp only [List.cons_append, List.nil_append, List.cons.injEq, true_and] at h
    next hn hn' => exact ⟨Text.toDigits_inj (by decide) (by decide) h, by simp [hn, hn']⟩
    next => cases h.1
    next => cases h.1
    next hn hn' => exact ⟨Text.toDigits_inj (by decide) (by decide) h, by simp [hn, hn']⟩
  exact Int64.toInt_inj.mp (by omega)

theorem compactUint_inj {value value' : UInt64}
    (h : (compactUint value).toList = (compactUint value').toList) : value = value' := by
  rw [toList_compactUint, toList_compactUint] at h
  simp only [List.cons.injEq, true_and] at h
  exact UInt64.toNat_inj.mp (Text.toDigits_inj (by decide) (by decide) h)

theorem user_inj {tag tag' : Tag} (h : (user tag).letters = (user tag').letters) : tag = tag' :=
  Tag.eq_of_digits (List.append_cancel_left h)

section words

variable {t u : Tree Unit}

/-- What is no sequence is written as one word. -/
theorem inner_letters (ht : ∀ ts, t ≠ .seq ts) : ∀ c ∈ t.letters, Text.Inner c := by
  have hhex : ∀ n, ∀ c ∈ '0' :: 'x' :: Nat.toDigits 16 n, Text.Inner c := by
    intro n
    refine List.forall_mem_cons.mpr ⟨by decide, List.forall_mem_cons.mpr ⟨by decide, ?_⟩⟩
    exact Text.forall_mem_toDigits (by decide) (by decide) Text.inner_digitChar n
  cases t with
  | seq ts => exact absurd rfl (ht ts)
  | bytes data => exact Text.forall_mem_dotted Text.inner_digitChar (by decide) data
  | sint value =>
    have hsign : ∀ c ∈ (if value.toInt < 0 then ['-'] else []), Text.Inner c := by
      split <;> exact Text.inner_of_all rfl
    rw [letters, toList_compactSint]
    exact List.forall_mem_cons.mpr ⟨by decide, List.forall_mem_append.mpr ⟨hsign, hhex _⟩⟩
  | uint value =>
    rw [letters, toList_compactUint]
    exact List.forall_mem_cons.mpr ⟨by decide, hhex _⟩
  | user tag =>
    have hcode : ∀ c ∈ Nat.toDigits 10 tag.code.toNat, Text.Inner c :=
      Text.forall_mem_toDigits (by decide) (by decide) Text.inner_digitChar _
    rw [letters]
    exact List.forall_mem_append.mpr ⟨Text.inner_of_all rfl, hcode⟩
  | cut stub =>
    rw [letters]
    exact Text.inner_of_all rfl

/-- A word tells what it was written from. The first two letters tell the kind. -/
theorem word_inj (ht : ∀ ts, t ≠ .seq ts) (hu : ∀ ts, u ≠ .seq ts) (h : t.letters = u.letters) :
    t = u := by
  cases t with
  | seq ts => exact absurd rfl (ht ts)
  | bytes data =>
    cases u with
    | seq us => exact absurd rfl (hu us)
    | bytes data' => exact congrArg _ (Text.dotted_inj h)
    | _ => simp [letters] at h
  | sint value =>
    cases u with
    | seq us => exact absurd rfl (hu us)
    | sint value' => exact congrArg _ (compactSint_inj h)
    | _ => simp [letters] at h
  | uint value =>
    cases u with
    | seq us => exact absurd rfl (hu us)
    | uint value' => exact congrArg _ (compactUint_inj h)
    | _ => simp [letters] at h
  | user tag =>
    cases u with
    | seq us => exact absurd rfl (hu us)
    | user tag' => exact congrArg _ (user_inj h)
    | _ => simp [letters] at h
  | cut stub =>
    cases u with
    | seq us => exact absurd rfl (hu us)
    | cut stub' => rfl
    | _ => simp [letters] at h

theorem letters_ne_nil (t : Tree Unit) : t.letters ≠ [] := by
  cases t with
  | seq ts => simp [letters]
  | _ => simp [letters]

theorem word_start (ht : ∀ ts, t ≠ .seq ts) : ∃ c w, t.letters = c :: w ∧ Text.Inner c := by
  obtain ⟨c, w, hw⟩ := List.exists_cons_of_ne_nil t.letters_ne_nil
  exact ⟨c, w, hw, inner_letters ht c (hw ▸ List.mem_cons_self)⟩

/-! ## Trees -/

/-- Only the end of a sequence starts with a closing parenthesis. -/
theorem letters_append_ne_close (t : Tree Unit) (r s : List Char) : t.letters ++ r ≠ ')' :: s := by
  intro h
  by_cases ht : ∃ ts, t = .seq ts
  · obtain ⟨ts, rfl⟩ := ht
    rw [letters] at h
    cases (List.cons.inj h).1
  · obtain ⟨c, w, hw, -, -, hclose⟩ := word_start (not_exists.mp ht)
    rw [hw] at h
    exact hclose (List.cons.inj h).1

/-- Only sequences start with an opening parenthesis. -/
theorem word_append_ne_open (ht : ∀ ts, t ≠ .seq ts) (r s : List Char) :
    t.letters ++ r ≠ '(' :: s := by
  intro h
  obtain ⟨c, w, hw, hopen, -⟩ := word_start ht
  rw [hw] at h
  exact hopen (List.cons.inj h).1

theorem ends_lettersMore (ts : List (Tree Unit)) (r : List Char) :
    Text.Ends (lettersMore ts ++ r) := by
  cases ts with
  | nil => exact .inr rfl
  | cons t ts => exact .inl rfl

/-- The tree can be told from its letters, whatever comes behind them. -/
def Readable (t : Tree Unit) : Prop :=
  ∀ {u : Tree Unit} {r s : List Char}, Text.Ends r → Text.Ends s →
    t.letters ++ r = u.letters ++ s → t = u ∧ r = s

section sequences

variable {ts us : List (Tree Unit)} {r s : List Char}

theorem lettersMore_append_inj (hts : ∀ t ∈ ts, Readable t)
    (h : lettersMore ts ++ r = lettersMore us ++ s) : ts = us ∧ r = s := by
  induction ts generalizing us with
  | nil =>
    cases us with
    | nil => exact ⟨rfl, (List.cons.inj h).2⟩
    | cons u us => cases (List.cons.inj h).1
  | cons t ts ih =>
    obtain ⟨ht, hts⟩ := List.forall_mem_cons.mp hts
    cases us with
    | nil => cases (List.cons.inj h).1
    | cons u us =>
      have htail : t.letters ++ (lettersMore ts ++ r) = u.letters ++ (lettersMore us ++ s) := by
        simpa [lettersMore] using h
      obtain ⟨rfl, hmore⟩ := ht (ends_lettersMore ts r) (ends_lettersMore us s) htail
      obtain ⟨rfl, rfl⟩ := ih hts hmore
      exact ⟨rfl, rfl⟩

theorem lettersInside_append_inj (hts : ∀ t ∈ ts, Readable t)
    (h : lettersInside ts ++ r = lettersInside us ++ s) : ts = us ∧ r = s := by
  cases ts with
  | nil =>
    cases us with
    | nil => exact ⟨rfl, (List.cons.inj h).2⟩
    | cons u us =>
      rw [lettersInside, lettersInside, List.append_assoc] at h
      exact absurd h.symm (letters_append_ne_close u _ _)
  | cons t ts =>
    obtain ⟨ht, hts⟩ := List.forall_mem_cons.mp hts
    cases us with
    | nil =>
      rw [lettersInside, lettersInside, List.append_assoc] at h
      exact absurd h (letters_append_ne_close t _ _)
    | cons u us =>
      rw [lettersInside, lettersInside, List.append_assoc, List.append_assoc] at h
      obtain ⟨rfl, hmore⟩ := ht (ends_lettersMore ts r) (ends_lettersMore us s) h
      obtain ⟨rfl, rfl⟩ := lettersMore_append_inj hts hmore
      exact ⟨rfl, rfl⟩

end sequences

theorem readable (t : Tree Unit) : Readable t := by
  induction t using childrenInduction with
  | seq ts ih =>
    intro u r s hr hs h
    rw [letters] at h
    by_cases hu : ∃ us, u = .seq us
    · obtain ⟨us, rfl⟩ := hu
      rw [letters] at h
      obtain ⟨rfl, rfl⟩ := lettersInside_append_inj ih (List.cons.inj h).2
      exact ⟨rfl, rfl⟩
    · exact absurd h.symm (word_append_ne_open (not_exists.mp hu) s _)
  | leaf t ht =>
    intro u r s hr hs h
    by_cases hu : ∃ us, u = .seq us
    · obtain ⟨us, rfl⟩ := hu
      rw [letters] at h
      exact absurd h (word_append_ne_open ht r _)
    · have hu := not_exists.mp hu
      obtain ⟨hword, rfl⟩ := Text.word_append_inj (inner_letters ht) (inner_letters hu) hr hs h
      exact ⟨word_inj ht hu hword, rfl⟩

/-- No two trees have the same compact text. -/
theorem compact_injective : Function.Injective compact := by
  intro t u h
  have hletters : t.letters ++ [] = u.letters ++ [] := by
    rw [← toList_compact, ← toList_compact, h]
  have hends : Text.Ends [] := trivial
  exact (t.readable hends hends hletters).1

end words

end Tree

end TokenStore
