import TokenStore.Proofs.Page
import TokenStore.Proofs.Readability

/-!
# Outlines can be read back

The lines of an outline tell the tree that they were written from, whether or not they are indented.
No line goes on into the next one, a line tells what token it is of, and the line of a sequence says
how many trees there are to read behind it.

## Main definitions

* `Tree.plainBody`: what a line says where no table of names is at hand.
* `Tree.Legible`: the lines of a tree can be told from whatever lines come behind them.
-/

namespace TokenStore

namespace Text

/-! ## Quoted bytes -/

theorem toNat_charOf (b : UInt8) : (Char.ofNat b.toNat).toNat = b.toNat := by
  have hb := b.toNat_lt
  have hvalid : b.toNat.isValidChar := .inl (by omega)
  rw [Char.ofNat, dif_pos hvalid]
  rfl

theorem charOf_inj {b c : UInt8} (h : Char.ofNat b.toNat = Char.ofNat c.toNat) : b = c := by
  rw [← UInt8.toNat_inj, ← toNat_charOf b, ← toNat_charOf c, h]

/-- A byte is escaped or not by what it is, and no escape can be read as anything else. -/
theorem flatMap_escapeAscii_inj {data data' : List UInt8}
    (h : data.flatMap escapeAscii = data'.flatMap escapeAscii) : data = data' := by
  induction data generalizing data' with
  | nil =>
    cases data' with
    | nil => rfl
    | cons c data' => simp only [List.flatMap_cons, escapeAscii] at h; split at h <;> cases h
  | cons b data ih =>
    cases data' with
    | nil => simp only [List.flatMap_cons, escapeAscii] at h; split at h <;> cases h
    | cons c data' =>
      have hfirst : Char.ofNat b.toNat = Char.ofNat c.toNat ∧
          data.flatMap escapeAscii = data'.flatMap escapeAscii := by
        simp only [List.flatMap_cons, escapeAscii] at h
        grind
      rw [charOf_inj hfirst.1, ih hfirst.2]

@[simp] theorem toList_quotedAscii (data : List UInt8) :
    (quotedAscii data).toList = '"' :: (data.flatMap escapeAscii ++ ['"']) := by
  simp [quotedAscii]

theorem quotedAscii_inj {data data' : List UInt8}
    (h : (quotedAscii data).toList = (quotedAscii data').toList) : data = data' := by
  rw [toList_quotedAscii, toList_quotedAscii] at h
  exact flatMap_escapeAscii_inj (List.append_cancel_right (List.cons.inj h).2)

/-- A letter that can be in a line. -/
def InLine (c : Char) : Prop := c ≠ '\n'

instance (c : Char) : Decidable (InLine c) := inferInstanceAs (Decidable (_ ≠ _))

theorem inLine_digitChar : ∀ d < 16, InLine d.digitChar := by decide

theorem inLine_quotedAscii {data : List UInt8} (hdata : data.all isPrintable) :
    ∀ c ∈ (quotedAscii data).toList, InLine c := by
  have hbyte : ∀ b ∈ data, ∀ c ∈ escapeAscii b, InLine c := by
    intro b hb c hc
    have hprintable := List.all_eq_true.mp hdata b hb
    have hchar : InLine (Char.ofNat b.toNat) := by
      intro heq
      have hten := congrArg Char.toNat heq
      rw [toNat_charOf] at hten
      have hlow : 0x20 ≤ b := by simpa using (Bool.and_eq_true_iff.mp hprintable).1
      have : 32 ≤ b.toNat := UInt8.le_iff_toNat_le.mp hlow
      have : b.toNat = 10 := hten
      omega
    dsimp only [escapeAscii] at hc
    split at hc
    · rcases List.mem_cons.mp hc with rfl | hc
      · decide
      · exact List.mem_singleton.mp hc ▸ hchar
    · exact List.mem_singleton.mp hc ▸ hchar
  rw [toList_quotedAscii]
  refine List.forall_mem_cons.mpr ⟨by decide, List.forall_mem_append.mpr ⟨fun c hc => ?_, ?_⟩⟩
  · obtain ⟨b, hb, hc⟩ := List.mem_flatMap.mp hc
    exact hbyte b hb c hc
  · exact List.forall_mem_singleton.mpr (by decide)

/-- The letters of an integer. -/
theorem toList_repr (n : Int) :
    n.repr.toList = (if n < 0 then ['-'] else []) ++ Nat.toDigits 10 n.natAbs := by
  cases n with
  | ofNat n => exact Nat.toList_repr
  | negSucc n =>
    have hneg : Int.negSucc n < 0 := Int.negSucc_lt_zero n
    rw [if_pos hneg, Int.natAbs_negSucc, ← Nat.toList_repr]
    exact String.toList_append

/-- Only negative integers start with a sign. -/
theorem repr_inj {n m : Int} (h : n.repr.toList = m.repr.toList) : n = m := by
  have hdigit : ∀ k : Nat, ∀ c ∈ Nat.toDigits 10 k, c ≠ '-' :=
    forall_mem_toDigits (by decide) (by decide) (by decide)
  rw [toList_repr, toList_repr] at h
  split at h <;> split at h
  next hn hm =>
    have := toDigits_inj (by decide) (by decide) (List.cons.inj h).2
    omega
  next =>
    have hsign : '-' ∈ [] ++ Nat.toDigits 10 m.natAbs := h ▸ List.mem_cons_self
    exact absurd rfl (hdigit _ _ hsign)
  next =>
    have hsign : '-' ∈ [] ++ Nat.toDigits 10 n.natAbs := h.symm ▸ List.mem_cons_self
    exact absurd rfl (hdigit _ _ hsign)
  next hn hm =>
    have := toDigits_inj (by decide) (by decide) h
    omega

end Text

namespace Tag

/-- A tag without a name of its own shows its code. -/
theorem text_cases (t : Tag) :
    (t = bytes ∧ t.text = "BYTES") ∨ (t = sint ∧ t.text = "SINT") ∨
      (t = uint ∧ t.text = "UINT") ∨ (t = sequence ∧ t.text = "SEQUENCE") ∨
        t.text = "USER(" ++ toString t.code.toNat ++ ")" := by
  by_cases hbytes : t = bytes
  · exact .inl ⟨hbytes, hbytes ▸ rfl⟩
  by_cases hsint : t = sint
  · exact .inr (.inl ⟨hsint, hsint ▸ rfl⟩)
  by_cases huint : t = uint
  · exact .inr (.inr (.inl ⟨huint, huint ▸ rfl⟩))
  by_cases hsequence : t = sequence
  · exact .inr (.inr (.inr (.inl ⟨hsequence, hsequence ▸ rfl⟩)))
  have hnone : t.builtinName? = none := by simp [builtinName?, hbytes, hsint, huint, hsequence]
  refine .inr (.inr (.inr (.inr ?_)))
  rw [text, hnone]
  rfl

end Tag

namespace Tree

/-! ## Lines -/

theorem bodyOfBytes_inj {data data' : List UInt8}
    (h : (bodyOfBytes data).toList = (bodyOfBytes data').toList) : data = data' := by
  unfold bodyOfBytes at h
  split at h <;> split at h
  · exact Text.quotedAscii_inj h
  · simp at h
  · simp at h
  · exact Text.dotted_inj h

theorem inLine_bodyOfBytes (data : List UInt8) :
    ∀ c ∈ (bodyOfBytes data).toList, Text.InLine c := by
  unfold bodyOfBytes
  split
  next hdata => exact Text.inLine_quotedAscii hdata
  next => exact Text.forall_mem_dotted Text.inLine_digitChar (by decide) data

/-- What a line says where no table of names is at hand. -/
abbrev plainBody : Tree Nat → String := body fun _ => none

section bodies

variable {t u : Tree Nat}

@[simp] theorem toList_body_bytes (data : List UInt8) :
    (plainBody (.bytes data)).toList =
      ['B', 'Y', 'T', 'E', 'S', ' '] ++ (bodyOfBytes data).toList := String.toList_append

@[simp] theorem toList_body_sint (value : Int64) :
    (plainBody (.sint value)).toList = ['S', 'I', 'N', 'T', ' '] ++ value.toInt.repr.toList :=
  String.toList_append

@[simp] theorem toList_body_uint (value : UInt64) :
    (plainBody (.uint value)).toList =
      ['U', 'I', 'N', 'T', ' '] ++ Nat.toDigits 10 value.toNat := by
  change ("UINT " ++ value.toNat.repr).toList = _
  simp

@[simp] theorem toList_body_seq (ts : List (Tree Nat)) :
    (plainBody (.seq ts)).toList =
      ['S', 'E', 'Q', 'U', 'E', 'N', 'C', 'E', '['] ++ (Nat.toDigits 10 ts.length ++ [']']) := by
  change ("SEQUENCE[" ++ ts.length.repr ++ "]").toList = _
  simp

@[simp] theorem toList_body_cut (size : Nat) :
    (plainBody (.cut size)).toList =
      ['S', 'E', 'Q', 'U', 'E', 'N', 'C', 'E', '['] ++
        (Nat.toDigits 10 size ++ [']', ' ', '.', '.', '.']) := by
  change ("SEQUENCE[" ++ size.repr ++ "] ...").toList = _
  simp

theorem toList_body_user (tag : Tag) :
    (tag = Tag.bytes ∧ (plainBody (.user tag)).toList = ['B', 'Y', 'T', 'E', 'S']) ∨
      (tag = Tag.sint ∧ (plainBody (.user tag)).toList = ['S', 'I', 'N', 'T']) ∨
      (tag = Tag.uint ∧ (plainBody (.user tag)).toList = ['U', 'I', 'N', 'T']) ∨
      (tag = Tag.sequence ∧
        (plainBody (.user tag)).toList = ['S', 'E', 'Q', 'U', 'E', 'N', 'C', 'E']) ∨
      (plainBody (.user tag)).toList =
        ['U', 'S', 'E', 'R', '('] ++ (Nat.toDigits 10 tag.code.toNat ++ [')']) := by
  have htext : plainBody (.user tag) = tag.text := rfl
  rw [htext]
  rcases tag.text_cases with ⟨rfl, h⟩ | ⟨rfl, h⟩ | ⟨rfl, h⟩ | ⟨rfl, h⟩ | h <;> rw [h] <;> simp

/-- A sequence's line tells its length, and whether the sequence was cut. -/
theorem count_inj {n m : Nat} {r s : List Char}
    (h : Nat.toDigits 10 n ++ ']' :: r = Nat.toDigits 10 m ++ ']' :: s) : n = m ∧ r = s := by
  have hdigit : ∀ k : Nat, ∀ c ∈ Nat.toDigits 10 k, c ≠ ']' :=
    Text.forall_mem_toDigits (by decide) (by decide) (by decide)
  have hstop (r : List Char) : ∀ c ∈ (']' :: r).head?, ¬ c ≠ ']' := by simp
  obtain ⟨hdigits, hrest⟩ := Text.front_inj (hdigit n) (hdigit m) (hstop r) (hstop s) h
  exact ⟨Text.toDigits_inj (by decide) (by decide) hdigits, (List.cons.inj hrest).2⟩

/-- No other line is that of an application's value, also where its tag is a built-in one. -/
theorem eq_user_of_body {tag : Tag} (h : (plainBody (.user tag)).toList = (plainBody u).toList) :
    u = .user tag := by
  cases u with
  | user tag' =>
    rcases toList_body_user tag with ⟨ht, hl⟩ | ⟨ht, hl⟩ | ⟨ht, hl⟩ | ⟨ht, hl⟩ | hl <;>
      rcases toList_body_user tag' with ⟨hu, hm⟩ | ⟨hu, hm⟩ | ⟨hu, hm⟩ | ⟨hu, hm⟩ | hm <;>
        rw [hl, hm] at h <;> simp [*] at h ⊢
    exact (Tag.eq_of_digits h).symm
  | _ =>
    rcases toList_body_user tag with ⟨-, hl⟩ | ⟨-, hl⟩ | ⟨-, hl⟩ | ⟨-, hl⟩ | hl <;>
      simp [hl] at h

/-- Lines tell the tokens that they are of. -/
theorem label_of_body (h : (plainBody t).toList = (plainBody u).toList) :
    t.label some = u.label some := by
  cases t with
  | user tag => rw [eq_user_of_body h]
  | bytes data =>
    cases u with
    | user tag => cases eq_user_of_body h.symm
    | bytes data' =>
      rw [toList_body_bytes, toList_body_bytes] at h
      rw [bodyOfBytes_inj (List.append_cancel_left h)]
    | _ => simp at h
  | sint value =>
    cases u with
    | user tag => cases eq_user_of_body h.symm
    | sint value' =>
      rw [toList_body_sint, toList_body_sint] at h
      rw [Int64.toInt_inj.mp (Text.repr_inj (List.append_cancel_left h))]
    | _ => simp at h
  | uint value =>
    cases u with
    | user tag => cases eq_user_of_body h.symm
    | uint value' =>
      rw [toList_body_uint, toList_body_uint] at h
      have hvalue := Text.toDigits_inj (by decide) (by decide) (List.append_cancel_left h)
      rw [UInt64.toNat_inj.mp hvalue]
    | _ => simp at h
  | seq ts =>
    cases u with
    | user tag => cases eq_user_of_body h.symm
    | seq us =>
      rw [toList_body_seq, toList_body_seq] at h
      rw [label, label, (count_inj (List.append_cancel_left h)).1]
    | cut size =>
      rw [toList_body_seq, toList_body_cut] at h
      cases (count_inj (List.append_cancel_left h)).2
    | _ => simp at h
  | cut size =>
    cases u with
    | user tag => cases eq_user_of_body h.symm
    | seq us =>
      rw [toList_body_seq, toList_body_cut] at h
      cases (count_inj (List.append_cancel_left h)).2
    | cut size' =>
      rw [toList_body_cut, toList_body_cut] at h
      rw [(count_inj (List.append_cancel_left h)).1]
    | _ => simp at h

/-- A line ends where its tree's first child or whatever comes behind begins. -/
theorem inLine_body (t : Tree Nat) : ∀ c ∈ (plainBody t).toList, Text.InLine c := by
  have hdigits : ∀ n : Nat, ∀ c ∈ Nat.toDigits 10 n, Text.InLine c :=
    Text.forall_mem_toDigits (by decide) (by decide) Text.inLine_digitChar
  have hword {w : List Char} (hw : w.all fun c => Text.InLine c) : ∀ c ∈ w, Text.InLine c :=
    fun c hc => of_decide_eq_true (List.all_eq_true.mp hw c hc)
  have hframed (n : Nat) {w s : List Char} (hw : w.all fun c => Text.InLine c)
      (hs : s.all fun c => Text.InLine c) : ∀ c ∈ w ++ (Nat.toDigits 10 n ++ s), Text.InLine c :=
    List.forall_mem_append.mpr ⟨hword hw, List.forall_mem_append.mpr ⟨hdigits n, hword hs⟩⟩
  cases t with
  | bytes data =>
    rw [toList_body_bytes]
    exact List.forall_mem_append.mpr ⟨hword rfl, inLine_bodyOfBytes data⟩
  | sint value =>
    have hsign : ∀ c ∈ (if value.toInt < 0 then ['-'] else []), Text.InLine c := by
      split <;> exact hword rfl
    rw [toList_body_sint, Text.toList_repr]
    exact List.forall_mem_append.mpr ⟨hword rfl, List.forall_mem_append.mpr ⟨hsign, hdigits _⟩⟩
  | uint value =>
    rw [toList_body_uint]
    exact List.forall_mem_append.mpr ⟨hword rfl, hdigits _⟩
  | user tag =>
    rcases toList_body_user tag with ⟨-, h⟩ | ⟨-, h⟩ | ⟨-, h⟩ | ⟨-, h⟩ | h <;> rw [h]
    · exact hword rfl
    · exact hword rfl
    · exact hword rfl
    · exact hword rfl
    · exact hframed _ rfl rfl
  | seq ts =>
    rw [toList_body_seq]
    exact hframed _ rfl rfl
  | cut size =>
    rw [toList_body_cut]
    exact hframed _ rfl rfl

end bodies

/-! ## Trees -/

/-- Nothing but another line comes behind. -/
def EndsLine (r : List Char) : Prop := ∀ c ∈ r.head?, ¬ Text.InLine c

section trees

variable {spaces : Nat} {t u : Tree Nat} {ts us : List (Tree Nat)} {r s : List Char}

abbrev plainLetters (spaces depth : Nat) : Tree Nat → List Char :=
  outlineLetters spaces (fun _ => none) depth

abbrev plainMore (spaces depth : Nat) : List (Tree Nat) → List Char :=
  outlineMore spaces (fun _ => none) depth

theorem endsLine_nil : EndsLine [] := nofun

theorem EndsLine.behind (hr : EndsLine r) (depth : Nat) (ts : List (Tree Nat)) :
    EndsLine (plainMore spaces depth ts ++ r) := by
  cases ts with
  | nil => exact hr
  | cons t ts =>
    rintro _ ⟨⟩ hline
    exact hline rfl

/-- The tree can be told from its lines, at whatever depth it stands and whatever lines come
behind. -/
def Legible (spaces : Nat) (t : Tree Nat) : Prop :=
  ∀ {depth : Nat} {u : Tree Nat} {r s : List Char}, EndsLine r → EndsLine s →
    plainLetters spaces depth t ++ r = plainLetters spaces depth u ++ s → t = u ∧ r = s

/-- As many trees side by side can be told one after the other. -/
theorem more_append_inj (hts : ∀ t ∈ ts, Legible spaces t) {depth : Nat} (hr : EndsLine r)
    (hs : EndsLine s) (hlength : ts.length = us.length)
    (h : plainMore spaces depth ts ++ r = plainMore spaces depth us ++ s) : ts = us ∧ r = s := by
  induction ts generalizing us with
  | nil =>
    obtain rfl := List.length_eq_zero_iff.mp hlength.symm
    exact ⟨rfl, h⟩
  | cons t ts ih =>
    obtain ⟨ht, hts⟩ := List.forall_mem_cons.mp hts
    cases us with
    | nil => cases hlength
    | cons u us =>
      have htail : plainLetters spaces depth t ++ (plainMore spaces depth ts ++ r) =
          plainLetters spaces depth u ++ (plainMore spaces depth us ++ s) := by
        simpa [outlineMore] using h
      obtain ⟨rfl, hmore⟩ := ht (hr.behind depth ts) (hs.behind depth us) htail
      obtain ⟨rfl, rfl⟩ := ih hts (Nat.succ.inj hlength) hmore
      exact ⟨rfl, rfl⟩

/-- What two trees with the same line have in common. Only sequences have any children. -/
theorem eq_of_label (hlabel : t.label some = u.label some) (hchildren : t.children = u.children) :
    t = u := by
  cases t <;> cases u <;> simp_all [label, children]

theorem length_children_of_label (hlabel : t.label some = u.label some) :
    t.children.length = u.children.length := by
  cases t <;> cases u <;> simp_all [label, children]

/-- A tree's own line says how many trees to read behind it. -/
theorem Legible.of_children (hchildren : ∀ c ∈ t.children, Legible spaces c) :
    Legible spaces t := by
  intro depth u r s hr hs h
  have hline : (plainBody t).toList ++ (plainMore spaces (depth + 1) t.children ++ r) =
      (plainBody u).toList ++ (plainMore spaces (depth + 1) u.children ++ s) := by
    simpa [outlineLetters_eq] using h
  obtain ⟨hbody, hmore⟩ := Text.front_inj (inLine_body t) (inLine_body u)
    (hr.behind (depth + 1) t.children) (hs.behind (depth + 1) u.children) hline
  have hlabel := label_of_body hbody
  obtain ⟨hsame, rfl⟩ :=
    more_append_inj hchildren hr hs (length_children_of_label hlabel) hmore
  exact ⟨eq_of_label hlabel hsame, rfl⟩

theorem legible (spaces : Nat) (t : Tree Nat) : Legible spaces t := by
  induction t using childrenInduction with
  | seq ts ih => exact Legible.of_children (t := .seq ts) ih
  | leaf t ht =>
    apply Legible.of_children
    cases t with
    | seq ts => exact absurd rfl (ht ts)
    | _ => nofun

/-- No two trees have the same outline. -/
theorem outline_injective (spaces : Nat) :
    Function.Injective fun t : Tree Nat => t.outline spaces fun _ => none := by
  intro t u h
  have hletters : plainLetters spaces 0 t ++ [] = plainLetters spaces 0 u ++ [] := by
    simpa only [toList_outline] using congrArg (fun s => s.toList ++ []) h
  exact (t.legible spaces endsLine_nil endsLine_nil hletters).1

end trees

end Tree

end TokenStore
