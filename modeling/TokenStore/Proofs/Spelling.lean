import TokenStore.Json.Numeral
import TokenStore.Json.Quoted
import TokenStore.Json.Writer
import TokenStore.Proofs.Legibility

/-!
# Strings and integers as they are spelled

A string or an integer that was written is read as what it was, and the reader stops right behind
it. A string ends at the first quote that is not escaped, an integer at the first letter that
cannot be in a number.

## Main definitions

* `Json.EndsValue`: what may come behind a value of a document.
-/

namespace TokenStore

/-- Nothing comes behind a value, or the comma or bracket of what it stands in. -/
def Json.EndsValue (rest : List Char) : Prop := ∀ c ∈ rest.head?, c = ',' ∨ c = ']' ∨ c = '\x7d'

/-! ## Strings -/

namespace Quoted

theorem hexDigit?_digitChar : ∀ d < 16, hexDigit? d.digitChar = some d := by decide

/-- The escape of a control character by its code. -/
theorem readUnicode?_controlDigits {c : Char} (hc : c.toNat < 0x20) (rest : List Char) :
    readUnicode? ('0' :: '0' :: (Json.controlDigits c ++ rest)) = some (c, rest) := by
  have hzero : hexDigit? '0' = some 0 := by decide
  have hhigh := hexDigit?_digitChar (c.toNat / 16) (by omega)
  have hlow := hexDigit?_digitChar (c.toNat % 16) (by omega)
  have hcode : readCode? ('0' :: '0' :: (Json.controlDigits c ++ rest)) = some (c.toNat, rest) := by
    have hvalue : c.toNat / 16 * 16 + c.toNat % 16 = c.toNat := by omega
    simp [readCode?, Json.controlDigits, hzero, hhigh, hlow, hvalue]
  have hleading : isLeading c.toNat = false := by
    simp only [isLeading, Bool.and_eq_false_iff, decide_eq_false_iff_not]
    omega
  have htrailing : isTrailing c.toNat = false := by
    simp only [isTrailing, Bool.and_eq_false_iff, decide_eq_false_iff_not]
    omega
  simp [readUnicode?, hcode, hleading, htrailing, Char.ofNat_toNat]

theorem read?_backslash {out : String} {rest tail : List Char} {c : Char}
    (hc : readEscape? rest = some (c, tail)) :
    read? out ('\\' :: rest) = read? (out.push c) tail := by
  rw [read?, if_neg (by decide), if_pos rfl]
  split
  next e tail' he =>
    cases he.symm.trans hc
    rfl
  next he => cases he.symm.trans hc

/-- A character is read as itself, escaped or not. -/
theorem read?_escape (out : String) (c : Char) (rest : List Char) :
    read? out (Json.escape c ++ rest) = read? (out.push c) rest := by
  by_cases hquote : c = '"'
  · subst hquote
    exact read?_backslash rfl
  by_cases hbackslash : c = '\\'
  · subst hbackslash
    exact read?_backslash rfl
  by_cases hplain : 0x20 ≤ c.toNat
  · have hcontrol : ¬ c.toNat < 0x20 := Nat.not_lt.mpr hplain
    simp [Json.escape, hquote, hbackslash, hplain, read?, hcontrol]
  by_cases hshort : c ∈ ['\x08', '\t', '\n', '\x0c', '\r']
  · simp only [List.mem_cons, List.not_mem_nil, or_false] at hshort
    rcases hshort with rfl | rfl | rfl | rfl | rfl <;> exact read?_backslash rfl
  · have hcode : Json.escape c = '\\' :: 'u' :: '0' :: '0' :: Json.controlDigits c := by
      simp_all [Json.escape]
    rw [hcode]
    exact read?_backslash (readUnicode?_controlDigits (Nat.not_le.mp hplain) rest)

/-- A string is read to its closing quote. -/
theorem read?_flatMap_escape (out : String) (cs rest : List Char) :
    read? out (cs.flatMap Json.escape ++ '"' :: rest) = some (out ++ String.ofList cs, rest) := by
  induction cs generalizing out with
  | nil => simp [read?]
  | cons c cs ih =>
    have hout : out.push c ++ String.ofList cs = out ++ String.ofList (c :: cs) := by
      rw [← String.toList_inj]
      simp
    rw [List.flatMap_cons, List.append_assoc, read?_escape, ih, hout]

end Quoted

/-! ## Integers -/

namespace Numeral

open Json (EndsValue)

variable {rest : List Char}

theorem isDigit_of_mem_toDigits (n : Nat) : ∀ c ∈ Nat.toDigits 10 n, c.isDigit = true :=
  fun _ hc => Nat.isDigit_of_mem_toDigits (by decide) (by decide) hc

theorem exists_cons_toDigits (n : Nat) :
    ∃ d ds, Nat.toDigits 10 n = d :: ds ∧ d.isDigit = true := by
  obtain ⟨d, ds, hds⟩ := List.exists_cons_of_ne_nil (Nat.toDigits_ne_nil (n := n) (b := 10))
  exact ⟨d, ds, hds, isDigit_of_mem_toDigits n d (hds ▸ List.mem_cons_self)⟩

/-- Only zero is spelled with a zero in front. -/
theorem eq_zero_of_head {n : Nat} (hn : (Nat.toDigits 10 n).head? = some '0') : n = 0 := by
  induction n using Nat.strongRecOn with
  | ind n ih =>
    by_cases hlt : n < 10
    · rw [Nat.toDigits_of_lt_base hlt, List.head?_cons, Option.some.injEq] at hn
      exact Text.digitChar_inj n (by omega) 0 (by omega) hn
    · have hdigits := Nat.toDigits_of_base_le (by decide) (Nat.not_lt.mp hlt)
      rw [hdigits, List.head?_append_of_ne_nil _ Nat.toDigits_ne_nil] at hn
      have := ih (n / 10) (by omega) hn
      omega

theorem isDigit_head (hrest : EndsValue rest) : ∀ c ∈ rest.head?, c.isDigit = false := by
  intro c hc
  rcases hrest c hc with rfl | rfl | rfl <;> rfl

/-- The digits of a number are read up to where they end. -/
theorem readDigits?_toDigits (n : Nat) (hrest : EndsValue rest) :
    readDigits? (Nat.toDigits 10 n ++ rest) = some (Nat.toDigits 10 n, rest) := by
  have hstop : rest.takeWhile Char.isDigit = [] ∧ rest.dropWhile Char.isDigit = rest := by
    cases rest with
    | nil => exact ⟨rfl, rfl⟩
    | cons c rest =>
      have hc : c.isDigit = false := isDigit_head hrest c rfl
      simp [hc]
  have hall := isDigit_of_mem_toDigits n
  rw [readDigits?, List.takeWhile_append_of_pos hall, List.dropWhile_append_of_pos hall, hstop.1,
    hstop.2, List.append_nil, if_neg (by simp)]

theorem readWhole?_toDigits (n : Nat) (hrest : EndsValue rest) :
    readWhole? (Nat.toDigits 10 n ++ rest) = some (Nat.toDigits 10 n, rest) := by
  by_cases hzero : n = 0
  · subst hzero
    rfl
  · have hhead : ∀ tail, Nat.toDigits 10 n ++ rest ≠ '0' :: tail := by
      intro tail htail
      refine hzero (eq_zero_of_head ?_)
      rw [← List.head?_append_of_ne_nil _ Nat.toDigits_ne_nil, htail, List.head?_cons]
    rw [readWhole?, readDigits?_toDigits n hrest]
    exact hhead

theorem readMinus_spelled (n : Int) (rest : List Char) :
    readMinus (n.repr.toList ++ rest) =
      (decide (n < 0), Nat.toDigits 10 n.natAbs ++ rest) := by
  rw [Text.toList_repr]
  by_cases hn : n < 0
  · simp [hn, readMinus]
  · have hhead : ∀ tail, Nat.toDigits 10 n.natAbs ++ rest ≠ '-' :: tail := by
      intro tail htail
      obtain ⟨d, ds, hds, hd⟩ := exists_cons_toDigits n.natAbs
      rw [hds] at htail
      cases htail
      cases hd
    simp only [hn, if_false, List.nil_append, decide_false]
    rw [readMinus]
    exact hhead

/-- An integer is read to where its digits end. -/
theorem read?_spelled (n : Int) (hrest : EndsValue rest) :
    read? (n.repr.toList ++ rest) =
      some ({ negative := decide (n < 0), whole := Nat.toDigits 10 n.natAbs }, rest) := by
  have hfraction : readFraction? rest = some ([], rest) := by
    rw [readFraction?]
    rintro tail rfl
    rcases hrest '.' rfl with h | h | h <;> cases h
  have hexponent : readExponent? rest = some (none, rest) := by
    cases rest with
    | nil => rfl
    | cons c rest =>
      have hc : ¬ (c = 'e' ∨ c = 'E') := by rcases hrest c rfl with rfl | rfl | rfl <;> decide
      rw [readExponent?, if_neg hc]
  simp [read?, readMinus_spelled, readWhole?_toDigits _ hrest, hfraction, hexponent]

/-- An integer of a document is the number that it is spelled as. -/
theorem number?_spelled (n : WideInt) :
    number? { negative := decide (n.val < 0), whole := Nat.toDigits 10 n.val.natAbs } =
      some (.int n) := by
  have hwide : wideInt? { negative := decide (n.val < 0), whole := Nat.toDigits 10 n.val.natAbs } =
      some n := by
    have hlower := n.lower
    have hupper := n.upper
    have hvalue : (if n.val < 0 then -(n.val.natAbs : Int) else n.val.natAbs) = n.val := by
      split <;> omega
    have hzero : ¬ (n.val < 0 ∧ (n.val.natAbs : Int) = 0) := by omega
    have hcond : (!(decide (n.val < 0) && decide ((n.val.natAbs : Int) = 0))) = true := by
      simpa [Decidable.imp_iff_not_or] using hzero
    simp only [wideInt?, Nat.ofDigitChars_ten_toDigits, hcond, decide_eq_true_eq, hvalue]
    exact dif_pos ⟨hlower, hupper⟩
  rw [number?, hwide]

end Numeral

end TokenStore
