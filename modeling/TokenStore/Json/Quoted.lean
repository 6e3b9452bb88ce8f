/-!
# Strings of JSON documents

Reading a string, from behind its opening quote to its closing one. Characters beyond the basic
plane may be written as a pair of surrogates; a surrogate without its partner is refused, and so is
a control character that stands for itself.

## Main definitions

* `Quoted.readEscape?`: what follows a backslash.
* `Quoted.read?`: the rest of a string.
-/

namespace TokenStore.Quoted

def hexDigit? (c : Char) : Option Nat :=
  if c.isDigit then some (c.toNat - '0'.toNat)
  else if 'a' ≤ c ∧ c ≤ 'f' then some (c.toNat - 'a'.toNat + 10)
  else if 'A' ≤ c ∧ c ≤ 'F' then some (c.toNat - 'A'.toNat + 10)
  else none

/-- A code of four hexadecimal digits. -/
def readCode? : List Char → Option (Nat × List Char)
  | a :: b :: c :: d :: rest => do
    let a ← hexDigit? a
    let b ← hexDigit? b
    let c ← hexDigit? c
    let d ← hexDigit? d
    return (((a * 16 + b) * 16 + c) * 16 + d, rest)
  | _ => none

/-- Whether a code is the first half of a pair. -/
def isLeading (code : Nat) : Bool := 0xd800 ≤ code && code < 0xdc00

/-- Whether a code is the second half of a pair. -/
def isTrailing (code : Nat) : Bool := 0xdc00 ≤ code && code < 0xe000

/-- The second half of a pair, with its own backslash. -/
def readTrailing? : List Char → Option (Nat × List Char)
  | '\\' :: 'u' :: rest => do
    let (code, rest) ← readCode? rest
    if isTrailing code then return (code, rest) else none
  | _ => none

/-- A character given by its code, or by the two codes of a pair. -/
def readUnicode? (cs : List Char) : Option (Char × List Char) := do
  let (code, rest) ← readCode? cs
  if isLeading code then
    let (second, rest) ← readTrailing? rest
    return (Char.ofNat (0x10000 + (code - 0xd800) * 0x400 + (second - 0xdc00)), rest)
  else if isTrailing code then
    none
  else
    return (Char.ofNat code, rest)

/-- What a single letter or mark stands for behind a backslash. -/
def shorthand? (c : Char) : Option Char :=
  if c = '"' ∨ c = '\\' ∨ c = '/' then some c
  else if c = 'b' then some '\x08'
  else if c = 'f' then some '\x0c'
  else if c = 'n' then some '\n'
  else if c = 'r' then some '\x0d'
  else if c = 't' then some '\t'
  else none

/-- The character that an escape stands for. -/
def readEscape? : List Char → Option (Char × List Char)
  | [] => none
  | c :: rest => if c = 'u' then readUnicode? rest else (shorthand? c).map (·, rest)

theorem length_of_readCode? {cs rest : List Char} {code : Nat}
    (h : readCode? cs = some (code, rest)) : rest.length < cs.length := by
  unfold readCode? at h
  split at h
  next =>
    obtain ⟨a, -, h⟩ := Option.bind_eq_some_iff.mp h
    obtain ⟨b, -, h⟩ := Option.bind_eq_some_iff.mp h
    obtain ⟨c, -, h⟩ := Option.bind_eq_some_iff.mp h
    obtain ⟨d, -, h⟩ := Option.bind_eq_some_iff.mp h
    cases h
    simp only [List.length_cons]
    omega
  next => cases h

theorem length_of_readTrailing? {cs rest : List Char} {code : Nat}
    (h : readTrailing? cs = some (code, rest)) : rest.length < cs.length := by
  unfold readTrailing? at h
  split at h
  next =>
    obtain ⟨⟨second, tail⟩, hcode, h⟩ := Option.bind_eq_some_iff.mp h
    have htail := length_of_readCode? hcode
    dsimp only at h
    split at h
    next =>
      cases h
      exact Nat.lt_succ_of_lt (Nat.lt_succ_of_lt htail)
    next => cases h
  next => cases h

theorem length_of_readUnicode? {cs rest : List Char} {c : Char}
    (h : readUnicode? cs = some (c, rest)) : rest.length < cs.length := by
  obtain ⟨⟨code, tail⟩, hcode, h⟩ := Option.bind_eq_some_iff.mp h
  have htail := length_of_readCode? hcode
  dsimp only at h
  split at h
  next =>
    obtain ⟨⟨second, behind⟩, hsecond, h⟩ := Option.bind_eq_some_iff.mp h
    obtain ⟨-, rfl⟩ := Prod.mk.inj (Option.some.inj h)
    exact Nat.lt_trans (length_of_readTrailing? hsecond) htail
  next =>
    split at h
    next => cases h
    next =>
      cases h
      exact htail

theorem length_of_readEscape? {cs rest : List Char} {c : Char}
    (h : readEscape? cs = some (c, rest)) : rest.length < cs.length := by
  unfold readEscape? at h
  split at h
  next => cases h
  next =>
    split at h
    next => exact Nat.lt_succ_of_lt (length_of_readUnicode? h)
    next =>
      obtain ⟨e, -, he⟩ := Option.map_eq_some_iff.mp h
      cases he
      exact Nat.lt_succ_self _

/-- The rest of a string, behind what was read of it. -/
def read? (out : String) : List Char → Option (String × List Char)
  | [] => none
  | c :: rest =>
    if c = '"' then some (out, rest)
    else if c = '\\' then
      match _h : readEscape? rest with
      | some (e, tail) => read? (out.push e) tail
      | none => none
    else if c.toNat < 0x20 then none
    else read? (out.push c) rest
termination_by cs => cs.length
decreasing_by
  · exact Nat.lt_succ_of_lt (length_of_readEscape? _h)
  · exact Nat.lt_succ_self _

theorem length_of_read? {out s : String} {cs rest : List Char}
    (h : read? out cs = some (s, rest)) : rest.length < cs.length := by
  fun_induction read? out cs with
  | case1 => cases h
  | case2 =>
    cases h
    exact Nat.lt_succ_self _
  | case3 _ _ _ _ he _ ih =>
    exact Nat.lt_succ_of_lt (Nat.lt_trans (ih h) (length_of_readEscape? he))
  | case4 => cases h
  | case5 => cases h
  | case6 _ _ _ _ _ _ ih => exact Nat.lt_succ_of_lt (ih h)

end TokenStore.Quoted
