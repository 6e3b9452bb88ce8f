import TokenStore.Json.Basic
import TokenStore.Json.Numeral
import TokenStore.Json.Quoted

/-!
# Reading JSON

A reader for the whole grammar of JSON and nothing beyond it. What still has to be finished around
the value at hand is kept on a stack, so that values may be nested to any depth.

## Main definitions

* `Frame`: an array or an object that is not finished yet.
* `Json.readFrom?`: reads on from any point of a document.
* `Json.read?`: a whole document.
-/

namespace TokenStore

/-- An array or an object that is not finished yet. -/
inductive Frame where
  /-- The items so far, the last in front. -/
  | items (done : List Json)
  /-- The members so far, and the key of the value to come. -/
  | members (done : List (String × Json)) (key : String)

namespace Json

def isBlank (c : Char) : Bool := c = ' ' || c = '\t' || c = '\n' || c = '\x0d'

def skipBlanks (cs : List Char) : List Char := cs.dropWhile isBlank

/-- The key of a member, with the colon behind it. -/
def readKey? (cs : List Char) : Option (String × List Char) :=
  match skipBlanks cs with
  | '"' :: rest =>
    match Quoted.read? "" rest with
    | some (key, rest) =>
      match skipBlanks rest with
      | ':' :: rest => some (key, rest)
      | _ => none
    | none => none
  | _ => none

/-- A value that is no array or object, from a text that does not start with a blank. -/
def readScalar? : List Char → Option (Json × List Char)
  | '"' :: rest => (Quoted.read? "" rest).map fun r => (str r.1, r.2)
  | 't' :: 'r' :: 'u' :: 'e' :: rest => some (bool true, rest)
  | 'f' :: 'a' :: 'l' :: 's' :: 'e' :: rest => some (bool false, rest)
  | 'n' :: 'u' :: 'l' :: 'l' :: rest => some (null, rest)
  | cs => do
    let (numeral, rest) ← Numeral.read? cs
    return (num (← numeral.number?), rest)

/-- What is to be read next: a value, or, when one is complete, what follows it. -/
inductive Reading where
  | value
  | after (v : Json)

/-- One step of reading: what was read last, the stack, and the rest of the text. -/
inductive Progress where
  | more (state : Reading) (stack : List Frame) (rest : List Char)
  | done (v : Json)
  | refused

/-- Reads the start of a value. An array or an object that is not empty goes on the stack. -/
def startValue (stack : List Frame) (cs : List Char) : Progress :=
  match skipBlanks cs with
  | '[' :: rest =>
    match skipBlanks rest with
    | ']' :: tail => .more (.after (arr [])) stack tail
    | _ => .more .value (.items [] :: stack) rest
  | '\x7b' :: rest =>
    match skipBlanks rest with
    | '\x7d' :: tail => .more (.after (obj [])) stack tail
    | _ =>
      match readKey? rest with
      | some (key, tail) => .more .value (.members [] key :: stack) tail
      | none => .refused
  | cs =>
    match readScalar? cs with
    | some (v, tail) => .more (.after v) stack tail
    | none => .refused

/-- Reads what follows a complete value. -/
def afterValue (v : Json) (stack : List Frame) (cs : List Char) : Progress :=
  match stack with
  | [] => if (skipBlanks cs).isEmpty then .done v else .refused
  | .items done :: stack =>
    match skipBlanks cs with
    | ',' :: rest => .more .value (.items (v :: done) :: stack) rest
    | ']' :: rest => .more (.after (arr (v :: done).reverse)) stack rest
    | _ => .refused
  | .members done key :: stack =>
    match skipBlanks cs with
    | ',' :: rest =>
      match readKey? rest with
      | some (next, rest) => .more .value (.members (setMember key v done) next :: stack) rest
      | none => .refused
    | '\x7d' :: rest => .more (.after (obj (setMember key v done))) stack rest
    | _ => .refused

def step (state : Reading) (stack : List Frame) (cs : List Char) : Progress :=
  match state with
  | .value => startValue stack cs
  | .after v => afterValue v stack cs

theorem length_skipBlanks (cs : List Char) : (skipBlanks cs).length ≤ cs.length :=
  (List.dropWhile_sublist _).length_le

theorem length_of_skipBlanks {cs rest : List Char} {c : Char} (h : skipBlanks cs = c :: rest) :
    rest.length < cs.length := by
  have hle := length_skipBlanks cs
  rwa [h, List.length_cons] at hle

theorem length_of_readKey? {cs rest : List Char} {key : String}
    (h : readKey? cs = some (key, rest)) : rest.length < cs.length := by
  unfold readKey? at h
  split at h
  next inside hquote =>
    split at h
    next _ behind hread =>
      split at h
      next tail hcolon =>
        cases h
        have hinside := length_of_skipBlanks hquote
        have hbehind := Quoted.length_of_read? hread
        have htail := length_of_skipBlanks hcolon
        omega
      next => cases h
    next => cases h
  next => cases h

theorem length_of_readScalar? {cs rest : List Char} {v : Json}
    (h : readScalar? cs = some (v, rest)) : rest.length < cs.length := by
  unfold readScalar? at h
  split at h
  next inside =>
    obtain ⟨r, hread, hr⟩ := Option.map_eq_some_iff.mp h
    cases hr
    exact Nat.lt_succ_of_lt (Quoted.length_of_read? hread)
  next =>
    cases h
    simp only [List.length_cons]
    omega
  next =>
    cases h
    simp only [List.length_cons]
    omega
  next =>
    cases h
    simp only [List.length_cons]
    omega
  next =>
    obtain ⟨⟨numeral, tail⟩, hread, hnumber⟩ := Option.bind_eq_some_iff.mp h
    obtain ⟨n, -, hr⟩ := Option.bind_eq_some_iff.mp hnumber
    cases hr
    exact Numeral.length_of_read? hread

/-- Of what is still to be read there is less than `n` characters. -/
def Progress.Below (n : Nat) : Progress → Prop
  | more _ _ rest => rest.length < n
  | _ => True

theorem startValue_below (stack : List Frame) (cs : List Char) :
    (startValue stack cs).Below cs.length := by
  unfold startValue
  split
  next items hs =>
    have hitems := length_of_skipBlanks hs
    split
    next tail hend => exact Nat.lt_trans (length_of_skipBlanks hend) hitems
    next => exact hitems
  next members hs =>
    have hmembers := length_of_skipBlanks hs
    split
    next tail hend => exact Nat.lt_trans (length_of_skipBlanks hend) hmembers
    next =>
      split
      next key tail hkey => exact Nat.lt_trans (length_of_readKey? hkey) hmembers
      next => trivial
  next =>
    split
    next v tail hv => exact Nat.lt_of_lt_of_le (length_of_readScalar? hv) (length_skipBlanks cs)
    next => trivial

theorem afterValue_below (v : Json) (stack : List Frame) (cs : List Char) :
    (afterValue v stack cs).Below cs.length := by
  unfold afterValue
  split
  next => split <;> trivial
  next =>
    split
    next rest hcomma => exact length_of_skipBlanks hcomma
    next rest hend => exact length_of_skipBlanks hend
    next => trivial
  next =>
    split
    next rest hcomma =>
      split
      next key tail hkey =>
        exact Nat.lt_trans (length_of_readKey? hkey) (length_of_skipBlanks hcomma)
      next => trivial
    next rest hend => exact length_of_skipBlanks hend
    next => trivial

/-- Every step takes something from the text. -/
theorem length_of_step {state state' : Reading} {stack stack' : List Frame} {cs rest : List Char}
    (h : step state stack cs = .more state' stack' rest) : rest.length < cs.length := by
  have hbelow : (step state stack cs).Below cs.length := by
    cases state with
    | value => exact startValue_below stack cs
    | after v => exact afterValue_below v stack cs
  rwa [h] at hbelow

/-- Reads on to the end of the text. -/
def readFrom? (state : Reading) (stack : List Frame) (cs : List Char) : Option Json :=
  match _h : step state stack cs with
  | .more state stack rest => readFrom? state stack rest
  | .done v => some v
  | .refused => none
termination_by cs.length
decreasing_by exact length_of_step _h

/-- The value of a document; none if the text is not one document of JSON. -/
def read? (s : String) : Option Json := readFrom? .value [] s.toList

end Json

end TokenStore
