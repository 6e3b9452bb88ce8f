import TokenStore.Json.Basic

/-!
# Writing JSON

The compact text of a document: no blanks, and in strings nothing escaped that may stand for
itself.
-/

namespace TokenStore

namespace Json

/-- The two digits of a control character. -/
def controlDigits (c : Char) : List Char :=
  [(c.toNat / 16).digitChar, (c.toNat % 16).digitChar]

/-- A character as it stands in a string. -/
def escape (c : Char) : List Char :=
  if c = '"' then ['\\', '"']
  else if c = '\\' then ['\\', '\\']
  else if 0x20 ≤ c.toNat then [c]
  else if c = '\x08' then ['\\', 'b']
  else if c = '\t' then ['\\', 't']
  else if c = '\n' then ['\\', 'n']
  else if c = '\x0c' then ['\\', 'f']
  else if c = '\r' then ['\\', 'r']
  else ['\\', 'u', '0', '0'] ++ controlDigits c

/-- A string in quotes. -/
def quoted (s : String) : String :=
  String.ofList ('"' :: s.toList.flatMap escape ++ ['"'])

mutual

/-- Writes a document behind `out`. -/
def write (out : String) : Json → String
  | .null => out ++ "null"
  | .bool value => out ++ (if value then "true" else "false")
  | .num value => out ++ value.text
  | .str value => out ++ quoted value
  | .arr [] => out ++ "[]"
  | .arr (v :: vs) => (writeItems (write (out.push '[') v) vs).push ']'
  | .obj [] => out ++ "\x7b\x7d"
  | .obj ((key, v) :: ms) =>
    (writeMembers (write (out.push '\x7b' ++ quoted key |>.push ':') v) ms).push '\x7d'

/-- Writes further items of an array, each after a comma. -/
def writeItems (out : String) : List Json → String
  | [] => out
  | v :: vs => writeItems (write (out.push ',') v) vs

/-- Writes further members of an object, each after a comma. -/
def writeMembers (out : String) : List (String × Json) → String
  | [] => out
  | (key, v) :: ms => writeMembers (write (out.push ',' ++ quoted key |>.push ':') v) ms

end

/-- The compact text of a document. -/
def compact (v : Json) : String := write "" v

end Json

end TokenStore
