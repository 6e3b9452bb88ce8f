import TokenStore.Text.Unprintable

/-!
# Strings in messages

A string in double quotes in which every character can be seen: quotes, backslashes and the common
controls are escaped by a letter, other characters without a shape by their code.
-/

namespace TokenStore.Text

/-- A character as it stands in a message. -/
def visibleChar (c : Char) : List Char :=
  if c = '"' then ['\\', '"']
  else if c = '\\' then ['\\', '\\']
  else if c = '\x00' then ['\\', '0']
  else if c = '\t' then ['\\', 't']
  else if c = '\n' then ['\\', 'n']
  else if c = '\x0d' then ['\\', 'r']
  else if isVisible c then [c]
  else ['\\', 'u', '\x7b'] ++ Nat.toDigits 16 c.toNat ++ ['\x7d']

def visible (s : String) : String :=
  String.ofList ('"' :: s.toList.flatMap visibleChar ++ ['"'])

end TokenStore.Text
