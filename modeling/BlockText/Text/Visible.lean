import BlockText.Text.Category

/-!
# Text made visible

Trees, messages and settings show a text between double quotes with everything that could not be
seen spelled out.
-/

namespace BlockText.Text

/-- The hexadecimal digits of a number, small letters, no leading zeros. -/
def hexDigits (n : Nat) : List Char := Nat.toDigits 16 n

/-- One character as it is shown: the usual short escapes, `\u{…}` for what has no visible form, and
the character itself otherwise. -/
def visibleChar (c : Char) : List Char :=
  if c = Char.ofNat 0 then ['\\', '0']
  else if c = '\t' then ['\\', 't']
  else if c = '\r' then ['\\', 'r']
  else if c = '\n' then ['\\', 'n']
  else if c = '"' then ['\\', '"']
  else if c = '\\' then ['\\', '\\']
  else if isHidden c then ['\\', 'u', '{'] ++ hexDigits c.toNat ++ ['}']
  else [c]

/-- A text as it is shown, between double quotes. -/
def visible (cs : List Char) : List Char := '"' :: cs.flatMap visibleChar ++ ['"']

end BlockText.Text
