import BlockText.Text.Category

/-!
# String literals

A literal stands between double quotes. Writing escapes the quote, the backslash and every control
character; reading also takes escapes by code point that writing never produces.
-/

namespace BlockText.Quoted

/-- A digit of a hexadecimal number below sixteen. -/
def hexDigit (n : Nat) : Char := Nat.digitChar n

/-- How a character is written inside a literal. -/
def escape (c : Char) : List Char :=
  if c = '"' then ['\\', '"']
  else if c = '\\' then ['\\', '\\']
  else if c = '\n' then ['\\', 'n']
  else if c = '\t' then ['\\', 't']
  else if c = '\r' then ['\\', 'r']
  else if Text.isControl c then ['\\', 'x', hexDigit (c.toNat / 16), hexDigit (c.toNat % 16)]
  else [c]

/-- The literal of a text. -/
def encode (cs : List Char) : List Char := '"' :: cs.flatMap escape ++ ['"']

/-- The value of a hexadecimal digit of either case. -/
def hexValue? (c : Char) : Option Nat :=
  if '0' ≤ c ∧ c ≤ '9' then some (c.toNat - 48)
  else if 'a' ≤ c ∧ c ≤ 'f' then some (c.toNat - 87)
  else if 'A' ≤ c ∧ c ≤ 'F' then some (c.toNat - 55)
  else none

/-- The number spelled by hexadecimal digits. -/
def hexNumber? (cs : List Char) : Option Nat :=
  cs.foldlM (fun n c => (hexValue? c).map (16 * n + ·)) 0

/-- The character with a code point, if there is one. -/
def charOf? (n : Nat) : Option Char := if n.isValidChar then some (Char.ofNat n) else none

/-- The character given by its code point in hexadecimal. -/
def hexChar? (cs : List Char) : Option Char := hexNumber? cs >>= charOf?

/-- The text of what stands between the quotes of a literal. -/
def decodeBody : List Char → Option (List Char)
  | [] => some []
  | '\\' :: 'x' :: a :: b :: cs => do
    let c ← hexChar? [a, b]
    return c :: (← decodeBody cs)
  | '\\' :: 'u' :: a :: b :: c :: d :: cs => do
    let c ← hexChar? [a, b, c, d]
    return c :: (← decodeBody cs)
  | '\\' :: c :: cs =>
    if c = '"' then ('"' :: ·) <$> decodeBody cs
    else if c = '\\' then ('\\' :: ·) <$> decodeBody cs
    else if c = 'n' then ('\n' :: ·) <$> decodeBody cs
    else if c = 't' then ('\t' :: ·) <$> decodeBody cs
    else if c = 'r' then ('\r' :: ·) <$> decodeBody cs
    else none
  | c :: cs => if c = '"' ∨ c = '\\' then none else (c :: ·) <$> decodeBody cs

/-- A text without its last character, if that is a quote. -/
def dropQuote? : List Char → Option (List Char)
  | [] => none
  | ['"'] => some []
  | c :: cs => (c :: ·) <$> dropQuote? cs

/-- The text of a literal, if the characters are one. -/
def decode : List Char → Option (List Char)
  | '"' :: cs => dropQuote? cs >>= decodeBody
  | _ => none

/-- What follows the opening quote of a literal up to and with its closing quote, and the rest. An
escaped newline ends the search. -/
def spanBody : List Char → Option (List Char × List Char)
  | [] => none
  | '\\' :: c :: cs =>
    if c = '\n' then none else (spanBody cs).map fun r => ('\\' :: c :: r.1, r.2)
  | c :: cs =>
    if c = '"' then some (['"'], cs)
    else if c = '\\' then none
    else (spanBody cs).map fun r => (c :: r.1, r.2)

/-- A literal at the front of a text, and the rest. -/
def span : List Char → Option (List Char × List Char)
  | '"' :: cs => (spanBody cs).map fun r => ('"' :: r.1, r.2)
  | _ => none

end BlockText.Quoted
