import BlockText.Json.Basic
import BlockText.Text.Blank
import BlockText.Text.Visible

/-!
# Printing JSON

A value is printed with each item and each member on a line of its own, indented by two spaces for
each level. An empty list or object stays on its line.
-/

namespace BlockText.Json

/-- A character inside a string. -/
def escape (c : Char) : List Char :=
  match c with
  | '"' => "\\\"".toList
  | '\\' => "\\\\".toList
  | '\x08' => "\\b".toList
  | '\x0c' => "\\f".toList
  | '\n' => "\\n".toList
  | '\r' => "\\r".toList
  | '\t' => "\\t".toList
  | c =>
    if c.toNat < 32 then
      "\\u00".toList ++ (if c.toNat < 16 then ['0'] else []) ++ Text.hexDigits c.toNat
    else [c]

/-- A string with its quotes. -/
def quote (s : String) : List Char := '"' :: s.toList.flatMap escape ++ ['"']

/-- A new line at a level. -/
def newline (level : Nat) : List Char := '\n' :: List.replicate (2 * level) ' '

/-- Pieces between brackets, each on a line of its own. -/
def bracket (opening closing : Char) (level : Nat) (pieces : List (List Char)) : List Char :=
  if pieces.isEmpty then [opening, closing]
  else
    opening :: newline (level + 1) ++ Text.join (',' :: newline (level + 1)) pieces
      ++ newline level ++ [closing]

mutual

/-- A value that starts on a line of a level. -/
def print (level : Nat) : Json → List Char
  | null => "null".toList
  | bool b => if b then "true".toList else "false".toList
  | number literal => literal
  | string s => quote (s.getD "")
  | list items => bracket '[' ']' level (printItems (level + 1) items)
  | object members => bracket '\x7b' '\x7d' level (printMembers (level + 1) members)

/-- The items of a list, one by one. -/
def printItems (level : Nat) : List Json → List (List Char)
  | [] => []
  | item :: items => print level item :: printItems level items

/-- The members of an object, one by one. -/
def printMembers (level : Nat) : List (Option String × Json) → List (List Char)
  | [] => []
  | (key, value) :: members =>
    (quote (key.getD "") ++ ": ".toList ++ print level value) :: printMembers level members

end

end BlockText.Json
