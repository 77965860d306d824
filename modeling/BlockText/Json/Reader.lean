import BlockText.Json.Basic
import BlockText.Json.Numeral

/-!
# Reading JSON

Each reader takes its value from the front of a text and gives back the rest. A whole text is one
value with blanks around it.
-/

namespace BlockText.Json

/-- The blanks of JSON. -/
def isSpace (c : Char) : Bool := c = ' ' || c = '\n' || c = '\t' || c = '\r'

/-- The text after its leading blanks. -/
def skip (cs : List Char) : List Char := cs.dropWhile isSpace

/-- The value of a hexadecimal digit. -/
def hexDigit? (c : Char) : Option Nat :=
  if c.isDigit then some (c.toNat - 48)
  else if 'a' ≤ c ∧ c ≤ 'f' then some (c.toNat - 87)
  else if 'A' ≤ c ∧ c ≤ 'F' then some (c.toNat - 55)
  else none

/-- Four hexadecimal digits at the front of a text. -/
def unit? : List Char → Option (Nat × List Char)
  | a :: b :: c :: d :: rest => do
    let a ← hexDigit? a
    let b ← hexDigit? b
    let c ← hexDigit? c
    let d ← hexDigit? d
    return (((a * 16 + b) * 16 + c) * 16 + d, rest)
  | _ => none

/-- A piece of a string: a character, or one half of a pair. -/
inductive Piece where
  | char (c : Char)
  | half (unit : Nat)

/-- The piece for a unit of sixteen bits. -/
def Piece.ofUnit (u : Nat) : Piece :=
  if 0xD800 ≤ u ∧ u < 0xE000 then .half u else .char (Char.ofNat u)

/-- The character that is escaped by a letter. -/
def escape? : Char → Option Char
  | '"' => some '"'
  | '\\' => some '\\'
  | '/' => some '/'
  | 'b' => some '\x08'
  | 'f' => some '\x0c'
  | 'n' => some '\n'
  | 'r' => some '\r'
  | 't' => some '\t'
  | _ => none

/-- The pieces of a string up to its closing quote, at most `bound` of them, and the rest. -/
def pieces : Nat → List Char → Option (List Piece × List Char)
  | 0, _ => none
  | _ + 1, [] => none
  | bound + 1, c :: cs =>
    if c = '"' then some ([], cs)
    else if c.toNat < 32 then none
    else
      let first : Option (Piece × List Char) :=
        if c ≠ '\\' then some (.char c, cs)
        else
          match cs with
          | 'u' :: cs => (unit? cs).map fun (u, rest) => (Piece.ofUnit u, rest)
          | e :: cs => (escape? e).map fun c => (Piece.char c, cs)
          | [] => none
      match first with
      | none => none
      | some (piece, rest) => (pieces bound rest).map fun (ps, rest) => (piece :: ps, rest)

/-- The characters of some pieces: two halves that follow one another are one character, and a half
alone is none. -/
def joinPieces : List Piece → Option (List Char)
  | [] => some []
  | .char c :: ps => (joinPieces ps).map (c :: ·)
  | .half high :: .half low :: ps =>
    if high < 0xDC00 ∧ 0xDC00 ≤ low then
      (joinPieces ps).map (Char.ofNat (0x10000 + (high - 0xD800) * 0x400 + (low - 0xDC00)) :: ·)
    else none
  | .half _ :: _ => none

/-- A string after its opening quote, and the rest. -/
def readString (cs : List Char) : Option (Option String × List Char) :=
  (pieces (cs.length + 1) cs).map fun (ps, rest) => ((joinPieces ps).map String.ofList, rest)

/-- A word at the front of a text, and the value it stands for. -/
def word? (cs : List Char) (word : String) (value : Json) : Option (Json × List Char) :=
  if word.toList.isPrefixOf cs then some (value, cs.drop word.length) else none

/-- A number at the front of a text. -/
def readNumber (cs : List Char) : Option (Json × List Char) :=
  (Numeral.scan cs).map fun (_, rest) => (.number (cs.take (cs.length - rest.length)), rest)

mutual

/-- A value at the front of a text, with at most `bound` steps of nesting and listing. -/
def readValue : Nat → List Char → Option (Json × List Char)
  | 0, _ => none
  | bound + 1, cs =>
    match skip cs with
    | '[' :: cs =>
      match skip cs with
      | ']' :: rest => some (.list [], rest)
      | cs => (readItems bound cs).map fun (items, rest) => (.list items, rest)
    | '{' :: cs =>
      match skip cs with
      | '}' :: rest => some (.object [], rest)
      | cs => (readMembers bound cs).map fun (members, rest) => (.object members, rest)
    | '"' :: cs => (readString cs).map fun (s, rest) => (.string s, rest)
    | cs =>
      word? cs "null" .null <|> word? cs "true" (.bool true) <|> word? cs "false" (.bool false)
        <|> readNumber cs

/-- The items of a list up to its closing bracket. -/
def readItems : Nat → List Char → Option (List Json × List Char)
  | 0, _ => none
  | bound + 1, cs =>
    match readValue bound cs with
    | none => none
    | some (item, rest) =>
      match skip rest with
      | ',' :: rest => (readItems bound rest).map fun (items, rest) => (item :: items, rest)
      | ']' :: rest => some ([item], rest)
      | _ => none

/-- The members of an object up to its closing brace. -/
def readMembers : Nat → List Char → Option (List (Option String × Json) × List Char)
  | 0, _ => none
  | bound + 1, cs =>
    match skip cs with
    | '"' :: cs =>
      match readString cs with
      | none => none
      | some (key, rest) =>
        match skip rest with
        | ':' :: rest =>
          match readValue bound rest with
          | none => none
          | some (value, rest) =>
            match skip rest with
            | ',' :: rest =>
              (readMembers bound rest).map fun (members, rest) => ((key, value) :: members, rest)
            | '}' :: rest => some ([(key, value)], rest)
            | _ => none
        | _ => none
    | _ => none

end

/-- The value that a text is. -/
def read (cs : List Char) : Option Json :=
  match readValue (2 * cs.length + 2) cs with
  | some (j, rest) => if (skip rest).isEmpty then some j else none
  | none => none

end BlockText.Json
