/-!
# Blanks, lines and pieces of text

Text is a list of characters wherever it is taken apart. This module has the blanks (the characters
with the White_Space property), trimming, cutting at a character, the division of a source into
lines, and the length in bytes.
-/

namespace BlockText.Text

/-- A blank: a character with the White_Space property. -/
def isBlank (c : Char) : Bool :=
  let n := c.toNat
  (9 ≤ n && n ≤ 13) || n == 32 || n == 133 || n == 160 || n == 5760 || (8192 ≤ n && n ≤ 8202)
    || n == 8232 || n == 8233 || n == 8239 || n == 8287 || n == 12288

/-- Drops leading blanks. -/
def trimStart (cs : List Char) : List Char := cs.dropWhile isBlank

/-- Drops trailing blanks. -/
def trimEnd : List Char → List Char
  | [] => []
  | c :: cs =>
    match trimEnd cs with
    | [] => if isBlank c then [] else [c]
    | d :: ds => c :: d :: ds

/-- Drops the blanks at both ends. -/
def trim (cs : List Char) : List Char := trimEnd (trimStart cs)

/-- The pieces between the separators; there is always one more piece than separators. -/
def cut (separator : Char) : List Char → List (List Char)
  | [] => [[]]
  | c :: cs =>
    if c = separator then [] :: cut separator cs
    else
      match cut separator cs with
      | [] => [[c]]
      | piece :: pieces => (c :: piece) :: pieces

/-- Drops one carriage return from the end of a line. -/
def chomp : List Char → List Char
  | [] => []
  | [c] => if c = '\r' then [] else [c]
  | c :: d :: cs => c :: chomp (d :: cs)

/-- The lines of a source that follow one another in its pieces: each piece but the last was ended
by a newline and loses one carriage return; the last one is a line only if it is not empty. -/
def linesOfPieces : List (List Char) → List (List Char)
  | [] => []
  | [last] => if last.isEmpty then [] else [last]
  | piece :: next :: pieces => chomp piece :: linesOfPieces (next :: pieces)

/-- The lines of a source, without their line ends. -/
def lines (cs : List Char) : List (List Char) := linesOfPieces (cut '\n' cs)

/-- The rest of a text after a given beginning, if it begins so. -/
def dropStart? : List Char → List Char → Option (List Char)
  | [], cs => some cs
  | _ :: _, [] => none
  | p :: ps, c :: cs => if p = c then dropStart? ps cs else none

/-- The text before a given ending, if it ends so. -/
def dropEnd? (ending cs : List Char) : Option (List Char) :=
  (dropStart? ending.reverse cs.reverse).map List.reverse

/-- The number of bytes that a text takes. -/
def byteLength : List Char → Nat
  | [] => 0
  | c :: cs => c.utf8Size + byteLength cs

/-- Whether `part` stands somewhere in a text. -/
def hasPart (part : List Char) : List Char → Bool
  | [] => part.isEmpty
  | c :: cs => part.isPrefixOf (c :: cs) || hasPart part cs

/-- Texts joined with a separator. -/
def join (separator : List Char) : List (List Char) → List Char
  | [] => []
  | [t] => t
  | t :: u :: ts => t ++ separator ++ join separator (u :: ts)

end BlockText.Text
