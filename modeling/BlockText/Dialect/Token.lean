import BlockText.Dialect.Quoted
import BlockText.Dialect.Word
import BlockText.Text.Blank

/-!
# Tokens of an expression

The top-level structure of an expression (argument commas, its one binary operator, the pair of
parentheses around it) is read off its tokens. A token is kept with the blanks before it, so the
tokens of a text with the blanks after the last one spell the text.
-/

namespace BlockText

/-- The class of a token. -/
inductive Token where
  | opening
  | closing
  | comma
  | literal
  | number
  | name
  | operator
  deriving DecidableEq

/-- A token in its place: the blanks before it and its characters. -/
structure Lexeme where
  gap : List Char
  token : Token
  text : List Char
  deriving DecidableEq

namespace Lexeme

/-- What may stand between tokens. -/
def isGap (c : Char) : Bool := c == ' ' || c == '\t'

/-- A dotted name that goes on: parts of words, and points before a word. -/
def spanName : List Char → List Char × List Char
  | [] => ([], [])
  | c :: cs =>
    if Word.isPart c || (c == '.' && (cs.head?.any Word.isStart)) then
      let r := spanName cs
      (c :: r.1, r.2)
    else ([], c :: cs)

/-- A number: digits, and perhaps a point with digits after it. -/
def spanNumber (cs : List Char) : List Char × List Char :=
  let whole := cs.takeWhile Char.isDigit
  match cs.dropWhile Char.isDigit with
  | '.' :: rest =>
    if rest.head?.any Char.isDigit then
      (whole ++ '.' :: rest.takeWhile Char.isDigit, rest.dropWhile Char.isDigit)
    else (whole, '.' :: rest)
  | rest => (whole, rest)

/-- The token at the front of a text that starts with no blank: its class, its characters and the
rest. -/
def first? : List Char → Option (Token × List Char × List Char)
  | [] => none
  | '(' :: cs => some (.opening, ['('], cs)
  | ')' :: cs => some (.closing, [')'], cs)
  | ',' :: cs => some (.comma, [','], cs)
  | '=' :: '=' :: cs => some (.operator, ['=', '='], cs)
  | '!' :: '=' :: cs => some (.operator, ['!', '='], cs)
  | '<' :: '=' :: cs => some (.operator, ['<', '='], cs)
  | '>' :: '=' :: cs => some (.operator, ['>', '='], cs)
  | '<' :: cs => some (.operator, ['<'], cs)
  | '>' :: cs => some (.operator, ['>'], cs)
  | '+' :: cs => some (.operator, ['+'], cs)
  | '-' :: cs => some (.operator, ['-'], cs)
  | '*' :: cs => some (.operator, ['*'], cs)
  | '/' :: cs => some (.operator, ['/'], cs)
  | c :: cs =>
    if c = '"' then (Quoted.span (c :: cs)).map fun r => (.literal, r.1, r.2)
    else if c.isDigit then some (.number, spanNumber (c :: cs))
    else if Word.isStart c then some (.name, spanName (c :: cs))
    else none

/-- The tokens of a text of at most `fuel` tokens, and the blanks after them. -/
def scanUpTo : Nat → List Char → Option (List Lexeme × List Char)
  | 0, cs => if cs.isEmpty then some ([], []) else none
  | fuel + 1, cs =>
    let gap := cs.takeWhile isGap
    match cs.dropWhile isGap with
    | [] => some ([], gap)
    | c :: rest =>
      match first? (c :: rest) with
      | none => none
      | some (token, text, after) =>
        (scanUpTo fuel after).map fun r => (⟨gap, token, text⟩ :: r.1, r.2)

/-- The tokens of a text and the blanks after them; a text with a character that starts no token has
none. -/
def scan (cs : List Char) : Option (List Lexeme × List Char) := scanUpTo (cs.length + 1) cs

/-- The text that tokens spell. -/
def spell (ls : List Lexeme) : List Char := ls.flatMap fun l => l.gap ++ l.text

/-- The depth of parentheses after some tokens, if none is closed that was not opened. -/
def depthAfter : Nat → List Lexeme → Option Nat
  | d, [] => some d
  | d, l :: ls =>
    match l.token, d with
    | .opening, d => depthAfter (d + 1) ls
    | .closing, 0 => none
    | .closing, d + 1 => depthAfter d ls
    | _, d => depthAfter d ls

/-- Whether the first parenthesis that is opened is closed by the last of the tokens. A parenthesis
that is closed at depth zero has no answer. -/
def closesLast : Nat → List Lexeme → Option Bool
  | _, [] => some false
  | d, l :: ls =>
    match l.token, d with
    | .opening, d => closesLast (d + 1) ls
    | .closing, 0 => none
    | .closing, d + 1 => if d = 0 then some ls.isEmpty else closesLast d ls
    | _, d => closesLast d ls

end Lexeme

namespace Expression

open Lexeme

/-- The parentheses of a text match. -/
def isBalanced (cs : List Char) : Bool :=
  match scan cs with
  | some (ls, _) => depthAfter 0 ls == some 0
  | none => false

/-- A text is one pair of parentheses with what stands between them. -/
def isEnclosed (cs : List Char) : Bool :=
  match scan (Text.trim cs) with
  | some (ls, gap) =>
    ls.head?.any (·.token == .opening) && closesLast 0 ls == some true && gap.isEmpty
  | none => false

/-- Tokens cut at the commas outside parentheses. The first list is the piece that is open. -/
def cutArguments : Nat → List Lexeme → List (List Char)
  | _, [] => [[]]
  | d, l :: ls =>
    let more (d : Nat) :=
      match cutArguments d ls with
      | [] => [l.gap ++ l.text]
      | piece :: pieces => (l.gap ++ l.text ++ piece) :: pieces
    match l.token with
    | .opening => more (d + 1)
    | .closing => more (d - 1)
    | .comma => if d = 0 then l.gap :: cutArguments d ls else more d
    | _ => more d

/-- The arguments between the commas outside parentheses, trimmed; none may be empty. -/
def splitArguments (cs : List Char) : Option (List (List Char)) :=
  match scan cs with
  | none => none
  | some (ls, gap) =>
    if depthAfter 0 ls ≠ some 0 then none
    else
      let pieces := cutArguments 0 ls
      let arguments := (pieces.dropLast ++ pieces.getLast?.toList.map (· ++ gap)).map Text.trim
      if arguments.any List.isEmpty then none else some arguments

/-- A token that joins two operands: an operator sign, or one of the words `and` and `or`. -/
def joins (l : Lexeme) : Bool :=
  l.token == .operator || (l.token == .name && (l.text == ['a', 'n', 'd'] || l.text == ['o', 'r']))

/-- The places of the joining tokens outside parentheses that follow an operand, counted from
`place`. Where no operand precedes it, such a token is a sign. -/
def joints : Nat → Bool → Nat → List Lexeme → List Nat
  | _, _, _, [] => []
  | d, operand, place, l :: ls =>
    match l.token with
    | .opening => joints (d + 1) false (place + 1) ls
    | .closing => joints (d - 1) true (place + 1) ls
    | _ =>
      if joins l then
        if d = 0 && operand then place :: joints d false (place + 1) ls
        else joints d false (place + 1) ls
      else joints d (l.token != .comma) (place + 1) ls

/-- Both sides of the only joining token outside parentheses, trimmed, with the token between them;
it has to be one of `operators` and no side may be empty. -/
def splitBinary (operators : List (List Char)) (cs : List Char) :
    Option (List Char × List Char × List Char) :=
  match scan cs with
  | none => none
  | some (ls, gap) =>
    if depthAfter 0 ls ≠ some 0 then none
    else
      match joints 0 false 0 ls with
      | [place] =>
        match ls.drop place with
        | [] => none
        | joint :: after =>
          let left := Text.trim (spell (ls.take place) ++ joint.gap)
          let right := Text.trim (spell after ++ gap)
          if operators.contains joint.text && !left.isEmpty && !right.isEmpty then
            some (left, joint.text, right)
          else none
      | _ => none

end Expression

end BlockText
