import BlockText.Dialect.Quoted
import BlockText.Dialect.Word
import BlockText.Text.Blank

/-!
# Patterns

The idiom of a kind is a pattern. A statement pattern is matched against one level of a program:
each line with its newline, and a line with the block mark in place of each nested block. A value
pattern is matched against an expression. A pattern matches a text in at most one way: a run is as
long as it can be, a hole reaches to the end of its line, and of several options the first that fits
is taken.
-/

namespace BlockText

/-- What a pattern took from a text: the named pieces in the order in which they start. -/
abbrev Captures : Type := List (String × List Char)

namespace Captures

/-- The first piece with a name. -/
def first? (cs : Captures) (name : String) : Option (List Char) :=
  (cs.find? fun c => c.1 == name).map (·.2)

end Captures

/-- The line that stands for a nested block. No source line can spell it, since it holds control
characters. -/
def blockMark : List Char := Char.ofNat 1 :: "block".toList ++ [Char.ofNat 1]

/-- A pattern of text. -/
inductive Pattern where
  /-- Exactly these characters. -/
  | lit (text : List Char)
  /-- The mark of a nested block. -/
  | block
  /-- What stands on the line before `ending`, which ends the line; at least one character. -/
  | hole (name : String) (ending : List Char)
  /-- A longest run of characters from some ranges, at least one. -/
  | run (name : String) (ranges : List (Char × Char))
  /-- A letter or underscore, then as many letters, digits and underscores as follow. -/
  | word (name : String)
  /-- A string literal with its quotes. -/
  | literal (name : String)
  /-- Digits, with a minus sign before and a fraction after them if they are there. -/
  | number (name : String)
  /-- The first of some texts that stands here. -/
  | oneOf (name : String) (options : List (List Char))
  /-- One pattern after the other. -/
  | seq (p q : Pattern)
  /-- A pattern if it fits. -/
  | opt (p : Pattern)
  /-- A pattern as often as it fits. -/
  | many (p : Pattern)
  /-- A pattern of which no piece is kept. -/
  | silent (p : Pattern)
  /-- A pattern, and first of its pieces all that it took. -/
  | whole (name : String) (p : Pattern)

namespace Pattern

instance : Append Pattern := ⟨seq⟩

/-- A pattern for a text. -/
def lits (s : String) : Pattern := .lit s.toList

/-- Whether a character lies in one of some ranges. -/
def inRanges (ranges : List (Char × Char)) (c : Char) : Bool :=
  ranges.any fun r => r.1 ≤ c && c ≤ r.2

/-- A nonempty piece with its name and what follows it. -/
def named (name : String) (piece rest : List Char) : Option (Captures × List Char) :=
  if piece.isEmpty then none else some ([(name, piece)], rest)

/-- The first of some texts that a text starts with, and the rest. -/
def firstOption? : List (List Char) → List Char → Option (List Char × List Char)
  | [], _ => none
  | o :: os, cs =>
    match Text.dropStart? o cs with
    | some rest => some (o, rest)
    | none => firstOption? os cs

/-- A number at the front of a text, and the rest. -/
def spanNumber (cs : List Char) : List Char × List Char :=
  let sign := cs.takeWhile (· == '-') |>.take 1
  let digits := (cs.drop sign.length).takeWhile Char.isDigit
  let rest := (cs.drop sign.length).dropWhile Char.isDigit
  if digits.isEmpty then ([], cs)
  else
    match rest with
    | '.' :: more =>
      let fraction := more.takeWhile Char.isDigit
      if fraction.isEmpty then (sign ++ digits, rest)
      else (sign ++ digits ++ '.' :: fraction, more.dropWhile Char.isDigit)
    | _ => (sign ++ digits, rest)

/-- A step repeated as often as it fits and takes something, at most `fuel` times. -/
def iterate (step : List Char → Option (Captures × List Char)) :
    Nat → List Char → Captures × List Char
  | 0, cs => ([], cs)
  | fuel + 1, cs =>
    match step cs with
    | none => ([], cs)
    | some (captures, rest) =>
      if rest.length < cs.length then
        let r := iterate step fuel rest
        (captures ++ r.1, r.2)
      else ([], cs)

/-- Matches a pattern at the front of a text: what it took, and the rest. -/
def scan : Pattern → List Char → Option (Captures × List Char)
  | lit text, cs => (Text.dropStart? text cs).map fun rest => ([], rest)
  | block, cs => (Text.dropStart? blockMark cs).map fun rest => ([], rest)
  | hole name ending, cs =>
    match Text.dropEnd? ending (cs.takeWhile (· != '\n')) with
    | some piece => named name piece (ending ++ cs.dropWhile (· != '\n'))
    | none => none
  | run name ranges, cs =>
    named name (cs.takeWhile (inRanges ranges)) (cs.dropWhile (inRanges ranges))
  | word name, cs =>
    if cs.head?.any Word.isStart then
      named name (cs.takeWhile Word.isPart) (cs.dropWhile Word.isPart)
    else none
  | literal name, cs => (Quoted.span cs).map fun r => ([(name, r.1)], r.2)
  | number name, cs => named name (spanNumber cs).1 (spanNumber cs).2
  | oneOf name options, cs => (firstOption? options cs).map fun r => ([(name, r.1)], r.2)
  | seq p q, cs =>
    match p.scan cs with
    | none => none
    | some (captures, rest) => (q.scan rest).map fun r => (captures ++ r.1, r.2)
  | opt p, cs => some ((p.scan cs).getD ([], cs))
  | many p, cs => some (iterate p.scan cs.length cs)
  | silent p, cs => (p.scan cs).map fun r => ([], r.2)
  | whole name p, cs =>
    (p.scan cs).map fun r => ((name, cs.take (cs.length - r.2.length)) :: r.1, r.2)

/-- What two patterns take one after the other. -/
theorem scan_seq (p q : Pattern) (cs : List Char) : (p ++ q).scan cs =
    (p.scan cs).bind fun r => (q.scan r.2).map fun r' => (r.1 ++ r'.1, r'.2) := by
  show (seq p q).scan cs = _
  rw [scan]
  cases p.scan cs <;> rfl

/-- The names that a pattern gives to pieces. -/
def names : Pattern → List String
  | lit _ => []
  | block => []
  | hole name _ => [name]
  | run name _ => [name]
  | word name => [name]
  | literal name => [name]
  | number name => [name]
  | oneOf name _ => [name]
  | seq p q => p.names ++ q.names
  | opt p => p.names
  | many p => p.names
  | silent _ => []
  | whole name p => name :: p.names

/-- A pattern is usable when it gives no name twice. -/
def isUsable (p : Pattern) : Bool := decide p.names.Nodup

end Pattern

end BlockText
