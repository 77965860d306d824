/-!
# Words and layout of the board dialect

A program is structured by indentation, and an empty block is spelled with a placeholder statement.
Variables are ASCII identifiers that are not among the reserved words.
-/

namespace BlockText

/-- The two layout choices of a program: one unit of indentation and the placeholder that stands for
an empty block. -/
structure Options where
  indent : String := "    "
  noop : String := "pass"
  deriving DecidableEq

instance : Inhabited Options := ⟨{}⟩

namespace Word

/-- Words that are never variable names. -/
def reserved : List String :=
  ["and", "or", "not", "if", "elif", "else", "while", "for", "in", "def", "pass", "True", "False",
    "None", "return", "global"]

/-- A letter or an underscore. -/
def isStart (c : Char) : Bool := c.isAlpha || c == '_'

/-- A letter, a digit or an underscore. -/
def isPart (c : Char) : Bool := c.isAlphanum || c == '_'

/-- The form of a word: a start, then parts. -/
def isWord : List Char → Bool
  | [] => false
  | c :: cs => isStart c && cs.all isPart

/-- A variable name. -/
def isIdentifier (cs : List Char) : Bool := isWord cs && !reserved.contains (String.ofList cs)

end Word

end BlockText
