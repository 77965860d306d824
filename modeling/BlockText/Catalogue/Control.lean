import BlockText.Catalogue.Screen

/-!
# Variables, loops and the conditional

The conditional is the one kind whose inputs follow from a mutation, both when it is written and
when it is read.
-/

namespace BlockText.Catalogue

open Pattern

/-- A statement that puts a value into a variable with an operator. -/
def assignment (kind : Kind) (description operator input : String) (check : Check) (x : Double) :
    Definition where
  kind := kind
  description := description
  shape := ⟨.statement, [.var "VAR"], .fixed [.value input check (some (.number x))]⟩
  generator := some fun p =>
    p.text "VAR" ++ ' ' :: operator.toList ++ ' ' :: p.value input ++ ['\n']
  idiom := some (word "VAR" ++ lits (" " ++ operator ++ " ") ++ hole input [] ++ lits "\n")
  extractor := some fun c => do
    let name ← c.first? "VAR"
    let source ← c.first? input
    guard (Word.isIdentifier name)
    return Extraction.value { fields := [("VAR", .var (String.ofList name))] } input source
  constructor := some .ofExtraction

/-- Stores a value. -/
def setVariable : Definition :=
  assignment .setVariable "stores a value in a variable" "=" "VALUE" .any 0

/-- Adds to a variable. -/
def changeVariable : Definition :=
  assignment .changeVariable "adds to the number stored in a variable" "+=" "DELTA" .number 1

/-- A statement with one value in its header and one body. -/
def loop (kind : Kind) (description opening closing : String) (value : InputSpec) : Definition where
  kind := kind
  description := description
  shape := ⟨.statement, [], .fixed [value, .statement "DO"]⟩
  generator := some fun p =>
    opening.toList ++ p.value value.name ++ closing.toList ++ '\n' :: p.body "DO"
  idiom := some (lits opening ++ hole value.name closing.toList ++ lits (closing ++ "\n") ++ block
    ++ lits "\n")
  extractor := some fun c => do
    let source ← c.first? value.name
    return Extraction.value { bodies := ["DO"] } value.name source
  constructor := some .ofExtraction

/-- Runs its body a number of times. -/
def repeatTimes : Definition :=
  loop .repeatTimes "runs its body a fixed number of times" "for index in range(" "):"
    (numberInput "TIMES" 4)

/-- Runs its body while a condition holds. -/
def whileLoop : Definition :=
  loop .whileLoop "runs its body while a condition holds" "while " ":"
    (.value "COND" .boolean (some (.boolean true)))

/-- One branch of a conditional as it is written. -/
def branchText (p : Parts) (i : Nat) : List Char :=
  (if i = 0 then "if ".toList else "elif ".toList) ++ p.value (Conditional.condition i)
    ++ ":\n".toList ++ p.body (Conditional.body i)

/-- The branches of a conditional as they are written, and its `else`. -/
def conditionalText (p : Parts) : List Char :=
  let m := p.node.mutation.getD {}
  (List.range m.branches).flatMap (branchText p)
    ++ if m.hasElse then "else:\n".toList ++ p.body Conditional.otherwise else []

/-- A header with a condition, and its block. -/
def branchIdiom (start name : String) : Pattern :=
  lits start ++ hole name [':'] ++ lits ":\n" ++ block ++ lits "\n"

/-- The header of an `else`, and its block. -/
def elseIdiom : Pattern := lits "else:\n" ++ block ++ lits "\n"

/-- The headers of a conditional, each with its block. Of the conditions only the first is kept. -/
def conditionalIdiom : Pattern :=
  whole "lines" (branchIdiom "if " "if" ++ silent (many (branchIdiom "elif " "elif"))
    ++ opt elseIdiom)

/-- A line with the condition of a further branch. -/
def elseIfLine : Pattern := lits "elif " ++ hole "condition" [':'] ++ lits ":"

/-- The condition on a line, if the line is the header of a further branch. -/
def elseIfCondition? (line : List Char) : Option (List Char) :=
  match elseIfLine.scan line with
  | some (c, []) => c.first? "condition"
  | _ => none

/-- Takes in one more header: an `else`, or a further branch. -/
def readHeader (e : Extraction) (m : Mutation) (line : List Char) :
    Option (Extraction × Mutation) :=
  if line = "else:".toList then some (e.body Conditional.otherwise, { m with hasElse := true })
  else do
    let condition ← elseIfCondition? line
    let branch := m.elseIfs + 1
    return ((e.value (Conditional.condition branch) condition).body (Conditional.body branch),
      { m with elseIfs := branch })

/-- Takes in further headers, each of which has to have the mark of its block after it. -/
def readHeaders (e : Extraction) (m : Mutation) : List (List Char) → Option Extraction
  | [] => some { e with mutation := some m }
  | [_] => none
  | header :: mark :: lines => do
    let (e, m) ← readHeader e m header
    if mark = blockMark then readHeaders e m lines else none

/-- The first condition is a piece of the match. The others are read from its lines, after the first
header and its block. -/
def readConditional (c : Captures) : Option Extraction := do
  let condition ← c.first? "if"
  let text ← c.first? "lines"
  let first := (Extraction.value {} (Conditional.condition 0) condition).body (Conditional.body 0)
  readHeaders first {} ((Text.lines text).drop 2)

/-- Runs the first branch whose condition holds. -/
def ifElse : Definition where
  kind := .ifElse
  description := "runs the first branch whose condition holds"
  shape := ⟨.statement, [], .branching⟩
  generator := some conditionalText
  idiom := some conditionalIdiom
  extractor := some readConditional
  constructor := some .ofExtraction

/-- A palette item, which is never written into a program. -/
def paletteItem (kind : Kind) (description : String) : Definition where
  kind := kind
  description := description
  shape := ⟨.helper, [], .fixed []⟩
  generator := some fun _ => []
  generatorOnly := true

/-- The palette item for an `elif`. -/
def ifElseElseIf : Definition := paletteItem .ifElseElseIf "else if (mutator item)"

/-- The palette item for an `else`. -/
def ifElseElse : Definition := paletteItem .ifElseElse "else (mutator item)"

end BlockText.Catalogue
