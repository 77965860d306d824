import BlockText.Catalogue.Event
import BlockText.Catalogue.Screen

/-!
# Expressions

A compound expression is always written inside one pair of parentheses. So it is read by checking
that the parentheses enclose all of the text, and then splitting what stands between them at its
only operator.
-/

namespace BlockText.Catalogue

open Pattern

/-- How the choices of an operator field are spelled. -/
abbrev Operators : Type := List (String × List Char)

/-- The comparisons. -/
def comparisons : Operators :=
  [("EQ", ['=', '=']), ("NEQ", ['!', '=']), ("LT", ['<']), ("LTE", ['<', '=']), ("GT", ['>']),
    ("GTE", ['>', '='])]

/-- The connectives. -/
def connectives : Operators := [("AND", ['a', 'n', 'd']), ("OR", ['o', 'r'])]

/-- The arithmetic operators. -/
def arithmetics : Operators :=
  [("ADD", ['+']), ("MINUS", ['-']), ("MULTIPLY", ['*']), ("DIVIDE", ['/'])]

/-- The directions in which acceleration is measured. -/
def dimensions : List String := ["X", "Y", "Z", "STRENGTH"]

/-- The spelling of a choice; that of the first operator for anything that is not listed. -/
def spelling (operators : Operators) (choice : String) : List Char :=
  match (operators.find? fun o => o.1 == choice) <|> operators.head? with
  | some o => o.2
  | none => []

/-- Numbers are written with the shortest digits, and zero without a sign. -/
def numberText (x : Double) : List Char := if x.isZero then ['0'] else x.text

/-- A number. -/
def mathNumber : Definition where
  kind := .mathNumber
  description := "a number"
  shape := ⟨.value .number, [.number "NUM" 0], .fixed []⟩
  generator := some fun p => numberText (p.number "NUM")
  idiom := some (number "NUM")
  extractor := some fun c => do
    let x ← (← c.first? "NUM") |> Double.ofText?
    guard x.isFinite
    return { fields := [("NUM", .number x)] }
  constructor := some .ofExtraction

/-- A text. -/
def text : Definition where
  kind := .text
  description := "a piece of text"
  shape := ⟨.value .string, [.text "TEXT" ""], .fixed []⟩
  generator := some fun p => Quoted.encode (p.text "TEXT")
  idiom := some (literal "TEXT")
  extractor := some fun c => do
    let text ← (← c.first? "TEXT") |> Quoted.decode
    return { fields := [("TEXT", .text (String.ofList text))] }
  constructor := some .ofExtraction

/-- The spelling of a truth value. -/
def truthText (b : Bool) : List Char := if b then "True".toList else "False".toList

/-- A truth value. -/
def logicBoolean : Definition where
  kind := .logicBoolean
  description := "true or false"
  shape := ⟨.value .boolean, [.bool "BOOL" true], .fixed []⟩
  generator := some fun p => truthText (((p.node.field? "BOOL").bind FieldValue.bool?).getD false)
  idiom := some (oneOf "BOOL" [truthText true, truthText false])
  extractor := some fun c => do
    let word ← c.first? "BOOL"
    return { fields := [("BOOL", .bool (word == truthText true))] }
  constructor := some .ofExtraction

/-- A negation. -/
def logicNegate : Definition where
  kind := .logicNegate
  description := "the opposite of a condition"
  shape := ⟨.value .boolean, [], .fixed [.value "BOOL" .boolean none]⟩
  generator := some fun p => "(not ".toList ++ p.value "BOOL" ++ [')']
  idiom := some (lits "(not " ++ hole "BOOL" [')'] ++ lits ")")
  extractor := some fun c => do
    let source ← c.first? "BOOL"
    guard (Expression.isEnclosed ("(not ".toList ++ source ++ [')']))
    return Extraction.value {} "BOOL" source
  constructor := some .ofExtraction

/-- Two operands with an operator between them. -/
def binary (kind : Kind) (description : String) (result : Check) (operators : Operators)
    (a b : InputSpec) : Definition where
  kind := kind
  description := description
  shape := ⟨.value result, [.choice "OP" (operators.map (·.1))], .fixed [a, b]⟩
  generator := some fun p =>
    '(' :: p.value a.name ++ ' ' :: spelling operators (String.ofList (p.text "OP"))
      ++ ' ' :: p.value b.name ++ [')']
  idiom := some (lits "(" ++ hole "inner" [')'] ++ lits ")")
  extractor := some fun c => do
    let inner ← c.first? "inner"
    guard (Expression.isEnclosed ('(' :: inner ++ [')']))
    let (left, sign, right) ← Expression.splitBinary (operators.map (·.2)) inner
    let operator ← operators.find? fun o => o.2 == sign
    return ({ fields := [("OP", .choice operator.1)] } : Extraction)
      |>.value a.name left |>.value b.name right
  constructor := some .ofExtraction

/-- A comparison. -/
def logicCompare : Definition :=
  binary .logicCompare "compares two values" .boolean comparisons
    (.value "A" .any (some (.number 0))) (.value "B" .any (some (.number 0)))

/-- A connection of two conditions. -/
def logicOperation : Definition :=
  binary .logicOperation "both or either of two conditions" .boolean connectives
    (.value "A" .boolean none) (.value "B" .boolean none)

/-- Arithmetic on two numbers. -/
def mathArithmetic : Definition :=
  binary .mathArithmetic "adds, subtracts, multiplies or divides two numbers" .number arithmetics
    (numberInput "A" 0) (numberInput "B" 0)

/-- A random number. -/
def mathRandom : Definition where
  kind := .mathRandom
  description := "a random whole number in a range"
  shape := ⟨.value .number, [], .fixed [numberInput "FROM" 0, numberInput "TO" 10]⟩
  generator := some fun p => call "randint" [p.value "FROM", p.value "TO"]
  idiom := some (callIdiom "randint" "args")
  extractor := some (readArguments "args" ["FROM", "TO"])
  constructor := some .ofExtraction

/-- Whether a button is held. -/
def buttonIsPressed : Definition where
  kind := .buttonIsPressed
  description := "whether a button is held down"
  shape := ⟨.value .boolean, [.choice "BUTTON" buttons], .fixed []⟩
  generator := some fun p => call "input.button_is_pressed" ["Button.".toList ++ p.text "BUTTON"]
  idiom := some (lits "input.button_is_pressed(Button." ++ oneOf "BUTTON" [['A', 'B'], ['A'], ['B']]
    ++ lits ")")
  extractor := some fun c => do
    let button ← c.first? "BUTTON"
    return { fields := [("BUTTON", .choice (String.ofList button))] }
  constructor := some .ofExtraction

/-- The temperature. -/
def temperature : Definition where
  kind := .temperature
  description := "temperature in degrees Celsius"
  shape := ⟨.value .number, [], .fixed []⟩
  generator := some fun _ => "input.temperature()".toList
  idiom := some (lits "input.temperature()")
  extractor := some fun _ => some {}
  constructor := some .ofExtraction

/-- The acceleration along an axis. -/
def acceleration : Definition where
  kind := .acceleration
  description := "acceleration along one axis, in milli-g"
  shape := ⟨.value .number, [.choice "DIMENSION" dimensions], .fixed []⟩
  generator := some fun p => call "input.acceleration" ["Dimension.".toList ++ p.text "DIMENSION"]
  idiom := some (lits "input.acceleration(Dimension."
    ++ oneOf "DIMENSION" (dimensions.map String.toList) ++ lits ")")
  extractor := some fun c => do
    let dimension ← c.first? "DIMENSION"
    return { fields := [("DIMENSION", .choice (String.ofList dimension))] }
  constructor := some .ofExtraction

/-- The value of a variable. -/
def variablesGet : Definition where
  kind := .variablesGet
  description := "the value stored in a variable"
  shape := ⟨.value .any, [.var "VAR"], .fixed []⟩
  generator := some fun p => p.text "VAR"
  idiom := some (word "VAR")
  extractor := some fun c => do
    let name ← c.first? "VAR"
    guard (Word.isIdentifier name)
    return { fields := [("VAR", .var (String.ofList name))] }
  constructor := some .ofExtraction

end BlockText.Catalogue
