/-!
# Kinds of blocks

The set of kinds is closed. Each has an identifier, used in documents, settings and messages; the
order of the list `Kind.all` is the order of kinds wherever a set of them is walked.
-/

namespace BlockText

/-- The kinds of blocks that a program is made of. -/
inductive Kind where
  | onStart
  | forever
  | onButtonPressed
  | onGesture
  | showString
  | showNumber
  | showIcon
  | showLeds
  | clearScreen
  | pause
  | displayShow
  | plot
  | unplot
  | playTone
  | setVariable
  | changeVariable
  | repeatTimes
  | whileLoop
  | ifElse
  | mathNumber
  | text
  | logicBoolean
  | logicCompare
  | logicOperation
  | logicNegate
  | mathArithmetic
  | mathRandom
  | buttonIsPressed
  | temperature
  | acceleration
  | variablesGet
  | ifElseElseIf
  | ifElseElse
  deriving DecidableEq

namespace Kind

instance : Inhabited Kind := ⟨onStart⟩

/-- Every kind, in order. -/
def all : List Kind :=
  [onStart, forever, onButtonPressed, onGesture, showString, showNumber, showIcon, showLeds,
    clearScreen, pause, displayShow, plot, unplot, playTone, setVariable, changeVariable,
    repeatTimes, whileLoop, ifElse, mathNumber, text, logicBoolean, logicCompare, logicOperation,
    logicNegate, mathArithmetic, mathRandom, buttonIsPressed, temperature, acceleration,
    variablesGet, ifElseElseIf, ifElseElse]

theorem mem_all (k : Kind) : k ∈ all := by cases k <;> decide

/-- The identifier of a kind. -/
def name : Kind → String
  | onStart => "on_start"
  | forever => "forever"
  | onButtonPressed => "on_button_pressed"
  | onGesture => "on_gesture"
  | showString => "show_string"
  | showNumber => "show_number"
  | showIcon => "show_icon"
  | showLeds => "show_leds"
  | clearScreen => "clear_screen"
  | pause => "pause"
  | displayShow => "display_show"
  | plot => "plot"
  | unplot => "unplot"
  | playTone => "play_tone"
  | setVariable => "set_variable"
  | changeVariable => "change_variable"
  | repeatTimes => "repeat"
  | whileLoop => "while_loop"
  | ifElse => "if_else"
  | mathNumber => "math_number"
  | text => "text"
  | logicBoolean => "logic_boolean"
  | logicCompare => "logic_compare"
  | logicOperation => "logic_operation"
  | logicNegate => "logic_negate"
  | mathArithmetic => "math_arithmetic"
  | mathRandom => "math_random"
  | buttonIsPressed => "button_is_pressed"
  | temperature => "temperature"
  | acceleration => "acceleration"
  | variablesGet => "variables_get"
  | ifElseElseIf => "if_else_elseif"
  | ifElseElse => "if_else_else"

/-- The kind with an identifier. -/
def ofName? (s : String) : Option Kind := all.find? fun k => k.name == s

/-- What is said of an identifier that names no kind. -/
def unknownMessage (s : String) : String := "unknown node type '" ++ s ++ "'"

/-- The members of a list of kinds in the order of kinds, each once. -/
def ordered (ks : List Kind) : List Kind := all.filter ks.contains

end Kind

end BlockText
