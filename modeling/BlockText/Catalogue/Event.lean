import BlockText.Block.Definition
import BlockText.Text.LowerCase

/-!
# Event roots

An event root is a handler function with the body, and after it the line that registers the handler.
Handlers of buttons and gestures are named for what they handle, in lower case.
-/

namespace BlockText.Catalogue

open Pattern

/-- The buttons of the board. -/
def buttons : List String := ["A", "B", "AB"]

/-- The movements that the board notices. -/
def gestures : List String :=
  ["SHAKE", "LOGO_UP", "LOGO_DOWN", "SCREEN_UP", "SCREEN_DOWN", "TILT_LEFT", "TILT_RIGHT",
    "FREE_FALL"]

/-- A root with one body. -/
def eventShape (fields : List FieldSpec) : Shape := ⟨.root, fields, .fixed [.statement "DO"]⟩

/-- Runs once at the start. -/
def onStart : Definition where
  kind := .onStart
  description := "runs once when the board starts"
  shape := eventShape []
  generator := some fun p => "def on_start():\n".toList ++ p.body "DO" ++ "on_start()\n".toList
  idiom := some (lits "def on_start():\n" ++ block ++ lits "\non_start()\n")
  extractor := some fun _ => some { bodies := ["DO"] }
  constructor := some .ofExtraction

/-- Runs over and over. -/
def forever : Definition where
  kind := .forever
  description := "runs its body over and over"
  shape := eventShape []
  generator := some fun p =>
    "def on_forever():\n".toList ++ p.body "DO" ++ "basic.forever(on_forever)\n".toList
  idiom := some (lits "def on_forever():\n" ++ block ++ lits "\nbasic.forever(on_forever)\n")
  extractor := some fun _ => some { bodies := ["DO"] }
  constructor := some .ofExtraction

/-- A handler with its registration: `event` is the event, `values` what its values belong to. -/
def handler (event values : String) (choice body : List Char) : List Char :=
  let name := event.toList ++ ['_'] ++ Text.lower choice
  "def ".toList ++ name ++ "():\n".toList ++ body ++ "input.".toList ++ event.toList ++ ['(']
    ++ values.toList ++ ['.'] ++ choice ++ ", ".toList ++ name ++ ")\n".toList

/-- The text of a handler with its registration; `name` is a pattern for its name and `choice` one
for what it handles. -/
def handlerIdiom (event values : String) (name : String → Pattern) (choice : Pattern) : Pattern :=
  lits ("def " ++ event ++ "_") ++ name "handler" ++ lits "():\n" ++ block
    ++ lits ("\ninput." ++ event ++ "(" ++ values ++ ".") ++ choice ++ lits (", " ++ event ++ "_")
    ++ name "registered" ++ lits ")\n"

/-- The name of the function, the name that is registered and what is handled have to agree. -/
def readHandler (field : String) (options : List String) (c : Captures) : Option Extraction := do
  let choice ← c.first? field
  let name ← c.first? "handler"
  let registered ← c.first? "registered"
  guard (options.contains (String.ofList choice))
  guard (name == Text.lower choice && registered == Text.lower choice)
  return { fields := [(field, .choice (String.ofList choice))], bodies := ["DO"] }

/-- Runs when a button is pressed. -/
def onButtonPressed : Definition where
  kind := .onButtonPressed
  description := "runs when a button is pressed"
  shape := eventShape [.choice "BUTTON" buttons]
  generator := some fun p => handler "on_button_pressed" "Button" (p.text "BUTTON") (p.body "DO")
  idiom := some (handlerIdiom "on_button_pressed" "Button" (run · [('a', 'z')])
    (oneOf "BUTTON" [['A', 'B'], ['A'], ['B']]))
  extractor := some (readHandler "BUTTON" buttons)
  constructor := some .ofExtraction

/-- Runs when the board is moved. -/
def onGesture : Definition where
  kind := .onGesture
  description := "runs when the board is moved in a particular way"
  shape := eventShape [.choice "GESTURE" gestures]
  generator := some fun p => handler "on_gesture" "Gesture" (p.text "GESTURE") (p.body "DO")
  idiom := some (handlerIdiom "on_gesture" "Gesture" (run · [('a', 'z'), ('_', '_')])
    (run "GESTURE" [('A', 'Z'), ('_', '_')]))
  extractor := some (readHandler "GESTURE" gestures)
  constructor := some .ofExtraction

end BlockText.Catalogue
