import BlockText.Block.Definition
import BlockText.Dialect.Token

/-!
# Statements of the board

Calls that light the LED screen, wait, or play a sound.
-/

namespace BlockText.Catalogue

open Pattern

/-- The built-in pictures. -/
def icons : List String :=
  ["HEART", "SMALL_HEART", "YES", "NO", "HAPPY", "SAD", "CONFUSED", "ANGRY", "ASLEEP", "SURPRISED",
    "SILLY", "FABULOUS", "MEH", "DUCK", "GHOST"]

/-- A call with the given arguments. -/
def call (function : String) (arguments : List (List Char)) : List Char :=
  function.toList ++ ['('] ++ Text.join [',', ' '] arguments ++ [')']

/-- A call with some text between its parentheses. -/
def callIdiom (function name : String) : Pattern :=
  lits (function ++ "(") ++ hole name [')'] ++ lits ")"

/-- The arguments of a call fill some inputs, one each. -/
def readArguments (name : String) (inputs : List String) (c : Captures) : Option Extraction := do
  let source ← c.first? name
  let arguments ← Expression.splitArguments source
  guard (arguments.length == inputs.length)
  return (inputs.zip arguments).foldl (fun e a => e.value a.1 a.2) {}

/-- A statement that is a call with its inputs as arguments. -/
def callStatement (kind : Kind) (description function : String) (inputs : List InputSpec) :
    Definition where
  kind := kind
  description := description
  shape := ⟨.statement, [], .fixed inputs⟩
  generator := some fun p => call function (inputs.map fun i => p.value i.name) ++ ['\n']
  idiom := some (callIdiom function "args" ++ lits "\n")
  extractor := some (readArguments "args" (inputs.map InputSpec.name))
  constructor := some .ofExtraction

/-- A number input with a default. -/
def numberInput (name : String) (x : Double) : InputSpec := .value name .number (some (.number x))

/-- Scrolls a text. -/
def showString : Definition where
  kind := .showString
  description := "scrolls a piece of text across the screen"
  shape := ⟨.statement, [.text "TEXT" "Hello!"], .fixed []⟩
  generator := some fun p => call "basic.show_string" [Quoted.encode (p.text "TEXT")] ++ ['\n']
  idiom := some (lits "basic.show_string(" ++ literal "TEXT" ++ lits ")\n")
  extractor := some fun c => do
    let text ← (← c.first? "TEXT") |> Quoted.decode
    return { fields := [("TEXT", .text (String.ofList text))] }
  constructor := some .ofExtraction

/-- Scrolls a number. -/
def showNumber : Definition :=
  callStatement .showNumber "scrolls a number across the screen" "basic.show_number"
    [numberInput "NUM" 0]

/-- Draws a built-in picture. -/
def showIcon : Definition where
  kind := .showIcon
  description := "draws a built-in picture"
  shape := ⟨.statement, [.choice "ICON" icons], .fixed []⟩
  generator := some fun p => call "basic.show_icon" ["IconNames.".toList ++ p.text "ICON"] ++ ['\n']
  idiom := some
    (lits "basic.show_icon(IconNames." ++ run "ICON" [('A', 'Z'), ('_', '_')] ++ lits ")\n")
  extractor := some fun c => do
    let icon := String.ofList (← c.first? "ICON")
    guard (icons.contains icon)
    return { fields := [("ICON", .choice icon)] }
  constructor := some .ofExtraction

/-- The picture that a node holds; dark if it holds none. -/
def picture (n : Node) : Bitmap :=
  match n.field? "LEDS" with
  | some (.bitmap b) => b
  | _ => .dark

/-- Lights the LEDs of a picture. -/
def showLeds : Definition where
  kind := .showLeds
  description := "lights the LEDs drawn in the grid"
  shape := ⟨.statement, [.bitmap "LEDS"], .fixed []⟩
  generator := some fun p =>
    call "basic.show_leds" ['"' :: (picture p.node).text ++ ['"']] ++ ['\n']
  idiom := some (lits "basic.show_leds(\"" ++ run "LEDS" [('0', '1'), (' ', ' ')] ++ lits "\")\n")
  extractor := some fun c => do
    let bitmap ← (← c.first? "LEDS") |> Bitmap.ofText?
    return { fields := [("LEDS", .bitmap bitmap)] }
  constructor := some .ofExtraction

/-- Turns the LEDs off. -/
def clearScreen : Definition where
  kind := .clearScreen
  description := "turns every LED off"
  shape := ⟨.statement, [], .fixed []⟩
  generator := some fun _ => "basic.clear_screen()\n".toList
  idiom := some (lits "basic.clear_screen()\n")
  extractor := some fun _ => some {}
  constructor := some .ofExtraction

/-- Waits. -/
def pause : Definition :=
  callStatement .pause "waits for the given number of milliseconds" "basic.pause"
    [numberInput "MS" 100]

/-- Shows a text or a number. -/
def displayShow : Definition :=
  callStatement .displayShow "shows text or a number on the screen" "display.show"
    [.value "TEXT" .any (some (.text "Hello!"))]

/-- Turns one LED on. -/
def plot : Definition :=
  callStatement .plot "turns on the LED at x, y" "led.plot" [numberInput "X" 0, numberInput "Y" 0]

/-- Turns one LED off. -/
def unplot : Definition :=
  callStatement .unplot "turns off the LED at x, y" "led.unplot"
    [numberInput "X" 0, numberInput "Y" 0]

/-- Plays a tone. -/
def playTone : Definition :=
  callStatement .playTone "plays a tone for a number of milliseconds" "music.play_tone"
    [numberInput "FREQ" 262, numberInput "MS" 500]

end BlockText.Catalogue
