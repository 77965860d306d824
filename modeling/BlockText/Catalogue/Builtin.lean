import BlockText.Block.Registry
import BlockText.Catalogue.Control
import BlockText.Catalogue.Event
import BlockText.Catalogue.Value

/-!
# The built-in catalogue

Every kind has a built-in definition. The built-in registry holds them all: first the roots, then
the statements with plain assignment last, then the expressions with bare names last, and at the end
the palette items.
-/

namespace BlockText

/-- The built-in definition of a kind. -/
def Kind.definition : Kind → Definition
  | onStart => Catalogue.onStart
  | forever => Catalogue.forever
  | onButtonPressed => Catalogue.onButtonPressed
  | onGesture => Catalogue.onGesture
  | showString => Catalogue.showString
  | showNumber => Catalogue.showNumber
  | showIcon => Catalogue.showIcon
  | showLeds => Catalogue.showLeds
  | clearScreen => Catalogue.clearScreen
  | pause => Catalogue.pause
  | displayShow => Catalogue.displayShow
  | plot => Catalogue.plot
  | unplot => Catalogue.unplot
  | playTone => Catalogue.playTone
  | setVariable => Catalogue.setVariable
  | changeVariable => Catalogue.changeVariable
  | repeatTimes => Catalogue.repeatTimes
  | whileLoop => Catalogue.whileLoop
  | ifElse => Catalogue.ifElse
  | mathNumber => Catalogue.mathNumber
  | text => Catalogue.text
  | logicBoolean => Catalogue.logicBoolean
  | logicCompare => Catalogue.logicCompare
  | logicOperation => Catalogue.logicOperation
  | logicNegate => Catalogue.logicNegate
  | mathArithmetic => Catalogue.mathArithmetic
  | mathRandom => Catalogue.mathRandom
  | buttonIsPressed => Catalogue.buttonIsPressed
  | temperature => Catalogue.temperature
  | acceleration => Catalogue.acceleration
  | variablesGet => Catalogue.variablesGet
  | ifElseElseIf => Catalogue.ifElseElseIf
  | ifElseElse => Catalogue.ifElseElse

@[simp] theorem Kind.kind_definition (k : Kind) : k.definition.kind = k := by cases k <;> rfl

/-- The kinds in the order in which their idioms are tried. -/
def Kind.priority : List Kind :=
  [onStart, forever, onButtonPressed, onGesture, showString, showNumber, showIcon, showLeds,
    clearScreen, pause, displayShow, plot, unplot, playTone, repeatTimes, whileLoop, ifElse,
    changeVariable, setVariable, mathNumber, text, logicBoolean, logicNegate, logicCompare,
    logicOperation, mathArithmetic, mathRandom, buttonIsPressed, temperature, acceleration,
    variablesGet, ifElseElseIf, ifElseElse]

/-- The registry of the built-in definitions of some kinds, in order. -/
def Registry.ofKinds (kinds : List Kind) : Except RegistryError Registry :=
  ofDefinitions (kinds.map Kind.definition)

/-- The registry of all built-in definitions. -/
def Registry.builtin : Registry := ⟨Kind.priority.map Kind.definition⟩

end BlockText
