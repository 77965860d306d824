import BlockText.Setup
import BlockText.Text.Blank

/-!
# Writing a program

The text of a workspace is the text of its roots in order. A definition renders its block at column
zero, and what stands in a statement input is indented by one unit. A block that must not run leaves
no text, and neither does a loose value; an empty sequence is written as the no-op.
-/

namespace BlockText.Program

/-- A line with a unit of indentation before it, unless it is blank. -/
def indentLine (unit line : List Char) : List Char :=
  if line.all Text.isBlank then line else unit ++ line

/-- A text with each line indented. -/
def indent (unit cs : List Char) : List Char :=
  Text.join ['\n'] ((Text.cut '\n' cs).map (indentLine unit))

/-- The literal written for a value input that holds nothing. -/
def fallback (r : Registry) (n : Node) (input : String) : List Char :=
  let check := (r.find? n.kind).bind fun d =>
    (d.shape.inputsFor n.mutation).findSome? fun
      | .value name check _ => if name == input then some check else none
      | .statement _ => none
  ((check.map Check.fallback).getD "0").toList

/-- Whether blocks of a kind are values or helpers, which are no statements. -/
def isLoose (r : Registry) (kind : Kind) : Bool :=
  (r.find? kind).any fun d => d.shape.role.isValue || d.shape.role = .helper

/-- Whether a node is written where a statement stands: it is not left out, the rules let it run,
and it is no loose value. -/
def isWritten (s : Setup) (w : Workspace) (n : Node) : Bool :=
  n.disabled.isNone && s.rules.isEnabled w n.id && !isLoose s.registry n.kind

/-- The text of a statement, given how a node is rendered. -/
def statement (s : Setup) (w : Workspace) (render : Node → List Char) (id : NodeId) : List Char :=
  match w.get? id with
  | none => []
  | some n => if isWritten s w n then render n else []

/-- The text of a value input, given how a node is rendered. -/
def value (s : Setup) (w : Workspace) (render : Node → List Char) (n : Node) (input : String) :
    List Char :=
  match (n.valueTarget? input).bind w.get? with
  | some target => render target
  | none => fallback s.registry n input

/-- The indented text of a statement input, given how a node is rendered. -/
def body (s : Setup) (w : Workspace) (render : Node → List Char) (n : Node) (input : String) :
    List Char :=
  let text := (n.statements input).flatMap (statement s w render)
  indent s.options.indent.toList (if text.isEmpty then s.options.noop.toList ++ ['\n'] else text)

/-- The text of a node with what is nested in it to a depth of `bound`. -/
def render (s : Setup) (w : Workspace) : Nat → Node → List Char
  | 0, _ => []
  | bound + 1, n =>
    match s.registry.find? n.kind with
    | none => []
    | some d =>
      d.render {
        node := n
        options := s.options
        value := value s w (render s w bound) n
        body := body s w (render s w bound) n }

/-- The characters of a program. -/
def writeChars (s : Setup) (w : Workspace) : List Char :=
  w.roots.flatMap (statement s w (render s w (w.size + 1)))

/-- The text of a workspace. -/
def write (s : Setup) (w : Workspace) : String := String.ofList (writeChars s w)

end BlockText.Program
