import BlockText.Block.Shape
import BlockText.SortedMap

/-!
# Nodes

A node is one block of a workspace. It names its parent and its children by id. A value slot holds a
child in front of a shadow, the default that shows when there is no child; a statement slot holds a
sequence.
-/

namespace BlockText

/-- The name of a node. Ids grow with each node made, so their order is the order of creation. -/
abbrev NodeId : Type := Nat

/-- How many ids there are: an id is a number of 32 bits. -/
def NodeId.limit : Nat := Nat.pow 2 32

/-- An id as it is shown. -/
def NodeId.shown (id : NodeId) : String := "#" ++ toString id

/-- What an input holds. -/
inductive Slot where
  | value (child shadow : Option NodeId)
  | statements (children : List NodeId)
  deriving DecidableEq

/-- The nodes that a slot owns: the child, then the shadow, or the sequence. -/
def Slot.owned : Slot → List NodeId
  | value child shadow => child.toList ++ shadow.toList
  | statements children => children

/-- A slot with its name. -/
structure Input where
  name : String
  slot : Slot
  deriving DecidableEq

/-- Why a node is left out of the program. -/
inductive Disabled where
  | needsEvent
  | duplicateHandler
  deriving DecidableEq

namespace Disabled

/-- The identifier of a reason. -/
def name : Disabled → String
  | needsEvent => "needs_event"
  | duplicateHandler => "duplicate_handler"

/-- What is said of a node that is left out. -/
def message : Disabled → String
  | needsEvent => "this block needs an event to run in"
  | duplicateHandler => "duplicate handler: another block already handles this event"

end Disabled

/-- A block of a workspace. -/
structure Node where
  id : NodeId
  kind : Kind
  fields : SortedMap String FieldValue
  inputs : List Input
  parent : Option NodeId
  shadow : Bool
  disabled : Option Disabled
  mutation : Option Mutation
  deriving DecidableEq

namespace Node

/-- The value of a field. -/
def field? (n : Node) (name : String) : Option FieldValue := n.fields.get? name

/-- The first input with a name. -/
def input? (n : Node) (name : String) : Option Input := n.inputs.find? fun i => i.name == name

/-- The slot of the first input with a name. -/
def slot? (n : Node) (name : String) : Option Slot := (n.input? name).map (·.slot)

/-- The node that shows in a value input: the child, or else the shadow. -/
def valueTarget? (n : Node) (name : String) : Option NodeId :=
  match n.slot? name with
  | some (.value child shadow) => child <|> shadow
  | _ => none

/-- The sequence of a statement input, empty if there is no such input. -/
def statements (n : Node) (name : String) : List NodeId :=
  match n.slot? name with
  | some (.statements children) => children
  | _ => []

/-- The nodes that a node owns, in the order of its inputs. -/
def owned (n : Node) : List NodeId := n.inputs.flatMap fun i => i.slot.owned

/-- Changes the slot of the first input with a name. -/
def updateSlot (name : String) (f : Slot → Slot) : List Input → List Input
  | [] => []
  | i :: is =>
    if i.name == name then { i with slot := f i.slot } :: is else i :: updateSlot name f is

/-- The node with the slot of the first input with a name changed. -/
def withSlot (n : Node) (name : String) (f : Slot → Slot) : Node :=
  { n with inputs := updateSlot name f n.inputs }

end Node

end BlockText
