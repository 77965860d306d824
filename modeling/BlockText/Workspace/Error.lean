import BlockText.Block.Definition

/-!
# Refusals

The causes for which an edit or a document is refused, and what is said of each.
-/

namespace BlockText

/-- What is wrong with a document. -/
inductive DocumentFault where
  /-- The text is no document at all. -/
  | unreadable
  | nodeTwice (id : NodeId)
  | missingChild (node child : NodeId)
  | inconsistentParent (child : NodeId)
  | missingRoot (root : NodeId)
  | rootWithParent (root : NodeId)
  | unreachableNodes
  deriving DecidableEq

/-- What is said of a faulty document. -/
def DocumentFault.message : DocumentFault → String
  | unreadable => "the text is not a workspace"
  | nodeTwice id => "node " ++ id.shown ++ " appears twice"
  | missingChild node child => node.shown ++ " refers to missing " ++ child.shown
  | inconsistentParent child => child.shown ++ " has an inconsistent parent"
  | missingRoot root => "root " ++ root.shown ++ " is missing"
  | rootWithParent root => "root " ++ root.shown ++ " has a parent"
  | unreachableNodes => "some nodes are unreachable"

/-- The two sorts of slots. -/
inductive SlotSort where
  | value
  | statement
  deriving DecidableEq

/-- The word for a sort of slot. -/
def SlotSort.name : SlotSort → String
  | value => "value"
  | statement => "statement"

/-- Why an edit is refused. -/
inductive EditError where
  | unknownNode (node : NodeId)
  | unknownInput (node : NodeId) (input : String)
  | wrongSlot (node : NodeId) (input : String) (expected : SlotSort)
  | unknownField (node : NodeId) (field : String)
  | invalidFieldValue (node : NodeId) (field : String)
  | shadowEdit (node : NodeId)
  | incompatible (child : NodeId) (input : String)
  | cycle (child parent : NodeId)
  | notConditional (node : NodeId)
  | branchOutOfRange (node : NodeId) (index branches : Nat)
  | elseExists (node : NodeId)
  | noElse (node : NodeId)
  | malformed (fault : DocumentFault)
  | registry (cause : RegistryError)
  deriving DecidableEq

/-- What is said of a refused edit. -/
def EditError.message : EditError → String
  | unknownNode node => "node " ++ node.shown ++ " does not exist"
  | unknownInput node input => "node " ++ node.shown ++ " has no input named '" ++ input ++ "'"
  | wrongSlot node input expected =>
    "input '" ++ input ++ "' of node " ++ node.shown ++ " is not a " ++ expected.name ++ " input"
  | unknownField node field => "node " ++ node.shown ++ " has no field named '" ++ field ++ "'"
  | invalidFieldValue node field =>
    "value is not valid for field '" ++ field ++ "' of node " ++ node.shown
  | shadowEdit node => "node " ++ node.shown ++ " is a shadow and cannot be edited directly"
  | incompatible child input =>
    "node " ++ child.shown ++ " cannot be connected to '" ++ input ++ "': incompatible output"
  | cycle child parent =>
    "connecting node " ++ child.shown ++ " under " ++ parent.shown ++ " would create a cycle"
  | notConditional node => "node " ++ node.shown ++ " is not a conditional"
  | branchOutOfRange node index branches =>
    "node " ++ node.shown ++ " has no removable branch " ++ toString index ++ " (branches: "
      ++ toString branches ++ ")"
  | elseExists node => "node " ++ node.shown ++ " already has an else branch"
  | noElse node => "node " ++ node.shown ++ " has no else branch"
  | malformed fault => "malformed workspace document: " ++ fault.message
  | registry cause => cause.message

end BlockText
