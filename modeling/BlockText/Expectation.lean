import BlockText.Workspace.Basic

/-!
# Expectations

What a workspace is expected to look like, as a list of checks that walk down its nodes. The first
check that does not hold is named, with the path to the node that was looked at.
-/

namespace BlockText

/-- What a node is expected to be. -/
inductive NodeCheck where
  | kind (expected : Kind)
  | field (name : String) (expected : FieldValue)
  | fieldText (name expected : String)
  | enabled
  | disabled (reason : Disabled)
  | shadow
  | notShadow
  | mutation (expected : Mutation)
  | statementCount (input : String) (expected : Nat)
  | statement (input : String) (index : Nat) (checks : List NodeCheck)
  | value (input : String) (checks : List NodeCheck)

/-- What a workspace is expected to be. -/
inductive TreeCheck where
  | rootCount (expected : Nat)
  | rootKinds (expected : List Kind)
  | root (index : Nat) (checks : List NodeCheck)

/-- What is wrong with a node. -/
inductive NodeFault where
  | missing (id : NodeId)
  | kind (expected actual : Kind)
  | field (name : String) (expected actual : FieldValue)
  | noField (kind : Kind) (name : String)
  | fieldText (name expected : String)
  | notEnabled (kind : Kind) (reason : Disabled)
  | notDisabled (kind : Kind)
  | realBlock (kind : Kind)
  | shadowBlock (kind : Kind)
  | mutation (expected : Mutation)
  | statementCount (expected : Nat) (input : String) (actual : Nat)
  | statementIndex (index : Nat) (input : String) (count : Nat)
  | emptyValue (input : String) (kind : Kind)
  deriving DecidableEq

/-- What is wrong with a workspace. -/
inductive TreeFault where
  | rootCount (expected actual : Nat) (kinds : List Kind)
  | rootKinds
  | rootIndex (index count : Nat)
  | node (path : String) (fault : NodeFault)
  deriving DecidableEq

/-- The word for a reason. -/
def Disabled.word : Disabled → String
  | needsEvent => "NeedsEvent"
  | duplicateHandler => "DuplicateHandler"

/-- What is said of a node that is not as expected. -/
def NodeFault.message : NodeFault → String
  | missing id => "node " ++ id.shown ++ " is missing from the workspace"
  | kind expected actual => "Expected " ++ expected.name ++ ", found " ++ actual.name
  | field name expected actual =>
    "Expected field " ++ name ++ " to be " ++ String.ofList expected.shown ++ ", but got "
      ++ String.ofList actual.shown
  | noField k name => k.name ++ " has no field " ++ name
  | fieldText name expected => "Expected field " ++ name ++ " to read '" ++ expected ++ "'"
  | notEnabled k reason =>
    "Expected " ++ k.name ++ " to be enabled, but it is disabled (Some(" ++ reason.word ++ "))"
  | notDisabled k => "Expected " ++ k.name ++ " to be disabled"
  | realBlock k => "Expected a shadow, found a real " ++ k.name
  | shadowBlock k => "Expected a real block, found a shadow " ++ k.name
  | mutation expected => "Expected mutation " ++ String.ofList expected.shown
  | statementCount expected input actual =>
    "Expected " ++ toString expected ++ " statements in " ++ input ++ ", found " ++ toString actual
  | statementIndex index input count =>
    "Statement index " ++ toString index ++ " out of bounds in " ++ input ++ " (" ++ toString count
      ++ " statements)"
  | emptyValue input k => "Value input " ++ input ++ " of " ++ k.name ++ " is empty"

/-- What is said of a workspace that is not as expected. -/
def TreeFault.message : TreeFault → String
  | rootCount expected actual kinds =>
    "Expected " ++ toString expected ++ " top-level blocks, found " ++ toString actual ++ ": ["
      ++ String.intercalate ", " (kinds.map Kind.name) ++ "]"
  | rootKinds => "Top-level block kinds differ"
  | rootIndex index count =>
    "Root index " ++ toString index ++ " out of bounds (" ++ toString count ++ " roots)"
  | node path fault => path ++ ": " ++ fault.message

/-- Refuses with a fault of the node at a path, unless a condition holds. -/
def expect (path : String) (holds : Bool) (fault : NodeFault) : Except TreeFault Unit :=
  if holds then .ok () else .error (.node path fault)

/-- The node at a path, which has to be there. -/
def nodeAt (w : Workspace) (path : String) (id : NodeId) : Except TreeFault Node :=
  match w.get? id with
  | some n => .ok n
  | none => .error (.node path (.missing id))

mutual

/-- Checks a node. -/
def NodeCheck.run (w : Workspace) (path : String) (n : Node) : NodeCheck → Except TreeFault Unit
  | .kind expected => expect path (n.kind = expected) (.kind expected n.kind)
  | .field name expected =>
    match n.field? name with
    | some actual => expect path (actual.sameValue expected) (.field name expected actual)
    | none => .error (.node path (.noField n.kind name))
  | .fieldText name expected =>
    expect path ((n.field? name).bind FieldValue.string? = some expected) (.fieldText name expected)
  | .enabled =>
    match n.disabled with
    | some reason => .error (.node path (.notEnabled n.kind reason))
    | none => .ok ()
  | .disabled reason => expect path (n.disabled = some reason) (.notDisabled n.kind)
  | .shadow => expect path n.shadow (.realBlock n.kind)
  | .notShadow => expect path (!n.shadow) (.shadowBlock n.kind)
  | .mutation expected => expect path (n.mutation = some expected) (.mutation expected)
  | .statementCount input expected =>
    let actual := (n.statements input).length
    expect path (actual = expected) (.statementCount expected input actual)
  | .statement input index checks =>
    match (n.statements input)[index]? with
    | none => .error (.node path (.statementIndex index input (n.statements input).length))
    | some id =>
      let below := path ++ ":" ++ input ++ "[" ++ toString index ++ "]"
      match nodeAt w below id with
      | .error e => .error e
      | .ok child => NodeCheck.runAll w below child checks
  | .value input checks =>
    match n.valueTarget? input with
    | none => .error (.node path (.emptyValue input n.kind))
    | some id =>
      let below := path ++ ":" ++ input
      match nodeAt w below id with
      | .error e => .error e
      | .ok child => NodeCheck.runAll w below child checks

/-- Checks a node until a check does not hold. -/
def NodeCheck.runAll (w : Workspace) (path : String) (n : Node) :
    List NodeCheck → Except TreeFault Unit
  | [] => .ok ()
  | check :: checks =>
    match check.run w path n with
    | .error e => .error e
    | .ok () => NodeCheck.runAll w path n checks

end

namespace TreeCheck

/-- Checks a workspace. -/
def run (w : Workspace) : TreeCheck → Except TreeFault Unit
  | rootCount expected =>
    if w.roots.length = expected then .ok ()
    else .error (.rootCount expected w.roots.length (w.roots.filterMap w.kind?))
  | rootKinds expected => if w.roots.filterMap w.kind? = expected then .ok () else .error .rootKinds
  | root index checks =>
    match w.roots[index]? with
    | none => .error (.rootIndex index w.roots.length)
    | some id =>
      let path := "roots[" ++ toString index ++ "]"
      match nodeAt w path id with
      | .error e => .error e
      | .ok n => NodeCheck.runAll w path n checks

/-- Checks a workspace until a check does not hold. -/
def runAll (w : Workspace) : List TreeCheck → Except TreeFault Unit
  | [] => .ok ()
  | check :: checks =>
    match check.run w with
    | .error e => .error e
    | .ok () => runAll w checks

end TreeCheck

end BlockText
