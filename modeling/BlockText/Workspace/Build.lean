import BlockText.Block.Registry
import BlockText.Workspace.Basic
import BlockText.Workspace.Error

/-!
# Making nodes

A node is made from a blueprint: it takes an id, then its fields are filled, then its inputs are
built, and each input that has a default takes a shadow node for it. A node that is refused has
spent its id. Ids are given out here as if there were no last one: whether there were as many is
seen when an edit is over, in `Edit.run?`.
-/

namespace BlockText

namespace Workspace

/-- A node, which has to be there. -/
def node (w : Workspace) (id : NodeId) : Except EditError Node :=
  match w.get? id with
  | some n => .ok n
  | none => .error (.unknownNode id)

/-- The slot of an input, which has to be there. -/
def slot (w : Workspace) (id : NodeId) (input : String) : Except EditError Slot :=
  match w.node id with
  | .error e => .error e
  | .ok n =>
    match n.slot? input with
    | some s => .ok s
    | none => .error (.unknownInput id input)

/-- The fields of a shape at their defaults. -/
def defaultFields (s : Shape) : SortedMap String FieldValue :=
  .ofList (s.fields.map fun f => (f.name, f.default))

/-- Fields with some values put in, each of which its field has to accept. -/
def fillFields (s : Shape) (id : NodeId) :
    List (String × FieldValue) → SortedMap String FieldValue →
      Except EditError (SortedMap String FieldValue)
  | [], fields => .ok fields
  | (name, value) :: rest, fields =>
    match s.field? name with
    | none => .error (.unknownField id name)
    | some spec =>
      if spec.accepts value then fillFields s id rest (fields.insert name value)
      else .error (.invalidFieldValue id name)

/-- The empty inputs of a node. Each default is made with `make` and becomes a shadow of
the owner. -/
def buildInputs (make : Blueprint → Workspace → Workspace × Except EditError NodeId)
    (owner : NodeId) : List InputSpec → Workspace → Workspace × Except EditError (List Input)
  | [], w => (w, .ok [])
  | .statement name :: specs, w =>
    match buildInputs make owner specs w with
    | (w, .ok inputs) => (w, .ok (⟨name, .statements []⟩ :: inputs))
    | (w, .error e) => (w, .error e)
  | .value name _ none :: specs, w =>
    match buildInputs make owner specs w with
    | (w, .ok inputs) => (w, .ok (⟨name, .value none none⟩ :: inputs))
    | (w, .error e) => (w, .error e)
  | .value name _ (some shadow) :: specs, w =>
    match make ⟨shadow.kind, [(shadow.field, shadow.value)], none⟩ w with
    | (w, .error e) => (w, .error e)
    | (w, .ok id) =>
      match buildInputs make owner specs
          (w.update id fun n => { n with parent := some owner, shadow := true }) with
      | (w, .ok inputs) => (w, .ok (⟨name, .value none (some id)⟩ :: inputs))
      | (w, .error e) => (w, .error e)

/-- Makes a node whose shadows are nested at most `depth` deep. -/
def makeUpTo (r : Registry) : Nat → Blueprint → Workspace → Workspace × Except EditError NodeId
  | 0, b, w => (w, .error (.registry (.notFound b.kind.name)))
  | depth + 1, b, w =>
    match r.lookup b.kind with
    | .error e => (w, .error (.registry e))
    | .ok d =>
      let id := w.nextId
      let w := { w with nextId := id + 1 }
      match fillFields d.shape id b.fields (defaultFields d.shape) with
      | .error e => (w, .error e)
      | .ok fields =>
        let mutation := if d.shape.isBranching then some (b.mutation.getD {}) else none
        let w := w.put ⟨id, b.kind, fields, [], none, false, none, mutation⟩
        match buildInputs (makeUpTo r depth) id (d.shape.inputsFor mutation) w with
        | (w, .error e) => (w, .error e)
        | (w, .ok inputs) => (w.update id fun n => { n with inputs := inputs }, .ok id)

/-- Makes a node that is attached nowhere. Shadows nest no deeper than there are definitions. -/
def make (w : Workspace) (r : Registry) (b : Blueprint) : Workspace × Except EditError NodeId :=
  makeUpTo r (r.definitions.length + 1) b w

/-! ## Attaching a loose node

An attachment fills the slot first and looks for the node last, so the id of a node that is missing
stays in the slot. -/

/-- The end of an attachment: the node has to be there. -/
def arrive (w : Workspace) (child : NodeId) : Workspace × Except EditError Unit :=
  (w, (w.node child).map fun _ => ())

/-- Attaches a loose node as the child of a value input. -/
def linkValue (w : Workspace) (parent : NodeId) (input : String) (child : NodeId) :
    Workspace × Except EditError Unit :=
  match w.slot parent input with
  | .error e => (w, .error e)
  | .ok (.statements _) => (w, .error (.wrongSlot parent input .value))
  | .ok (.value _ _) => (w.setChild parent input child).arrive child

/-- Attaches a loose node as the shadow of a value input. -/
def linkShadow (w : Workspace) (parent : NodeId) (input : String) (child : NodeId) :
    Workspace × Except EditError Unit :=
  match w.node parent with
  | .error e => (w, .error e)
  | .ok n =>
    match n.slot? input with
    | some (.value _ _) => (w.setShadow parent input child).arrive child
    | _ => (w, .error (.wrongSlot parent input .value))

/-- Attaches a loose node to a statement input, at a place or at the end. -/
def linkStatement (w : Workspace) (parent : NodeId) (input : String) (place : Option Nat)
    (child : NodeId) : Workspace × Except EditError Unit :=
  match w.slot parent input with
  | .error e => (w, .error e)
  | .ok (.value _ _) => (w, .error (.wrongSlot parent input .statement))
  | .ok (.statements _) =>
    match place with
    | some place => (w.setStatement parent input place child).arrive child
    | none => (w.appendStatement parent input child).arrive child

end Workspace

end BlockText
