import BlockText.Workspace.Build
import BlockText.Workspace.Event

/-!
# Edits

An edit checks its arguments, changes the workspace and fires the events that describe the change.
What an edit did before it was refused stays done, so every edit answers with a workspace.
-/

namespace BlockText

/-- The outcome of an edit: the workspace after it, its answer or the cause of its refusal, and the
events it fired. -/
structure Edited (α : Type) where
  workspace : Workspace
  answer : Except EditError α
  events : List Event := []

namespace Edited

/-- An edit that is refused. It fires nothing. -/
def refused {α : Type} (w : Workspace) (e : EditError) : Edited α := ⟨w, .error e, []⟩

/-- An edit that ends with an attachment, and fires its events if the attachment succeeds. -/
def attached : Workspace × Except EditError Unit → List Event → Edited Unit
  | (w, .ok ()), events => ⟨w, .ok (), events⟩
  | (w, .error e), _ => .refused w e

/-- A change of the answer. -/
def map {α β : Type} (f : α → β) (e : Edited α) : Edited β :=
  ⟨e.workspace, e.answer.map f, e.events⟩

theorem answer_map_eq_ok {α β : Type} {f : α → β} {e : Edited α} {b : β} :
    (e.map f).answer = .ok b ↔ ∃ a, e.answer = .ok a ∧ f a = b := by
  cases he : e.answer <;> simp [map, he, Except.map]

end Edited

namespace Workspace

/-! ## Making and removing -/

/-- Makes a node as the last root. -/
def create (w : Workspace) (r : Registry) (b : Blueprint) : Edited NodeId :=
  match w.make r b with
  | (w, .error e) => .refused w e
  | (w, .ok id) => ⟨{ w with roots := w.roots ++ [id] }, .ok id, [.created id b.kind]⟩

/-- Removes a node with all below it. The answer lists what is gone. -/
def delete (w : Workspace) (id : NodeId) : Edited (List NodeId) :=
  match w.node id with
  | .error e => .refused w e
  | .ok n =>
    if n.shadow then .refused w (.shadowEdit id)
    else
      let loose := w.unlink id
      let doomed := loose.descendants id
      ⟨loose.remove doomed, .ok doomed, [.deleted doomed]⟩

/-! ## Moving -/

/-- Whether a node may move under another: both have to be there, a shadow stays where it is, and no
node goes below itself. -/
def checkMovable (w : Workspace) (child parent : NodeId) : Except EditError Node :=
  match w.node child with
  | .error e => .error e
  | .ok n =>
    match w.node parent with
    | .error e => .error e
    | .ok _ =>
      if n.shadow then .error (.shadowEdit child)
      else if child = parent ∨ child ∈ w.ancestors parent then .error (.cycle child parent)
      else .ok n

/-- Whether a node may go into an input that takes certain roles. -/
def checkMove (w : Workspace) (r : Registry) (takes : Role → Bool) (parent : NodeId)
    (input : String) (child : NodeId) : Except EditError Slot :=
  match w.checkMovable child parent with
  | .error e => .error e
  | .ok n =>
    match r.lookup n.kind with
    | .error e => .error (.registry e)
    | .ok d =>
      if takes d.shape.role then w.slot parent input else .error (.incompatible child input)

/-- Moves a node to the end of the roots. -/
def moveToTop (w : Workspace) (id : NodeId) : Workspace :=
  let loose := w.unlink id
  { loose with roots := loose.roots ++ [id] }

/-- Moves a node into a value input. The child that was there moves to the top level. -/
def connectValue (w : Workspace) (r : Registry) (parent : NodeId) (input : String)
    (child : NodeId) : Edited Unit :=
  match w.checkMove r Role.isValue parent input child with
  | .error e => .refused w e
  | .ok (.statements _) => .refused w (.wrongSlot parent input .value)
  | .ok (.value none _) =>
    .attached ((w.unlink child).linkValue parent input child)
      [.reconnected child (some (parent, input))]
  | .ok (.value (some displaced) _) =>
    .attached (((w.unlink child).moveToTop displaced).linkValue parent input child)
      [.reconnected displaced none, .reconnected child (some (parent, input))]

/-- Moves a node into a statement input at a place, or at the end if the sequence is shorter. -/
def insertStatement (w : Workspace) (r : Registry) (parent : NodeId) (input : String) (place : Nat)
    (child : NodeId) : Edited Unit :=
  match w.checkMove r (· = .statement) parent input child with
  | .error e => .refused w e
  | .ok (.value _ _) => .refused w (.wrongSlot parent input .statement)
  | .ok (.statements _) =>
    .attached ((w.unlink child).linkStatement parent input (some place) child)
      [.reconnected child (some (parent, input))]

/-- Moves a node to the end of a statement input. The input is looked up before the node. -/
def pushStatement (w : Workspace) (r : Registry) (parent : NodeId) (input : String)
    (child : NodeId) : Edited Unit :=
  match w.slot parent input with
  | .error e => .refused w e
  | .ok slot => w.insertStatement r parent input slot.owned.length child

/-- Moves a node to the end of the roots. A root stays where it is. -/
def detach (w : Workspace) (id : NodeId) : Edited Unit :=
  match w.node id with
  | .error e => .refused w e
  | .ok n =>
    if n.shadow then .refused w (.shadowEdit id)
    else if n.parent = none then ⟨w, .ok (), []⟩
    else ⟨w.moveToTop id, .ok (), [.reconnected id none]⟩

/-! ## Fields and whole contents -/

/-- Changes a field of a node. The value that is there already is no change. -/
def setField (w : Workspace) (r : Registry) (id : NodeId) (field : String) (value : FieldValue) :
    Edited Unit :=
  match w.node id with
  | .error e => .refused w e
  | .ok n =>
    match r.lookup n.kind with
    | .error e => .refused w (.registry e)
    | .ok d =>
      match d.shape.field? field with
      | none => .refused w (.unknownField id field)
      | some spec =>
        if spec.accepts value then
          if (n.field? field).any (·.sameValue value) then ⟨w, .ok (), []⟩
          else
            ⟨w.update id fun n => { n with fields := n.fields.insert field value }, .ok (),
              [.fieldChanged id field]⟩
        else .refused w (.invalidFieldValue id field)

/-- Takes over the contents of another workspace. -/
def replace (contents : Workspace) : Edited Nat :=
  ⟨contents, .ok contents.roots.length, [.replaced contents.roots.length]⟩

end Workspace

end BlockText
