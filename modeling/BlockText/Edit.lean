import BlockText.Document
import BlockText.Workspace.Branch

/-!
# Edits as data

Every edit of a workspace as a value, so that a history of edits is a list. Kinds are given by name,
and a name without a definition refuses the edit.

An edit counts in two places: it gives out ids, which have 32 bits, and it counts branches, for
which there are 64 bits. `run` counts on whatever happens; `run?` is the edit as it can be made, and
has no outcome if a count went past its end. Ids are not given back within an edit, so it is enough
to look at the next one when the edit is over.
-/

namespace BlockText

/-- An edit with its arguments. -/
inductive Edit where
  | create (kind : String) (fields : List (String × FieldValue)) (mutation : Option Mutation)
  | connectValue (parent : NodeId) (input : String) (child : NodeId)
  | pushStatement (parent : NodeId) (input : String) (child : NodeId)
  | insertStatement (parent : NodeId) (input : String) (place : Nat) (child : NodeId)
  | detach (node : NodeId)
  | delete (node : NodeId)
  | setField (node : NodeId) (field : String) (value : FieldValue)
  | addBranch (node : NodeId)
  | removeBranch (node : NodeId) (index : Nat)
  | addElse (node : NodeId)
  | removeElse (node : NodeId)
  | reshape (node : NodeId) (target : Mutation)
  /-- Takes over the contents of a document. -/
  | load (document : String)

/-- What an edit answers. -/
inductive Answer where
  | done
  | node (id : NodeId)
  | nodes (ids : List NodeId)
  | count (n : Nat)
  deriving DecidableEq

namespace Edit

/-- Makes a node of the kind with a name as the last root. -/
def createNamed (w : Workspace) (r : Registry) (name : String) (fields : List (String × FieldValue))
    (mutation : Option Mutation) : Edited NodeId :=
  match r.lookupName name with
  | .error e => .refused w (.registry e)
  | .ok d => w.create r ⟨d.kind, fields, mutation⟩

/-- Takes over the contents of a document, if it can be read. -/
def loadDocument (w : Workspace) (text : String) : Edited Nat :=
  match Document.read text with
  | .error e => .refused w e
  | .ok contents => Workspace.replace contents

/-- Runs an edit, counting without an end. -/
def run (r : Registry) (w : Workspace) : Edit → Edited Answer
  | create kind fields mutation => (createNamed w r kind fields mutation).map .node
  | connectValue parent input child => (w.connectValue r parent input child).map fun _ => .done
  | pushStatement parent input child => (w.pushStatement r parent input child).map fun _ => .done
  | insertStatement parent input place child =>
    (w.insertStatement r parent input place child).map fun _ => .done
  | detach node => (w.detach node).map fun _ => .done
  | delete node => (w.delete node).map .nodes
  | setField node field value => (w.setField r node field value).map fun _ => .done
  | addBranch node => (w.addBranch r node).map .nodes
  | removeBranch node index => (w.removeBranch r node index).map .nodes
  | addElse node => (w.addElse r node).map .nodes
  | removeElse node => (w.removeElse r node).map .nodes
  | reshape node target => (w.reshape r node target).map .nodes
  | load document => (loadDocument w document).map .count

/-- The mutation of a node, if it has one. -/
def mutations (w : Workspace) (node : NodeId) : List Mutation :=
  match w.mutation node with
  | .error _ => []
  | .ok m => [m]

/-- The mutations whose branches an edit counts: that of a conditional to be made, or those that a
conditional has and gets. -/
def counted (r : Registry) (w : Workspace) : Edit → List Mutation
  | create kind _ mutation =>
    match r.lookupName kind with
    | .error _ => []
    | .ok d => if d.shape.isBranching then mutation.toList else []
  | addBranch node => (mutations w node).map fun m => { m with elseIfs := m.elseIfs + 1 }
  | removeBranch node _ | addElse node | removeElse node => mutations w node
  | reshape node target => (mutations w node).flatMap fun m => [m, target]
  | _ => []

/-- Runs an edit whose counts have an end. It has no outcome if there are more branches than can be
counted, or if no id is left for the next node. -/
def run? (r : Registry) (w : Workspace) (e : Edit) : Option (Edited Answer) :=
  if (e.counted r w).all Mutation.isCountable then
    let done := e.run r w
    if done.workspace.nextId < NodeId.limit then some done else none
  else none

theorem run?_eq_some {r : Registry} {w : Workspace} {e : Edit} {done : Edited Answer} :
    e.run? r w = some done ↔ (∀ m ∈ e.counted r w, m.isCountable = true) ∧
      (e.run r w).workspace.nextId < NodeId.limit ∧ e.run r w = done := by
  unfold run?
  rw [← List.all_eq_true]
  split
  · next h =>
    dsimp only
    split
    · next hlt => simp [h, hlt]
    · next hlt => simp [hlt]
  · next h => simp [h]

end Edit

end BlockText
