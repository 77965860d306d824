import BlockText.Block.Node

/-!
# Workspaces

A workspace holds the nodes by id and lists the top-level ones, the roots, in order. A node that is
no root is owned by a slot of its parent. Walks up follow parent links, walks down follow slots;
both are bounded by the number of nodes, which no walk in a forest exceeds.
-/

namespace BlockText

/-- The nodes by id, the roots in order, and the id that the next node takes. -/
structure Workspace where
  nodes : SortedMap NodeId Node := .empty
  roots : List NodeId := []
  nextId : NodeId := 0
  deriving DecidableEq

/-- Ids in ascending order. -/
def NodeId.sort : List NodeId → List NodeId
  | [] => []
  | id :: ids => place id (sort ids)
where
  /-- Puts an id before the first that is not smaller. -/
  place (id : NodeId) : List NodeId → List NodeId
    | [] => [id]
    | x :: xs => if id ≤ x then id :: x :: xs else x :: place id xs

namespace Workspace

instance : Inhabited Workspace := ⟨{}⟩

/-- The node with an id. -/
def get? (w : Workspace) (id : NodeId) : Option Node := w.nodes.get? id

/-- The number of nodes. -/
def size (w : Workspace) : Nat := w.nodes.size

/-- The kind of a node. -/
def kind? (w : Workspace) (id : NodeId) : Option Kind := (w.get? id).map (·.kind)

/-- The parent of a node. -/
def parent? (w : Workspace) (id : NodeId) : Option NodeId := (w.get? id).bind (·.parent)

/-! ## Walks -/

/-- The chain of parents from an id on, nearest first, at most `bound` of them. -/
def ancestorsUpTo (w : Workspace) : Nat → NodeId → List NodeId
  | 0, _ => []
  | bound + 1, id =>
    match w.parent? id with
    | none => []
    | some parent => parent :: ancestorsUpTo w bound parent

/-- The ancestors of a node, nearest first. -/
def ancestors (w : Workspace) (id : NodeId) : List NodeId := w.ancestorsUpTo (w.size + 1) id

/-- The topmost ancestor of a node; the node itself if it has no parent. -/
def rootOf (w : Workspace) (id : NodeId) : NodeId := (w.ancestors id).getLast?.getD id

/-- A node and what it owns, each before what it owns itself, down to a depth of `bound`. -/
def descendantsUpTo (w : Workspace) : Nat → NodeId → List NodeId
  | 0, _ => []
  | bound + 1, id =>
    match w.get? id with
    | none => []
    | some n => id :: n.owned.flatMap (descendantsUpTo w bound)

/-- A node and everything below it, each before what it owns itself. -/
def descendants (w : Workspace) (id : NodeId) : List NodeId := w.descendantsUpTo (w.size + 1) id

/-- Whether a node is a root. -/
def isTopLevel (w : Workspace) (id : NodeId) : Bool := w.roots.contains id

/-- The roots of a kind in order of creation. -/
def topLevelOf (w : Workspace) (kind : Kind) : List NodeId :=
  NodeId.sort (w.roots.filter fun id => w.kind? id = some kind)

/-! ## Changes of single parts -/

/-- Changes one node, if it is there. -/
def update (w : Workspace) (id : NodeId) (f : Node → Node) : Workspace :=
  { w with nodes := w.nodes.adjust id f }

/-- Puts a node under its id. -/
def put (w : Workspace) (n : Node) : Workspace := { w with nodes := w.nodes.insert n.id n }

/-- Sets or clears the reason for which a node is left out. -/
def setDisabled (w : Workspace) (id : NodeId) (reason : Option Disabled) : Workspace :=
  w.update id fun n => { n with disabled := reason }

/-- A slot without a node. -/
def dropFromSlot (id : NodeId) : Slot → Slot
  | .value child shadow =>
    .value (if child = some id then none else child) (if shadow = some id then none else shadow)
  | .statements children => .statements (children.filter (· ≠ id))

/-- A node with another node taken out of its slots. -/
def dropFromNode (id : NodeId) (n : Node) : Node :=
  { n with inputs := n.inputs.map fun i => { i with slot := dropFromSlot id i.slot } }

/-- Takes a node out of the slot of its parent, or out of the roots if it has no parent. -/
def unlink (w : Workspace) (id : NodeId) : Workspace :=
  let out :=
    match w.parent? id with
    | some parent => w.update parent (dropFromNode id)
    | none => { w with roots := w.roots.filter (· ≠ id) }
  out.update id fun n => { n with parent := none }

/-- Makes a node the last root. -/
def pushRoot (w : Workspace) (id : NodeId) : Workspace :=
  match w.get? id with
  | some _ => { w.update id fun n => { n with parent := none } with roots := w.roots ++ [id] }
  | none => w

/-- Removes nodes, from the roots too. -/
def remove (w : Workspace) (ids : List NodeId) : Workspace :=
  { w with
    nodes := ids.foldl (fun m id => m.erase id) w.nodes
    roots := w.roots.filter fun id => !ids.contains id }

/-- A value slot with another child in front of its shadow. -/
def childInSlot (child : NodeId) : Slot → Slot
  | .value _ shadow => .value (some child) shadow
  | slot => slot

/-- A value slot with another shadow. -/
def shadowInSlot (shadow : NodeId) : Slot → Slot
  | .value child _ => .value child (some shadow)
  | slot => slot

/-- A statement slot with one more node at a place, or at the end if the sequence is shorter. -/
def statementInSlot (place : Nat) (child : NodeId) : Slot → Slot
  | .statements children => .statements (children.insertIdx (min place children.length) child)
  | slot => slot

/-- Puts a node into a value slot in front of its shadow. -/
def setChild (w : Workspace) (parent : NodeId) (input : String) (child : NodeId) : Workspace :=
  (w.update parent fun n => n.withSlot input (childInSlot child)).update child
    fun n => { n with parent := some parent }

/-- Puts a node into a statement slot at a place, or at the end if the sequence is shorter. -/
def setStatement (w : Workspace) (parent : NodeId) (input : String) (place : Nat) (child : NodeId) :
    Workspace :=
  (w.update parent fun n => n.withSlot input (statementInSlot place child)).update child
    fun n => { n with parent := some parent }

/-- Puts a node at the end of a statement slot. -/
def appendStatement (w : Workspace) (parent : NodeId) (input : String) (child : NodeId) :
    Workspace :=
  w.setStatement parent input ((w.get? parent).elim 0 fun n => (n.statements input).length) child

/-- The shadow of a value slot. -/
def shadow? (w : Workspace) (parent : NodeId) (input : String) : Option NodeId :=
  match (w.get? parent).bind (·.slot? input) with
  | some (.value _ shadow) => shadow
  | _ => none

/-- Puts a node into a value slot as its shadow. The shadow before it is removed with all
below it. -/
def setShadow (w : Workspace) (parent : NodeId) (input : String) (child : NodeId) : Workspace :=
  let placed := w.update parent fun n => n.withSlot input (shadowInSlot child)
  let cleared :=
    match w.shadow? parent input with
    | some old => placed.remove (placed.descendants old)
    | none => placed
  cleared.update child fun n => { n with parent := some parent, shadow := true }

end Workspace

end BlockText
