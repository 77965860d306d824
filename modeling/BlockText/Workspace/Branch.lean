import BlockText.Workspace.Edit

/-!
# Branches of a conditional

A change of a conditional's mutation gives it fresh inputs. What hung on a branch that stays moves
to the place of that branch; what hung on a branch that goes moves to the top level, except for the
default of its condition, which is removed. Last comes a look whether each node that stays has
arrived, and one that has not moves to the top level too. Whether the branches can be counted is
seen to in `Edit.run?`.
-/

namespace BlockText

/-- What hangs on a branch of a conditional. -/
structure Branch where
  condition : Option NodeId
  shadow : Option NodeId
  body : List NodeId

/-- A move of a node that hung on a conditional. -/
inductive Move where
  /-- Into an input as its default. -/
  | shadow (input : String) (id : NodeId)
  /-- Into an input as its child. -/
  | value (input : String) (id : NodeId)
  /-- To the end of a statement input. -/
  | statement (input : String) (id : NodeId)
  /-- To the top level. -/
  | release (id : NodeId)
  /-- Out of the workspace, with all below it. -/
  | discard (id : NodeId)

namespace Move

/-- The node that moves. -/
def node : Move → NodeId
  | shadow _ id | value _ id | statement _ id | release id | discard id => id

/-- A real node that stays, and the input it goes to. -/
def survivor? : Move → Option (NodeId × String)
  | value input id | statement input id => some (id, input)
  | shadow _ _ | release _ | discard _ => none

/-- A node that goes to the top level. -/
def released? : Move → Option NodeId
  | release id => some id
  | shadow _ _ | value _ _ | statement _ _ | discard _ => none

end Move

/-- The moves of what hangs on a branch: to the place of a branch, or away from the conditional. -/
def Branch.moves (b : Branch) : Option Nat → List Move
  | some place =>
    b.shadow.toList.map (.shadow (Conditional.condition place)) ++
      (b.condition.toList.map (.value (Conditional.condition place)) ++
        b.body.map (.statement (Conditional.body place)))
  | none => b.shadow.toList.map .discard ++ (b.condition.toList.map .release ++ b.body.map .release)

namespace Node

/-- A branch of a conditional. -/
def branch (n : Node) (i : Nat) : Branch :=
  match n.slot? (Conditional.condition i) with
  | some (.value child shadow) => ⟨child, shadow, n.statements (Conditional.body i)⟩
  | _ => ⟨none, none, n.statements (Conditional.body i)⟩

/-- The moves of what hangs on a conditional whose mutation changes. The branches move as `place`
says, and `keep` says whether the body of an `else` stays. -/
def moves (n : Node) (old target : Mutation) (place : Nat → Option Nat) (keep : Bool) : List Move :=
  (List.range old.branches).flatMap (fun i =>
    (n.branch i).moves ((place i).filter (· < target.branches))) ++
  (n.statements Conditional.otherwise).map
    (if keep && target.hasElse then .statement Conditional.otherwise else .release)

end Node

namespace Workspace

/-- Makes one move of a node that hung on a conditional. -/
def move (w : Workspace) (id : NodeId) : Move → Workspace × Except EditError Unit
  | .shadow input child => w.linkShadow id input child
  | .value input child => w.linkValue id input child
  | .statement input child => w.linkStatement id input none child
  | .release child => (w.pushRoot child, .ok ())
  | .discard child => (w.remove (w.descendants child), .ok ())

/-- Makes moves up to the first that is refused. -/
def moveAll (id : NodeId) : List Move → Workspace → Workspace × Except EditError Unit
  | [], w => (w, .ok ())
  | m :: ms, w =>
    match w.move id m with
    | (w, .error e) => (w, .error e)
    | (w, .ok ()) => moveAll id ms w

/-- Whether a node stands in an input. -/
def stands (w : Workspace) (id child : NodeId) (input : String) : Bool :=
  w.parent? child == some id &&
    ((w.get? id).bind (·.slot? input)).any fun s => s.owned.contains child

/-- Moves the nodes that do not stand where they should to the top level. The answer lists them. -/
def rescue (id : NodeId) : List (NodeId × String) → Workspace → Workspace × List NodeId
  | [], w => (w, [])
  | (child, input) :: rest, w =>
    if w.stands id child input then rescue id rest w
    else
      let (w, lost) := rescue id rest ((w.unlink child).pushRoot child)
      (w, child :: lost)

/-- The mutation of a conditional. -/
def mutation (w : Workspace) (id : NodeId) : Except EditError Mutation :=
  match w.node id with
  | .error e => .error e
  | .ok n =>
    match n.mutation with
    | some m => .ok m
    | none => .error (.notConditional id)

/-- Changes the mutation of a conditional. The branches move as `place` says, and `keep` says
whether the body of an `else` stays. The answer lists what moved to the top level. -/
def changeShape (w : Workspace) (r : Registry) (id : NodeId) (target : Mutation)
    (place : Nat → Option Nat) (keep : Bool) : Edited (List NodeId) :=
  match w.node id with
  | .error e => .refused w e
  | .ok n =>
    match n.mutation with
    | none => .refused w (.notConditional id)
    | some old =>
      if old = target then ⟨w, .ok [], []⟩
      else
        match r.lookup n.kind with
        | .error e => .refused w (.registry e)
        | .ok d =>
          if d.shape.isBranching then
            match buildInputs (fun b w => w.make r b) id (d.shape.inputsFor (some target)) w with
            | (w, .error e) => .refused w e
            | (w, .ok inputs) =>
              let bare := w.update id fun n => { n with inputs := inputs, mutation := some target }
              let moves := n.moves old target place keep
              match moveAll id moves bare with
              | (w, .error e) => .refused w e
              | (w, .ok ()) =>
                let (w, lost) := rescue id (moves.filterMap Move.survivor?) w
                let loose := moves.filterMap Move.released? ++ lost
                ⟨w, .ok loose, [.shapeChanged id old target loose]⟩
          else .refused w (.notConditional id)

/-- Adds a branch after the last. -/
def addBranch (w : Workspace) (r : Registry) (id : NodeId) : Edited (List NodeId) :=
  match w.mutation id with
  | .error e => .refused w e
  | .ok m => w.changeShape r id { m with elseIfs := m.elseIfs + 1 } some true

/-- Removes a branch other than the first. Those after it move up by one. -/
def removeBranch (w : Workspace) (r : Registry) (id : NodeId) (index : Nat) :
    Edited (List NodeId) :=
  match w.mutation id with
  | .error e => .refused w e
  | .ok m =>
    if index = 0 ∨ m.elseIfs < index then .refused w (.branchOutOfRange id index m.branches)
    else
      w.changeShape r id { m with elseIfs := m.elseIfs - 1 }
        (fun i => if i < index then some i else if i = index then none else some (i - 1)) true

/-- Adds an `else`. -/
def addElse (w : Workspace) (r : Registry) (id : NodeId) : Edited (List NodeId) :=
  match w.mutation id with
  | .error e => .refused w e
  | .ok m =>
    if m.hasElse then .refused w (.elseExists id)
    else w.changeShape r id { m with hasElse := true } some true

/-- Removes the `else`. -/
def removeElse (w : Workspace) (r : Registry) (id : NodeId) : Edited (List NodeId) :=
  match w.mutation id with
  | .error e => .refused w e
  | .ok m =>
    if m.hasElse then w.changeShape r id { m with hasElse := false } some false
    else .refused w (.noElse id)

/-- Goes straight to a mutation. The leading branches stay, and so does the `else` if both
have one. -/
def reshape (w : Workspace) (r : Registry) (id : NodeId) (target : Mutation) :
    Edited (List NodeId) :=
  match w.mutation id with
  | .error e => .refused w e
  | .ok m =>
    w.changeShape r id target (fun i => if i < target.branches then some i else none)
      (m.hasElse && target.hasElse)

end Workspace

end BlockText
