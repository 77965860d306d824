import BlockText.Workspace.Edit

/-!
# Rules

What single blocks cannot say of a workspace: some kinds run only below the root of an event, of
some kinds there may be one root, and of some handlers there may be one for each value of a field.
The rules never refuse a workspace. They correct it, and say so in notices.
-/

namespace BlockText

/-- Handlers of a kind have to differ in a field. -/
structure HandlerRule where
  kind : Kind
  field : String
  deriving DecidableEq

/-- Which kinds start an event, run only below one, may be root once, and have to differ. -/
structure Rules where
  eventRoots : List Kind
  gated : List Kind
  singletons : List Kind
  uniqueHandlers : List HandlerRule

/-- What the rules did to a workspace: the nodes removed and the nodes left out, and a notice of
each correction. -/
structure Correction where
  notices : List String
  removed : List NodeId
  disabled : List NodeId

namespace Rules

/-- The usual rules. -/
def standard : Rules where
  eventRoots := [.onStart, .forever, .onButtonPressed, .onGesture]
  gated := [.showNumber, .showIcon, .showLeds, .clearScreen, .pause, .displayShow, .plot, .unplot,
    .playTone]
  singletons := [.onStart]
  uniqueHandlers := [⟨.onButtonPressed, "BUTTON"⟩, ⟨.onGesture, "GESTURE"⟩]

/-- Whether a kind runs only below the root of an event. -/
def isGated (rules : Rules) (kind : Kind) : Bool := rules.gated.contains kind

/-- Whether a kind starts an event. -/
def isEventRoot (rules : Rules) (kind : Kind) : Bool := rules.eventRoots.contains kind

/-- Whether a node may run: its kind is not gated, or its topmost ancestor starts an event. -/
def isEnabled (rules : Rules) (w : Workspace) (id : NodeId) : Bool :=
  match w.get? id with
  | none => false
  | some n =>
    if rules.isGated n.kind then
      let root := w.rootOf id
      root != id && (w.kind? root).any rules.isEventRoot
    else true

/-! ## Gating -/

/-- The flag of a node after gating. A duplicate handler keeps its flag. -/
def gatedFlag (rules : Rules) (w : Workspace) (n : Node) : Option Disabled :=
  if n.disabled = some .duplicateHandler then n.disabled
  else if rules.isEnabled w n.id then none
  else some .needsEvent

/-- Sets the flag of every node anew. -/
def gate (rules : Rules) (w : Workspace) : Workspace :=
  { w with nodes := w.nodes.map fun _ n => { n with disabled := rules.gatedFlag w n } }

/-! ## One root of a kind -/

/-- The ending of a noun that goes with a number. -/
def plural (n : Nat) : String := if n = 1 then "" else "s"

/-- Deletes nodes one after the other, leaving those that cannot be deleted. -/
def deleteAll : List NodeId → Workspace → Edited (List NodeId)
  | [], w => ⟨w, .ok [], []⟩
  | id :: ids, w =>
    let first := w.delete id
    let rest := deleteAll ids first.workspace
    ⟨rest.workspace, rest.answer.map (first.answer.toOption.getD [] ++ ·),
      first.events ++ rest.events⟩

/-- Workspace, removed nodes, notices and events after a step of the rules. -/
structure Pruned where
  workspace : Workspace
  removed : List NodeId := []
  notices : List String := []
  events : List Event := []

/-- Deletes all roots of a kind but the first made. -/
def pruneKind (p : Pruned) (kind : Kind) : Pruned :=
  match p.workspace.topLevelOf kind with
  | _ :: extra :: more =>
    let gone := deleteAll (extra :: more) p.workspace
    let count := more.length + 1
    { workspace := gone.workspace
      removed := p.removed ++ gone.answer.toOption.getD []
      notices := p.notices ++ ["only one '" ++ kind.name ++ "' block is allowed: " ++ toString count
        ++ " duplicate" ++ plural count ++ " removed"]
      events := p.events ++ gone.events }
  | _ => p

/-- Deletes all roots of some kinds but the first made of each. -/
def prune (kinds : List Kind) (w : Workspace) : Pruned :=
  (Kind.ordered kinds).foldl pruneKind ⟨w, [], [], []⟩

/-! ## Handlers -/

/-- What a handler handles: a field as it is shown, or nothing if there is no such field. -/
def discriminant (w : Workspace) (field : String) (id : NodeId) : String :=
  match (w.get? id).bind (·.field? field) with
  | some value => String.ofList value.shown
  | none => ""

/-- The roots of a kind by what they handle. -/
def handlers (w : Workspace) (rule : HandlerRule) : SortedMap String (List NodeId) :=
  (w.topLevelOf rule.kind).foldl
    (fun groups id =>
      let key := discriminant w rule.field id
      groups.insert key ((groups.get? key).getD [] ++ [id])) .empty

/-- Handlers of one thing: the first is no duplicate, the others are. -/
def flagGroup (w : Workspace) : List NodeId → Workspace
  | [] => w
  | first :: others =>
    let kept :=
      if (w.get? first).bind (·.disabled) = some .duplicateHandler then w.setDisabled first none
      else w
    others.foldl (fun w id => w.setDisabled id (some .duplicateHandler)) kept

/-- Flags the handlers that handle what an earlier one handles. The answer lists them, with a notice
if there are any. -/
def flagHandlers (w : Workspace) (rule : HandlerRule) : Workspace × List NodeId × Option String :=
  let groups := (handlers w rule).values
  let duplicates := groups.flatMap (·.drop 1)
  let notice :=
    if duplicates.isEmpty then none
    else some (toString duplicates.length ++ " duplicate '" ++ rule.kind.name ++ "' handler"
      ++ plural duplicates.length ++ " disabled")
  (groups.foldl flagGroup w, duplicates, notice)

/-- No node flagged as a duplicate handler. -/
def clearDuplicates (w : Workspace) : Workspace :=
  { w with nodes := w.nodes.map fun _ n =>
      { n with disabled := if n.disabled = some .duplicateHandler then none else n.disabled } }

/-- Flags the handlers for each of some rules in turn, with the notices. -/
def flagAll : List HandlerRule → Workspace → Workspace × List String
  | [], w => (w, [])
  | rule :: rules, w =>
    let (flaggedOnce, _, notice) := flagHandlers w rule
    let (done, notices) := flagAll rules flaggedOnce
    (done, notice.toList ++ notices)

/-! ## All rules -/

/-- Applies all rules: single roots, then handlers, then gating. -/
def normalize (rules : Rules) (w : Workspace) : Edited Correction :=
  let pruned := prune rules.singletons w
  let (flaggedAll, notices) := flagAll rules.uniqueHandlers (clearDuplicates pruned.workspace)
  let done := rules.gate flaggedAll
  { workspace := done
    answer := .ok ⟨pruned.notices ++ notices, pruned.removed,
      done.nodes.keys.filter fun id => ((done.get? id).bind (·.disabled)).isSome⟩
    events := pruned.events }

end Rules

end BlockText
