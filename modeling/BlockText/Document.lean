import BlockText.Json.Printer
import BlockText.Json.Reader
import BlockText.Workspace.Basic
import BlockText.Workspace.Error

/-!
# Documents

A document is a workspace to be kept: its roots, and its nodes in order of their ids. It is written
as JSON. A document that is read has to be consistent: slots and parent links agree, each node is
owned once or is a root, and none is left over.
-/

namespace BlockText

/-- Roots and nodes of a workspace. -/
structure Document where
  roots : List NodeId
  nodes : List Node

/-! ## Documents and workspaces -/

namespace Document

/-- The nodes of a list by their ids, which have to differ. -/
def collect : List Node → SortedMap NodeId Node → Except DocumentFault (SortedMap NodeId Node)
  | [], nodes => .ok nodes
  | n :: ns, nodes =>
    if nodes.contains n.id then .error (.nodeTwice n.id) else collect ns (nodes.insert n.id n)

/-- Checks the nodes that one node owns; `owned` are those that were owned before. -/
def checkOwned (nodes : SortedMap NodeId Node) (owner : NodeId) :
    List NodeId → List NodeId → Except DocumentFault (List NodeId)
  | [], owned => .ok owned
  | child :: children, owned =>
    match nodes.get? child with
    | none => .error (.missingChild owner child)
    | some n =>
      if n.parent = some owner ∧ child ∉ owned then checkOwned nodes owner children (child :: owned)
      else .error (.inconsistentParent child)

/-- Checks what some nodes own. The answer lists all that is owned. -/
def checkNodes (nodes : SortedMap NodeId Node) :
    List Node → List NodeId → Except DocumentFault (List NodeId)
  | [], owned => .ok owned
  | n :: ns, owned =>
    match checkOwned nodes n.id n.owned owned with
    | .ok owned => checkNodes nodes ns owned
    | .error f => .error f

/-- Checks that the roots are there and owned by none. -/
def checkRoots (nodes : SortedMap NodeId Node) (owned : List NodeId) :
    List NodeId → Except DocumentFault Unit
  | [] => .ok ()
  | root :: roots =>
    match nodes.get? root with
    | none => .error (.missingRoot root)
    | some n =>
      if n.parent = none ∧ root ∉ owned then checkRoots nodes owned roots
      else .error (.rootWithParent root)

/-- The id after the last. A document may have the very last id; then there is none after it, and no
edit of its workspace has an outcome in `Edit.run?`. -/
def nextId (nodes : SortedMap NodeId Node) : NodeId := (nodes.keys.getLast?.map (· + 1)).getD 0

/-- The workspace of a document. -/
def toWorkspace (d : Document) : Except DocumentFault Workspace := do
  let nodes ← collect d.nodes .empty
  let owned ← checkNodes nodes nodes.values []
  checkRoots nodes owned d.roots
  if owned.length + d.roots.length = nodes.size then return ⟨nodes, d.roots, nextId nodes⟩
  else throw .unreachableNodes

/-- The document of a workspace. -/
def ofWorkspace (w : Workspace) : Document := ⟨w.roots, w.nodes.values⟩

/-! ## Documents as JSON -/

/-- An id as a number. -/
def idJson (id : NodeId) : Json := .number (Decimal.digits id)

/-- An optional value; null if it is absent. -/
def optionJson {α : Type} (write : α → Json) : Option α → Json
  | some a => write a
  | none => .null

/-- A binary number. One that is not finite has no numeral. -/
def doubleJson (x : Double) : Json := if x.isFinite then .number x.documentText else .null

/-- A field value: its type and what it holds. -/
def fieldJson (value : FieldValue) : Json :=
  let (type, content) : String × Json := match value with
    | .number x => ("number", doubleJson x)
    | .text s => ("text", .text s)
    | .choice s => ("choice", .text s)
    | .bool b => ("bool", .bool b)
    | .bitmap b => ("bitmap", .list (b.val.map fun row => .list (row.map .bool)))
    | .var s => ("variable", .text s)
  .record [("type", .text type), ("value", content)]

/-- A slot by its sort. -/
def slotJson : Slot → Json
  | .value child shadow =>
    .record [("value",
      .record [("child", optionJson idJson child), ("shadow", optionJson idJson shadow)])]
  | .statements children => .record [("statement", .list (children.map idJson))]

/-- An input. -/
def inputJson (i : Input) : Json := .record [("name", .text i.name), ("slot", slotJson i.slot)]

/-- A mutation. -/
def mutationJson (m : Mutation) : Json :=
  .record [("elseif_count", .number (Decimal.digits m.elseIfs)), ("has_else", .bool m.hasElse)]

/-- A node. -/
def nodeJson (n : Node) : Json :=
  .record [
    ("id", idJson n.id),
    ("kind", .text n.kind.name),
    ("fields", .record (n.fields.entries.map fun f => (f.1, fieldJson f.2))),
    ("inputs", .list (n.inputs.map inputJson)),
    ("parent", optionJson idJson n.parent),
    ("shadow", .bool n.shadow),
    ("disabled", optionJson (fun d => .text d.name) n.disabled),
    ("mutation", optionJson mutationJson n.mutation)]

/-- A document. -/
def toJson (d : Document) : Json :=
  .record [("roots", .list (d.roots.map idJson)), ("nodes", .list (d.nodes.map nodeJson))]

/-! ## Documents from JSON -/

/-- The natural number that a JSON number is. -/
def nat? : Json → Option Nat
  | .number literal => (Numeral.ofLiteral? literal).bind Numeral.nat?
  | _ => none

/-- An id: a natural number of 32 bits. -/
def id? (j : Json) : Option NodeId := (nat? j).filter (· < NodeId.limit)

/-- A binary number. -/
def double? : Json → Option Double
  | .number literal => (Numeral.ofLiteral? literal).bind Numeral.double?
  | _ => none

/-- A picture: five lists of five truth values. -/
def bitmap? (j : Json) : Option Bitmap := (Json.list? (Json.list? Json.bool?) j).bind Bitmap.ofRows?

/-- A field value. -/
def field? (j : Json) : Option FieldValue :=
  match j.fields? ["type", "value"] 2 with
  | some [some type, some content] =>
    match type.name? with
    | some "number" => (double? content).map .number
    | some "text" => content.string?.map .text
    | some "choice" => content.string?.map .choice
    | some "bool" => content.bool?.map .bool
    | some "bitmap" => (bitmap? content).map .bitmap
    | some "variable" => content.string?.map .var
    | _ => none
  | _ => none

/-- A field with its name. -/
def member? : Option String × Json → Option (String × FieldValue)
  | (some name, content) => (field? content).map fun value => (name, value)
  | (none, _) => none

/-- The fields of a node; the last of several with one name counts. -/
def fieldsOf? : Json → Option (SortedMap String FieldValue)
  | .object members =>
    (members.mapM member?).map SortedMap.ofList
  | _ => none

/-- A slot. -/
def slot? : Json → Option Slot
  | .object [(some "value", content)] =>
    match content.fields? ["child", "shadow"] 2 with
    | some [child, shadow] => do
      return .value (← Json.optional? id? child) (← Json.optional? id? shadow)
    | _ => none
  | .object [(some "statement", content)] => (Json.list? id? content).map .statements
  | _ => none

/-- An input. -/
def input? (j : Json) : Option Input :=
  match j.fields? ["name", "slot"] 2 with
  | some [some name, some slot] => do return ⟨← name.string?, ← slot? slot⟩
  | _ => none

/-- A mutation. -/
def mutation? (j : Json) : Option Mutation :=
  match j.fields? ["elseif_count", "has_else"] 2 with
  | some [some count, some otherwise] => do return ⟨← nat? count, ← otherwise.bool?⟩
  | _ => none

/-- A reason for which a node is left out. -/
def disabled? (j : Json) : Option Disabled :=
  match j.name? with
  | some "needs_event" => some .needsEvent
  | some "duplicate_handler" => some .duplicateHandler
  | _ => none

/-- A node. Parent, flags and mutation may be left out. -/
def node? (j : Json) : Option Node :=
  match j.fields?
      ["id", "kind", "fields", "inputs", "parent", "shadow", "disabled", "mutation"] 5 with
  | some [some id, some kind, some fields, some inputs, parent, shadow, disabled, mutation] => do
    return {
      id := ← id? id
      kind := ← kind.name?.bind Kind.ofName?
      fields := ← fieldsOf? fields
      inputs := ← Json.list? input? inputs
      parent := ← Json.optional? id? parent
      shadow := ← shadow.elim (some false) Json.bool?
      disabled := ← Json.optional? disabled? disabled
      mutation := ← Json.optional? mutation? mutation }
  | _ => none

/-- A document. -/
def ofJson? (j : Json) : Option Document :=
  match j.fields? ["roots", "nodes"] 2 with
  | some [some roots, some nodes] => do
    return ⟨← Json.list? id? roots, ← Json.list? node? nodes⟩
  | _ => none

/-! ## Documents as text -/

/-- The text of a workspace's document. -/
def write (w : Workspace) : String := String.ofList ((ofWorkspace w).toJson.print 0)

/-- The workspace of a document's text. -/
def read (text : String) : Except EditError Workspace :=
  match (Json.read text.toList).bind ofJson? with
  | none => .error (.malformed .unreadable)
  | some d =>
    match d.toWorkspace with
    | .ok w => .ok w
    | .error f => .error (.malformed f)

end Document

end BlockText
