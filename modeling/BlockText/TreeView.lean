import BlockText.Workspace.Basic

/-!
# Tree views

A workspace drawn as a tree: a line for each node with its fields and flags, and below it each input
with what it holds.
-/

namespace BlockText.TreeView

/-- The line of a node: kind and id, fields in order of their names, and what is special
about it. -/
def label (n : Node) : List Char :=
  n.kind.name.toList ++ ' ' :: n.id.shown.toList
    ++ (n.fields.entries.flatMap fun f => ' ' :: f.1.toList ++ '=' :: f.2.shown)
    ++ (if n.shadow then " (shadow)".toList else [])
    ++ (n.mutation.elim [] fun m => " [".toList ++ m.shown ++ [']'])
    ++ n.disabled.elim [] fun d => " [disabled: ".toList ++ d.message.toList ++ [']']

/-- The branch drawn before an entry. -/
def branch (last : Bool) : List Char := if last then "└─".toList else "├─".toList

/-- The lead of what stands below an entry. -/
def below (lead : List Char) (last : Bool) : List Char :=
  lead ++ if last then "  ".toList else "│ ".toList

/-- Draws entries one after the other, each told whether it is the last. -/
def entries {α β : Type} (draw : Bool → α → List β) : List α → List β
  | [] => []
  | [x] => draw true x
  | x :: y :: zs => draw false x ++ entries draw (y :: zs)

/-- The lines of the inputs of a node and of what they hold, to a depth of `bound`. -/
def inputs (w : Workspace) : Nat → List Char → Node → List (List Char)
  | 0, _, _ => []
  | bound + 1, lead, n =>
    entries (fun last (i : Input) =>
      (lead ++ branch last ++ ' ' :: i.name.toList) ::
        entries (fun lastChild id =>
          let line := below lead last ++ branch lastChild ++ [' ']
          match w.get? id with
          | some child =>
            (line ++ label child) :: inputs w bound (below (below lead last) lastChild) child
          | none => [line ++ "<missing ".toList ++ id.shown.toList ++ ['>']]) i.slot.owned) n.inputs

/-- The lines of the tree of a root. -/
def root (w : Workspace) (id : NodeId) : List (List Char) :=
  match w.get? id with
  | some n => label n :: inputs w (w.size + 1) [] n
  | none => []

/-- The lines of a tree view. -/
def lines (w : Workspace) : List (List Char) := w.roots.flatMap (root w)

/-- The characters of a tree view. -/
def chars (w : Workspace) : List Char := (lines w).flatMap fun line => line ++ ['\n']

/-- The tree view of a workspace. -/
def render (w : Workspace) : String := String.ofList (chars w)

end BlockText.TreeView
