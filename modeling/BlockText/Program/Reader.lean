import BlockText.Program.Outline
import BlockText.Setup

/-!
# Reading a program

Each level of the outline is read unit by unit. The rest of a level is spelled as text, with a mark
in place of each block, and the first statement idiom that fits its front takes the lines it spans.
The sources of value inputs are read as expressions, the blocks as levels of their own. A literal
that is written where the default is of its kind becomes the default. Last come the rules.
-/

namespace BlockText.Program

/-! ## Expressions -/

/-- Whether a node is a literal of the kind that an input has as its default. -/
def isDefault (w : Workspace) (parent : NodeId) (input : String) (child : NodeId) : Bool :=
  match w.get? child with
  | none => false
  | some n => n.inputs.isEmpty && ((w.shadow? parent input).bind w.kind?) == some n.kind

/-- Attaches a value that was read: as the default if it is one, as the child otherwise. -/
def attach (w : Workspace) (line : Nat) (parent : NodeId) (input : String) (source : List Char)
    (child : NodeId) : Except Failure Workspace :=
  match
    if isDefault w parent input child then w.linkShadow parent input child
    else w.linkValue parent input child with
  | (w, .ok ()) => .ok w
  | (_, .error e) => .error ⟨line, source, .misplaced e⟩

/-- Reads sources with `read` and attaches each to its input; `lineOf` says on which line each
stands. -/
def attachAll (read : Nat → List Char → Workspace → Except Failure (Workspace × NodeId))
    (lineOf : List Char → Nat) (parent : NodeId) :
    List (String × List Char) → Workspace → Except Failure Workspace
  | [], w => .ok w
  | (input, source) :: rest, w => do
    let line := lineOf source
    let (w, child) ← read line source w
    let w ← attach w line parent input source child
    attachAll read lineOf parent rest w

/-- Reads an expression whose operands are nested at most `depth` deep. -/
def readExpressionUpTo (r : Registry) :
    Nat → Nat → List Char → Workspace → Except Failure (Workspace × NodeId)
  | 0, line, source, _ => .error ⟨line, source, .unsupportedExpression⟩
  | depth + 1, line, source, w =>
    let trimmed := Text.trim source
    match r.valueIdioms.findSome? fun d => d.recover trimmed with
    | none => .error ⟨line, trimmed, .unsupportedExpression⟩
    | some (extraction, blueprint, _) =>
      match w.make r blueprint with
      | (_, .error e) => .error ⟨line, trimmed, .misplaced e⟩
      | (w, .ok id) => do
        let w ← attachAll (readExpressionUpTo r depth) (fun _ => line) id extraction.values w
        return (w, id)

/-- Reads an expression. Operands are shorter than the expression, which bounds their depth. -/
def readExpression (r : Registry) (line : Nat) (source : List Char) (w : Workspace) :
    Except Failure (Workspace × NodeId) :=
  readExpressionUpTo r (source.length + 1) line source w

/-! ## Units -/

/-- The text of a level, with the block mark in place of each block. -/
def spell (items : List Item) : List Char :=
  items.flatMap fun
    | .line _ text => text ++ ['\n']
    | .block _ => blockMark ++ ['\n']

/-- A unit of a level: what an idiom took from it, and the items it spans. -/
structure Match where
  extraction : Extraction
  blueprint : Blueprint
  covered : List Item

/-- What an idiom takes from the front of a level. The blocks among the items it spans have to be as
many as the statement inputs that it fills. -/
def matchOne (items : List Item) (text : List Char) (d : Definition) : Option Match := do
  let (extraction, blueprint, matched) ← d.recover text
  let count := matched.count '\n'
  guard (0 < count && count ≤ items.length)
  guard ((blocks (items.take count)).length == extraction.bodies.length)
  return ⟨extraction, blueprint, items.take count⟩

/-- The unit at the front of a level: the first idiom that fits. -/
def matchUnit (r : Registry) (top : Bool) (items : List Item) : Option Match :=
  let text := spell items
  (r.statementIdioms top).findSome? (matchOne items text)

/-- The line on which a source stands: the first of some lines that has it, or else `line`. -/
def lineOf (covered : List Item) (line : Nat) (source : List Char) : Nat :=
  (covered.findSome? fun
    | .line number text => if Text.hasPart source text then some number else none
    | .block _ => none).getD line

/-- The failure of a level at an item that no idiom fits. -/
def unmatched (item : Item) : Failure :=
  ⟨item.firstLine.1, item.firstLine.2, if item.isLine then .noIdiom else .unexpectedIndent⟩

/-- Attaches nodes at the end of a statement input. -/
def attachBody (line : Nat) (text : List Char) (parent : NodeId) (input : String) :
    List NodeId → Workspace → Except Failure Workspace
  | [], w => .ok w
  | child :: children, w =>
    match w.linkStatement parent input none child with
    | (w, .ok ()) => attachBody line text parent input children w
    | (_, .error e) => .error ⟨line, text, .misplaced e⟩

/-- Reads blocks with `readBlock` into statement inputs. -/
def attachBodies (readBlock : List Item → Workspace → Except Failure (Workspace × List NodeId))
    (line : Nat) (text : List Char) (parent : NodeId) :
    List (String × List Item) → Workspace → Except Failure Workspace
  | [], w => .ok w
  | (input, items) :: rest, w => do
    let (w, children) ← readBlock items w
    let w ← attachBody line text parent input children w
    attachBodies readBlock line text parent rest w

/-- Makes the node of a unit, with its values and its blocks. -/
def readUnit (r : Registry)
    (readBlock : List Item → Workspace → Except Failure (Workspace × List NodeId)) (m : Match)
    (w : Workspace) : Except Failure (Workspace × NodeId) :=
  let (line, text) := (m.covered.head?.map Item.firstLine).getD (0, [])
  match w.make r m.blueprint with
  | (_, .error e) => .error ⟨line, text, .misplaced e⟩
  | (w, .ok id) => do
    let w ← attachAll (readExpression r) (lineOf m.covered line) id m.extraction.values w
    let w ← attachBodies readBlock line text id (m.extraction.bodies.zip (blocks m.covered)) w
    return (w, id)

/-! ## Levels -/

/-- Reads at most `bound` units of a level. -/
def readUnits (r : Registry) (top : Bool)
    (readBlock : List Item → Workspace → Except Failure (Workspace × List NodeId)) :
    Nat → List Item → Workspace → Except Failure (Workspace × List NodeId)
  | _, [], w => .ok (w, [])
  | 0, item :: _, _ => .error (unmatched item)
  | bound + 1, item :: items, w =>
    match matchUnit r top (item :: items) with
    | none => .error (unmatched item)
    | some m => do
      let (w, id) ← readUnit r readBlock m w
      let (w, ids) ← readUnits r top readBlock bound ((item :: items).drop m.covered.length) w
      return (w, id :: ids)

/-- Whether an item is the no-op, which stands for no block. -/
def isNoop (options : Options) : Item → Bool
  | .line _ text => text == options.noop.toList
  | .block _ => false

/-- Reads a level with blocks nested at most `depth` deep into loose nodes. -/
def readLevel (r : Registry) (options : Options) :
    Nat → Bool → List Item → Workspace → Except Failure (Workspace × List NodeId)
  | depth, top, items, w =>
    let items := items.filter fun i => !isNoop options i
    match depth with
    | 0 => readUnits r top (fun _ w => .ok (w, [])) items.length items w
    | depth + 1 => readUnits r top (readLevel r options depth false) items.length items w

/-! ## Programs -/

/-- A workspace that was read, and what the rules say about it. -/
structure Reading where
  workspace : Workspace
  notices : List String

/-- Reads an outline into a workspace, before the rules. -/
def build (s : Setup) (items : List Item) : Except Failure Workspace :=
  match readLevel s.registry s.options (Item.heightAll items) true items {} with
  | .ok (w, ids) => .ok (ids.foldl Workspace.pushRoot w)
  | .error f => .error f

/-- Reads the characters of a program. -/
def readChars (s : Setup) (source : List Char) : Except Failure Reading := do
  let items ← Outline.ofSource source
  let w ← build s items
  let corrected := s.rules.normalize w
  return ⟨corrected.workspace, (corrected.answer.map (·.notices)).toOption.getD []⟩

/-- Reads a program. -/
def read (s : Setup) (source : String) : Except Failure Reading := readChars s source.toList

end BlockText.Program
