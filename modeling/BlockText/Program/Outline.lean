import BlockText.Program.Failure
import BlockText.Text.Blank
import BlockText.Text.Category

/-!
# Outlines

The outline of a source is its lines, nested by indentation: lines that are indented deeper than the
one before them form a block after it. Blank lines do not count. A line may be indented by any
number of spaces deeper than the line before, and has to return to the width of an open level.
-/

namespace BlockText.Program

/-- A line without its indentation, or a block of deeper lines. -/
inductive Item where
  | line (number : Nat) (text : List Char)
  | block (items : List Item)

namespace Item

/-- Whether an item is a line. -/
def isLine : Item → Bool
  | line _ _ => true
  | block _ => false

/-- The first line of an item, with its number. -/
def firstLine : Item → Nat × List Char
  | line number text => (number, text)
  | block [] => (0, [])
  | block (item :: _) => item.firstLine

mutual

/-- How deep blocks are nested in an item. -/
def height : Item → Nat
  | line _ _ => 0
  | block items => heightAll items + 1

/-- How deep blocks are nested in some items. -/
def heightAll : List Item → Nat
  | [] => 0
  | item :: items => max item.height (heightAll items)

end

end Item

/-- The items of some items that are blocks. -/
def blocks : List Item → List (List Item)
  | [] => []
  | .block items :: rest => items :: blocks rest
  | .line _ _ :: rest => blocks rest

namespace Outline

/-- The items found so far at one width. -/
structure Level where
  width : Nat
  items : List Item

/-- The innermost open level, and those around it from the inside out. -/
structure Levels where
  current : Level
  outer : List Level

/-- Ends a level: its items become a block at the end of the level around it. -/
def close (inner outer : Level) : Level :=
  { outer with items := outer.items ++ [.block inner.items] }

/-- Ends the levels that are wider than `width`. The outermost level stays open. -/
def closeTo (width : Nat) : Level → List Level → Levels
  | current, [] => ⟨current, []⟩
  | current, around :: outer =>
    if width < current.width then closeTo width (close current around) outer
    else ⟨current, around :: outer⟩

/-- Adds a line: a wider one opens a level, which has to follow a line; any other ends the wider
levels and has to have the width of the one that is open then. -/
def addLine (ls : Levels) (width : Nat) (line : Item) : Except Reason Levels :=
  if ls.current.width < width then
    if ls.current.items.getLast?.any Item.isLine then
      .ok ⟨⟨width, [line]⟩, ls.current :: ls.outer⟩
    else .error .unexpectedIndent
  else
    let closed := closeTo width ls.current ls.outer
    if closed.current.width = width then
      .ok ⟨{ closed.current with items := closed.current.items ++ [line] }, closed.outer⟩
    else .error .inconsistentDedent

/-- Adds a source line, whose tabs and control characters are checked first. -/
def addSource (ls : Levels) (raw : List Char) (number : Nat) : Except Failure Levels :=
  if raw.all Text.isBlank then .ok ls
  else if raw.any fun c => Text.isControl c && c != '\t' then
    .error ⟨number, raw, .controlCharacter⟩
  else
    let text := raw.dropWhile (· == ' ')
    if text.head? = some '\t' then .error ⟨number, raw, .tabIndent⟩
    else
      match addLine ls (raw.length - text.length) (.line number (Text.trimEnd text)) with
      | .ok ls => .ok ls
      | .error reason => .error ⟨number, Text.trimEnd text, reason⟩

/-- Adds source lines that are numbered from `number` on. -/
def addSources : List (List Char) → Nat → Levels → Except Failure Levels
  | [], _, ls => .ok ls
  | raw :: raws, number, ls =>
    match addSource ls raw number with
    | .ok ls => addSources raws (number + 1) ls
    | .error f => .error f

/-- Ends all levels but the outermost. -/
def closeAll : Level → List Level → List Item
  | current, [] => current.items
  | current, around :: outer => closeAll (close current around) outer

/-- The outline of a source. -/
def ofSource (source : List Char) : Except Failure (List Item) :=
  match addSources (Text.lines source) 1 ⟨⟨0, []⟩, []⟩ with
  | .ok ls => .ok (closeAll ls.current ls.outer)
  | .error f => .error f

end Outline

end BlockText.Program
