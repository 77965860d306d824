import BlockText.Number.Decimal
import BlockText.Text.Blank
import BlockText.Text.Visible

/-!
# Field values

A field of a block holds a number, a text, a choice from a list, a truth value, a picture of the LED
matrix or the name of a variable.
-/

namespace BlockText

/-- A picture on the five by five LED matrix, row by row. -/
abbrev Bitmap : Type := { rows : List (List Bool) // rows.length = 5 ∧ ∀ r ∈ rows, r.length = 5 }

namespace Bitmap

/-- All LEDs off. -/
def dark : Bitmap := ⟨List.replicate 5 (List.replicate 5 false), by decide⟩

instance : Inhabited Bitmap := ⟨dark⟩

/-- How a cell is written. -/
def cell (lit : Bool) : Char := if lit then '1' else '0'

/-- The rows as words of zeros and ones, one blank between two rows. -/
def text (b : Bitmap) : List Char := Text.join [' '] (b.val.map fun r => r.map cell)

/-- The cell that a character stands for. -/
def cell? (c : Char) : Option Bool :=
  if c = '0' then some false else if c = '1' then some true else none

/-- The picture with some rows, if they are five of five. -/
def ofRows? (rows : List (List Bool)) : Option Bitmap :=
  if h : rows.length = 5 ∧ ∀ r ∈ rows, r.length = 5 then some ⟨rows, h⟩ else none

/-- Why a text is not read as a picture: it spells none, or it has a cell outside the matrix. -/
inductive Fault where
  | malformed
  | outside (row column : Nat)
  deriving DecidableEq

/-- The picture with one cell stored, which has to be a cell of the matrix. -/
def store (b : Bitmap) (row column : Nat) (lit : Bool) : Except Fault Bitmap :=
  if row < 5 ∧ column < 5 then
    .ok ⟨b.val.modify row fun cells => cells.set column lit, by
      refine ⟨(List.length_modify ..).trans b.2.1, fun cells h => ?_⟩
      obtain ⟨i, hi, rfl⟩ := List.mem_iff_getElem.mp h
      rw [List.getElem_modify]
      split
      · exact List.length_set.trans (b.2.2 _ (List.getElem_mem _))
      · exact b.2.2 _ (List.getElem_mem _)⟩
  else .error (.outside row column)

/-- Stores the cells of a row from a column on. -/
def storeCells (row : Nat) : Nat → List Char → Bitmap → Except Fault Bitmap
  | _, [], b => .ok b
  | column, c :: cs, b =>
    match cell? c with
    | none => .error .malformed
    | some lit =>
      match b.store row column lit with
      | .ok b => storeCells row (column + 1) cs b
      | .error f => .error f

/-- Stores rows from a row on. The length of a row is checked in bytes, and the number of rows
at the end. -/
def storeRows : Nat → List (List Char) → Bitmap → Except Fault Bitmap
  | row, [], b => if row = 5 then .ok b else .error .malformed
  | row, cs :: rows, b =>
    if 5 ≤ row ∨ Text.byteLength cs ≠ 5 then .error .malformed
    else
      match storeCells row 0 cs b with
      | .ok b => storeRows (row + 1) rows b
      | .error f => .error f

/-- Reads a picture: the rows are what stands between single spaces. -/
def ofText (cs : List Char) : Except Fault Bitmap := storeRows 0 (Text.cut ' ' cs) dark

/-- The picture that a text spells. -/
def ofText? (cs : List Char) : Option Bitmap := (ofText cs).toOption

/-- The numbers, counted row by row, of the LEDs that are on. -/
def lit (b : Bitmap) : List Nat :=
  b.val.flatten.zipIdx.filterMap fun c => if c.1 then some c.2 else none

end Bitmap

/-- The value of one field. -/
inductive FieldValue where
  | number (x : Double)
  | text (s : String)
  | choice (s : String)
  | bool (b : Bool)
  | bitmap (b : Bitmap)
  | var (name : String)
  deriving DecidableEq

namespace FieldValue

/-- The characters of a text, a choice or a variable. -/
def string? : FieldValue → Option String
  | text s => some s
  | choice s => some s
  | var s => some s
  | _ => none

/-- The number of a number field. -/
def number? : FieldValue → Option Double
  | number x => some x
  | _ => none

/-- The truth value of a truth field. -/
def bool? : FieldValue → Option Bool
  | bool b => some b
  | _ => none

/-- Two values of one type, whatever they hold. -/
def sameType : FieldValue → FieldValue → Bool
  | number _, number _ => true
  | text _, text _ => true
  | choice _, choice _ => true
  | bool _, bool _ => true
  | bitmap _, bitmap _ => true
  | var _, var _ => true
  | _, _ => false

/-- Equality of value: numbers are compared as numbers, all else as it stands. -/
def sameValue : FieldValue → FieldValue → Bool
  | number x, number y => x.sameValue y
  | a, b => a == b

/-- The value as it is shown. -/
def shown : FieldValue → List Char
  | number x => x.text
  | text s => Text.visible s.toList
  | choice s => s.toList
  | var s => s.toList
  | bool b => if b then "true".toList else "false".toList
  | bitmap b => b.text

end FieldValue

end BlockText
