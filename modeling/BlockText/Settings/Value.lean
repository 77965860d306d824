import BlockText.Block.Kind
import BlockText.Number.Decimal
import BlockText.Text.LowerCase

/-!
# Setting values

What a settings file says, before it is known what the settings are. A value is taken for what is
asked of it as far as that makes sense: a number or a truth value where a text is asked for, a text
or a truth value where a number is.
-/

namespace BlockText

/-- A value of a settings file. -/
inductive Setting where
  | nil
  | bool (b : Bool)
  | int (n : Int)
  | float (x : Double)
  | text (s : String)
  | list (items : List Setting)
  | table (entries : List (String × Setting))

/-- The lower-case form of a string. -/
def lowerCase (s : String) : String := String.ofList (Text.lower s.toList)

namespace Setting

instance : Inhabited Setting := ⟨nil⟩

/-- The value with a key among some entries. -/
def lookup (entries : List (String × Setting)) (key : String) : Option Setting :=
  (entries.find? fun e => e.1 == key).map (·.2)

/-- The entries of a table; none of any other value. -/
def entries : Setting → List (String × Setting)
  | table es => es
  | _ => []

/-- The text that a value stands for. -/
def string? : Setting → Option String
  | text s => some s
  | bool b => some (if b then "true" else "false")
  | int n => some (toString n)
  | float x => some (String.ofList x.text)
  | _ => none

/-- One more than the largest count. -/
def countLimit : Nat := Nat.pow 2 64

/-- The count that a whole text spells. -/
def countOf? (cs : List Char) : Option Nat :=
  let ds := if cs.head? = some '+' then cs.drop 1 else cs
  if ds.isEmpty || !ds.all Char.isDigit then none
  else
    let n := Decimal.ofDigits ds
    if n < countLimit then some n else none

/-- A number to the nearest count, a half away from zero, and to the nearest end of the counts if it
is past them. -/
def roundCount : Double → Nat
  | .finite negative rank =>
    if negative then 0
    else min (countLimit - 1) ((2 * Double.units rank + Double.one) / (2 * Double.one))
  | .infinite negative => if negative then 0 else countLimit - 1
  | .nan => 0

/-- The count that a value stands for. -/
def count? : Setting → Option Nat
  | int n => if 0 ≤ n then some n.toNat else none
  | bool b => some (if b then 1 else 0)
  | float x => some (roundCount x)
  | text s =>
    if ["true", "on", "yes"].contains (lowerCase s) then some 1
    else if ["false", "off", "no"].contains (lowerCase s) then some 0
    else countOf? s.toList
  | _ => none

/-- The kind with a name, whatever the case of its letters. -/
def kindOf? (name : String) : Option Kind :=
  Kind.all.find? fun k => lowerCase k.name == lowerCase name

/-- The kind that a value names: a text, or the only key of a table. -/
def kind? : Setting → Option Kind
  | text s => kindOf? s
  | table [(key, _)] => kindOf? key
  | _ => none

/-- The items of a list, each read with `read`. -/
def list? {α : Type} (read : Setting → Option α) : Setting → Option (List α)
  | list items => items.mapM read
  | _ => none

/-- The fields of a record in the order of `names`: by their keys in a table, by their places in a
list. -/
def fields? (names : List String) : Setting → Option (List (Option Setting))
  | table es => some (names.map (lookup es))
  | list items => some (names.zipIdx.map fun n => items[n.2]?)
  | _ => none

end Setting

end BlockText
