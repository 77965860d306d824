import BlockText.Settings.Value

/-!
# Layers of settings

Settings are laid over one another. A table is merged into the table below it key by key, and any
other value takes the place of the one below. Keys are kept in lower case. A key at the top of a
layer may be a path into the tables and lists below.
-/

namespace BlockText.Setting

/-- Entries with the value of a key replaced, or put at the end. -/
def upsert (key : String) (value : Setting) : List (String × Setting) → List (String × Setting)
  | [] => [(key, value)]
  | e :: es => if e.1 == key then (key, value) :: es else e :: upsert key value es

mutual

/-- A value laid over another. -/
def laidOver (below : Option Setting) : Setting → Setting
  | table es => layAll (below.getD (table [])) es
  | value => value

/-- Entries laid over a value one by one. The first of them makes a table of it. -/
def layAll (below : Setting) : List (String × Setting) → Setting
  | [] => below
  | (key, value) :: rest =>
    let name := lowerCase key
    layAll (table (upsert name (laidOver (lookup below.entries name) value) below.entries)) rest

end

/-! ## Paths -/

/-- A step into a table or a list. Places before zero count from the end. -/
inductive PathStep where
  | key (name : String)
  | place (i : Int)

/-- The characters of a key in a path. -/
def isKeyChar (c : Char) : Bool :=
  c.isAlphanum || c == ' ' || c == '_' || c == '-'

/-- A key at the front of a path, and the rest. -/
def pathKey? (cs : List Char) : Option (PathStep × List Char) :=
  match cs.takeWhile isKeyChar with
  | [] => none
  | name => some (.key (String.ofList name), cs.dropWhile isKeyChar)

/-- A place in brackets, after the opening one, and the rest. -/
def pathPlace? (cs : List Char) : Option (PathStep × List Char) :=
  let negative := cs.head? == some '-'
  let digits := if negative then cs.drop 1 else cs
  match digits.takeWhile Char.isDigit, digits.dropWhile Char.isDigit with
  | [], _ => none
  | ds, ']' :: rest =>
    let n : Int := Decimal.ofDigits ds
    some (.place (if negative then -n else n), rest)
  | _, _ => none

/-- The further steps of a path, at most `bound` of them. -/
def pathSteps : Nat → List Char → Option (List PathStep)
  | _, [] => some []
  | 0, _ :: _ => none
  | bound + 1, c :: cs =>
    let step := if c = '.' then pathKey? cs else if c = '[' then pathPlace? cs else none
    match step with
    | none => none
    | some (s, rest) => (pathSteps bound rest).map (s :: ·)

/-- The path that a text spells. -/
def path? (s : String) : Option (List PathStep) :=
  match pathKey? s.toList with
  | none => none
  | some (first, rest) => (pathSteps rest.length rest).map (first :: ·)

/-- The items of a list; none of any other value. -/
def items : Setting → List Setting
  | list xs => xs
  | _ => []

/-- Changes the item at a place of a list, which is filled up with nothing if it is too short. -/
def changeItem (i : Int) (f : Setting → Setting) (xs : List Setting) : List Setting :=
  let place := if 0 ≤ i then i.toNat else xs.length - i.natAbs
  let filled := xs ++ List.replicate (place + 1 - xs.length) nil
  filled.modify place f

/-- Lays a value over what stands at the end of a path. Tables and lists on the way are made if they
are not there. -/
def layAt (value : Setting) : List PathStep → Setting → Setting
  | [], _ => value
  | [.key name], below => layAll below [(name, value)]
  | .key name :: rest, below =>
    let key := lowerCase name
    table (upsert key (layAt value rest ((lookup below.entries key).getD nil)) below.entries)
  | [.place i], below => list (changeItem i (fun _ => value) below.items)
  | .place i :: rest, below => list (changeItem i (layAt value rest) below.items)

/-- Lays an entry of a layer over some settings. A key that is no path is taken as it is. -/
def layEntry (below : Setting) (entry : String × Setting) : Setting :=
  match path? entry.1 with
  | some path => layAt entry.2 path below
  | none => layAll below [entry]

/-- Lays a layer over some settings. -/
def lay (below : Setting) (layer : List (String × Setting)) : Setting := layer.foldl layEntry below

end BlockText.Setting
