/-!
# JSON values

A JSON text as a tree. A number is kept as it is written, since what it denotes depends on what is
asked of it. So is a string that has no characters, because it escapes half of a surrogate pair:
such a string matters only where its characters are asked for.
-/

namespace BlockText

/-- A JSON value. Members of an object stand in the order they are written, repeated keys too. -/
inductive Json where
  | null
  | bool (b : Bool)
  | number (literal : List Char)
  | string (s : Option String)
  | list (items : List Json)
  | object (members : List (Option String × Json))

namespace Json

instance : Inhabited Json := ⟨null⟩

/-- A string value. -/
def text (s : String) : Json := string (some s)

/-- An object with decodable keys. -/
def record (members : List (String × Json)) : Json := object (members.map fun m => (some m.1, m.2))

/-- The value with a key among some members. -/
def member? (members : List (Option String × Json)) (key : String) : Option Json :=
  (members.find? fun m => m.1 == some key).map (·.2)

/-- The fields of a record in the order of `names`. They are written as an object, with unknown keys
ignored and known ones not repeated, or as a list, in which only fields after the first `least` may
be left out. -/
def fields? (names : List String) (least : Nat) : Json → Option (List (Option Json))
  | object members =>
    let keys := members.map (·.1)
    if keys.all Option.isSome && names.all fun n => keys.count (some n) ≤ 1 then
      some (names.map (member? members))
    else none
  | list items =>
    if least ≤ items.length && items.length ≤ names.length then
      some (items.map some ++ List.replicate (names.length - items.length) none)
    else none
  | _ => none

/-- A truth value. -/
def bool? : Json → Option Bool
  | bool b => some b
  | _ => none

/-- The characters of a string. -/
def string? : Json → Option String
  | string s => s
  | _ => none

/-- The items of a list, each read with `read`. -/
def list? {α : Type} (read : Json → Option α) : Json → Option (List α)
  | list items => items.mapM read
  | _ => none

/-- A value that may be null or left out. -/
def optional? {α : Type} (read : Json → Option α) : Option Json → Option (Option α)
  | none => some none
  | some null => some none
  | some j => (read j).map some

/-- One of some names: a string, or an object whose only key is the name and whose value is null. -/
def name? : Json → Option String
  | string s => s
  | object [(key, null)] => key
  | _ => none

end Json

end BlockText
