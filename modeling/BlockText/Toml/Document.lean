import BlockText.Toml.Token

/-!
# TOML documents

A document is lines that set keys and lines that open a table. What may be set, opened or extended
again follows from how a table came to be: opened by its own line, by a line below it, or by a key
with points.
-/

namespace BlockText.Toml

/-- A place of a document. A table is implicit until a line opens it, and dotted if keys with points
made it. -/
inductive Tree where
  | value (v : Setting)
  | table (implicit dotted : Bool) (entries : List (String × Tree))
  | tables (elements : List (List (String × Tree)))

instance : Inhabited Tree := ⟨.value .nil⟩

/-- The place with a key among some entries. -/
def child? (entries : List (String × Tree)) (key : String) : Option Tree :=
  (entries.find? fun e => e.1 == key).map (·.2)

/-- Entries with the place of a key replaced, or put at the end. -/
def setChild (key : String) (t : Tree) : List (String × Tree) → List (String × Tree)
  | [] => [(key, t)]
  | e :: es => if e.1 == key then (key, t) :: es else e :: setChild key t es

/-- Changes the table at the end of a path; `f` is told whether keys with points made it. Tables on
the way are made if they are not there; by a key with points (`dotted`) no opened table is passed.
Of a list of tables the last is meant. -/
def descend (dotted : Bool) (f : Bool → List (String × Tree) → Option (List (String × Tree))) :
    List String → Bool → List (String × Tree) → Option (List (String × Tree))
  | [], isDotted, entries => f isDotted entries
  | key :: path, _, entries =>
    match child? entries key with
    | none =>
      (descend dotted f path dotted []).map fun es => setChild key (.table true dotted es) entries
    | some (.value _) => none
    | some (.table implicit isDotted es) =>
      if dotted && !implicit then none
      else
        (descend dotted f path isDotted es).map fun es =>
          setChild key (.table implicit isDotted es) entries
    | some (.tables elements) =>
      match elements.getLast? with
      | none => none
      | some last =>
        (descend dotted f path false last).map fun es =>
          setChild key (.tables (elements.dropLast ++ [es])) entries

/-- Sets a key of a table. A table made by keys with points takes only such keys, and no other table
does. -/
def setKey (path : List String) (key : String) (v : Setting) (entries : List (String × Tree)) :
    Option (List (String × Tree)) :=
  descend true (fun isDotted es =>
    if isDotted == path.isEmpty || (child? es key).isSome then none
    else some (es ++ [(key, .value v)]))
    path false entries

/-- Sets a key with all its parts. -/
def setParts (parts : List String) (v : Setting) (entries : List (String × Tree)) :
    Option (List (String × Tree)) :=
  parts.getLast?.bind fun key => setKey parts.dropLast key v entries

/-- Opens a table that was not opened before. -/
def openTable (parts : List String) (entries : List (String × Tree)) :
    Option (List (String × Tree)) :=
  parts.getLast?.bind fun key =>
    descend false (fun _ es =>
      match child? es key with
      | none => some (es ++ [(key, .table false false [])])
      | some (.table true false below) => some (setChild key (.table false false below) es)
      | some _ => none) parts.dropLast false entries

/-- Opens one more table of a list of tables. -/
def openElement (parts : List String) (entries : List (String × Tree)) :
    Option (List (String × Tree)) :=
  parts.getLast?.bind fun key =>
    descend false (fun _ es =>
      match child? es key with
      | none => some (es ++ [(key, .tables [[]])])
      | some (.tables elements) => some (setChild key (.tables (elements ++ [[]])) es)
      | some _ => none) parts.dropLast false entries

mutual

/-- The value of a place. -/
def Tree.setting : Tree → Setting
  | .value v => v
  | .table _ _ entries => .table (entrySettings entries)
  | .tables elements => .list (elementSettings elements)

/-- The values of some entries. -/
def entrySettings : List (String × Tree) → List (String × Setting)
  | [] => []
  | (key, t) :: rest => (key, t.setting) :: entrySettings rest

/-- The values of a list of tables. -/
def elementSettings : List (List (String × Tree)) → List Setting
  | [] => []
  | entries :: rest => .table (entrySettings entries) :: elementSettings rest

end

/-! ## Values -/

mutual

/-- A value at the front of a text, with at most `bound` steps of nesting and listing, and
the rest. -/
def readValue : Nat → List Char → Option (Setting × List Char)
  | 0, _ => none
  | bound + 1, cs =>
    match cs with
    | '[' :: rest => (readItems bound rest).map fun (items, rest) => (.list items, rest)
    | '{' :: rest =>
      match skipSpace rest with
      | '}' :: rest => some (.table [], rest)
      | rest =>
        (readMembers bound [] rest).map fun (entries, rest) =>
          (.table (entrySettings entries), rest)
    | cs =>
      match string? cs with
      | some (s, rest) => some (.text (String.ofList s), rest)
      | none => (word? (spanWord cs).1).map fun v => (v, (spanWord cs).2)

/-- The items of a list up to its closing bracket. A comma may stand after the last. -/
def readItems : Nat → List Char → Option (List Setting × List Char)
  | 0, _ => none
  | bound + 1, cs =>
    match skipLines cs.length cs with
    | ']' :: rest => some ([], rest)
    | cs =>
      match readValue bound cs with
      | none => none
      | some (item, rest) =>
        match skipLines rest.length rest with
        | ',' :: rest => (readItems bound rest).map fun (items, rest) => (item :: items, rest)
        | ']' :: rest => some ([item], rest)
        | _ => none

/-- The entries of a table on one line up to its closing brace, after those read before. -/
def readMembers : Nat → List (String × Tree) → List Char → Option (List (String × Tree) × List Char)
  | 0, _, _ => none
  | bound + 1, entries, cs =>
    match key? cs with
    | some (parts, '=' :: rest) =>
      match readValue bound (skipSpace rest) with
      | none => none
      | some (v, rest) =>
        match setParts parts v entries with
        | none => none
        | some entries =>
          match skipSpace rest with
          | ',' :: rest => readMembers bound entries rest
          | '}' :: rest => some (entries, rest)
          | _ => none
    | _ => none

end

/-! ## Lines -/

/-- A document so far: the path of the table that was opened last, and all places. -/
structure State where
  path : List String := []
  entries : List (String × Tree) := []

/-- Sets a key in the table that was opened last. -/
def State.set (s : State) (parts : List String) (v : Setting) : Option State :=
  (descend false (fun _ es => setParts parts v es) s.path false s.entries).map fun es =>
    { s with entries := es }

/-- The line at the front of a text, and the rest. -/
def readLine (s : State) (cs : List Char) : Option (State × List Char) := do
  match skipSpace cs with
  | '[' :: '[' :: rest =>
    match ← key? rest with
    | (parts, ']' :: ']' :: rest) =>
      return (⟨parts, ← openElement parts s.entries⟩, ← lineEnd? rest)
    | _ => none
  | '[' :: rest =>
    match ← key? rest with
    | (parts, ']' :: rest) => return (⟨parts, ← openTable parts s.entries⟩, ← lineEnd? rest)
    | _ => none
  | line =>
    match lineEnd? line with
    | some rest => return (s, rest)
    | none =>
      match ← key? line with
      | (parts, '=' :: rest) =>
        let (v, rest) ← readValue (2 * rest.length + 2) (skipSpace rest)
        return (← s.set parts v, ← lineEnd? rest)
      | _ => none

/-- The lines of a text, at most `bound` of them. -/
def readLines : Nat → State → List Char → Option State
  | _, s, [] => some s
  | 0, _, _ :: _ => none
  | bound + 1, s, cs =>
    match readLine s cs with
    | some (s, rest) => readLines bound s rest
    | none => none

/-- The entries of a document. A byte order mark before it does not count. -/
def read (cs : List Char) : Option (List (String × Setting)) :=
  let text := if cs.head? = some (Char.ofNat 0xFEFF) then cs.drop 1 else cs
  (readLines (text.length + 1) {} text).map fun s => entrySettings s.entries

end BlockText.Toml
