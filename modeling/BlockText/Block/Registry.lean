import BlockText.Block.Definition

/-!
# Registries

A registry is a list of definitions, one for a kind at most. Its order is the order in which idioms
are tried, so the more special idioms stand before the more general ones.
-/

namespace BlockText

/-- Definitions in the order they were registered. -/
structure Registry where
  definitions : List Definition

namespace Registry

/-- The registry without definitions. -/
def empty : Registry := ⟨[]⟩

/-- The definition of a kind. -/
def find? (r : Registry) (kind : Kind) : Option Definition :=
  r.definitions.find? fun d => d.kind = kind

/-- The definition of a kind, which has to be there. -/
def lookup (r : Registry) (kind : Kind) : Except RegistryError Definition :=
  match r.find? kind with
  | some d => .ok d
  | none => .error (.notFound kind.name)

/-- The definition of the kind with an identifier. -/
def lookupName (r : Registry) (name : String) : Except RegistryError Definition :=
  match Kind.ofName? name with
  | some kind => r.lookup kind
  | none => .error (.notFound name)

/-- Whether a kind has a definition. -/
def contains (r : Registry) (kind : Kind) : Bool := (r.find? kind).isSome

/-- The kinds with a definition, in order. -/
def kinds (r : Registry) : List Kind := r.definitions.map (·.kind)

/-- The registry with one more definition. That its kind is taken is noticed before its faults. -/
def register (r : Registry) (d : Definition) : Except RegistryError Registry :=
  if r.contains d.kind then .error (.duplicate d.kind)
  else
    match d.check with
    | .ok () => .ok ⟨r.definitions ++ [d]⟩
    | .error e => .error e

/-- Registers definitions until one is refused; keeps those before it. -/
def registerUntil : List Definition → Registry → Registry × Except RegistryError Unit
  | [], r => (r, .ok ())
  | d :: ds, r =>
    match r.register d with
    | .ok r => registerUntil ds r
    | .error e => (r, .error e)

/-- The registry of some definitions. -/
def ofDefinitions (ds : List Definition) : Except RegistryError Registry :=
  match registerUntil ds empty with
  | (r, .ok ()) => .ok r
  | (_, .error e) => .error e

/-- Checks that every kind has a definition. -/
def complete (r : Registry) : Except RegistryError Unit :=
  let absent := Kind.all.filter fun k => !r.contains k
  if absent.isEmpty then .ok () else .error (.incomplete absent)

/-- The readable definitions that may start a unit of a level; roots only at the top. -/
def statementIdioms (r : Registry) (top : Bool) : List Definition :=
  r.definitions.filter fun d =>
    d.isReadable && (d.shape.role = .statement || (top && d.shape.role = .root))

/-- The readable definitions of values. -/
def valueIdioms (r : Registry) : List Definition :=
  r.definitions.filter fun d => d.isReadable && d.shape.role.isValue

end Registry

end BlockText
