import BlockText.Block.Node
import BlockText.Block.Pattern

/-!
# Definitions

A definition gives a kind its shape and the two ways between a block and text: a generator, and an
idiom with what is made of a match. A definition is checked when it is registered, so a kind that
can be written and not read is refused at once, unless it is declared to be so.
-/

namespace BlockText

/-- What a generator sees of a block: the node, the layout options, and its inputs
already rendered. -/
structure Parts where
  node : Node
  options : Options
  /-- The text of a value input. -/
  value : String → List Char
  /-- The indented block of a statement input. -/
  body : String → List Char

namespace Parts

/-- The characters of a text, choice or variable field, none if it is absent. -/
def text (p : Parts) (name : String) : List Char :=
  (((p.node.field? name).bind FieldValue.string?).getD "").toList

/-- The number of a field, zero if it is absent. -/
def number (p : Parts) (name : String) : Double :=
  ((p.node.field? name).bind FieldValue.number?).getD 0

end Parts

/-- Renders a block. A statement ends with a newline, a value does not. -/
abbrev Generator : Type := Parts → List Char

/-- What a match says about the block: its fields, the source of each value input, the statement
inputs that the nested blocks fill in order, and the mutation. -/
structure Extraction where
  fields : List (String × FieldValue) := []
  values : List (String × List Char) := []
  bodies : List String := []
  mutation : Option Mutation := none

/-- An extraction with one more value input; blanks around its source do not count. -/
def Extraction.value (e : Extraction) (input : String) (source : List Char) : Extraction :=
  { e with values := e.values ++ [(input, Text.trim source)] }

/-- An extraction with one more statement input. -/
def Extraction.body (e : Extraction) (input : String) : Extraction :=
  { e with bodies := e.bodies ++ [input] }

/-- A block to be made: its kind, the fields that differ from their defaults, and its mutation. -/
structure Blueprint where
  kind : Kind
  fields : List (String × FieldValue) := []
  mutation : Option Mutation := none

/-- The blueprint with the fields and the mutation of an extraction. -/
def Blueprint.ofExtraction (kind : Kind) (e : Extraction) : Blueprint :=
  ⟨kind, e.fields, e.mutation⟩

/-- A definition of a kind. The reading parts are the idiom, the extractor, which may refuse a
match, and the constructor. -/
structure Definition where
  kind : Kind
  description : String := ""
  shape : Shape
  generator : Option Generator := none
  idiom : Option Pattern := none
  extractor : Option (Captures → Option Extraction) := none
  constructor : Option (Kind → Extraction → Blueprint) := none
  generatorOnly : Bool := false

/-- Why a definition is refused although its kind is free. -/
inductive Inconsistency where
  | noGenerator
  | readingParts
  | missing (parts : List String)
  | readableHelper
  deriving DecidableEq

/-- What is said of an inconsistent definition. -/
def Inconsistency.message : Inconsistency → String
  | noGenerator => "no generator declared"
  | readingParts => "generator-only definitions cannot declare parsing parts"
  | missing parts => "generator declared without " ++ String.intercalate ", " parts
  | readableHelper => "editor helpers must be declared generator-only"

/-- What goes wrong with definitions. -/
inductive RegistryError where
  | duplicate (kind : Kind)
  | inconsistent (kind : Kind) (cause : Inconsistency)
  | unusablePattern (kind : Kind)
  | notFound (name : String)
  | incomplete (kinds : List Kind)
  deriving DecidableEq

/-- What is said of an error with definitions. -/
def RegistryError.message : RegistryError → String
  | duplicate kind => "node type '" ++ kind.name ++ "' is already registered"
  | inconsistent kind cause =>
    "inconsistent definition for '" ++ kind.name ++ "': " ++ cause.message
  | unusablePattern kind => "idiom pattern for '" ++ kind.name ++ "' names a piece twice"
  | notFound name => "node type '" ++ name ++ "' is not registered"
  | incomplete kinds =>
    "registry is missing definitions for: " ++ String.intercalate ", " (kinds.map Kind.name)

namespace Definition

/-- Whether blocks of the kind can be read from text. -/
def isReadable (d : Definition) : Bool := !d.generatorOnly && d.idiom.isSome

/-- The reading parts that a definition lacks. -/
def missingParts (d : Definition) : List String :=
  (if d.idiom.isSome then [] else ["idiom"])
    ++ (if d.extractor.isSome then [] else ["extractor"])
    ++ if d.constructor.isSome then [] else ["constructor"]

/-- Checks that a definition can be used. -/
def check (d : Definition) : Except RegistryError Unit :=
  if d.generator.isNone then .error (.inconsistent d.kind .noGenerator)
  else if d.generatorOnly then
    if d.idiom.isSome || d.extractor.isSome || d.constructor.isSome then
      .error (.inconsistent d.kind .readingParts)
    else .ok ()
  else if !d.missingParts.isEmpty then .error (.inconsistent d.kind (.missing d.missingParts))
  else if d.shape.role = .helper then .error (.inconsistent d.kind .readableHelper)
  else if d.idiom.all Pattern.isUsable then .ok ()
  else .error (.unusablePattern d.kind)

/-- Renders a block. -/
def render (d : Definition) (p : Parts) : List Char :=
  match d.generator with
  | some generator => generator p
  | none => []

/-- What a definition reads from the front of a text: the extraction, the block to be made, the text
that was matched. A value has to be all of the text; a statement has to end with a line. -/
def recover (d : Definition) (cs : List Char) : Option (Extraction × Blueprint × List Char) := do
  let idiom ← d.idiom
  let (captures, rest) ← idiom.scan cs
  let matched := cs.take (cs.length - rest.length)
  if d.shape.role.isValue then guard rest.isEmpty else guard (matched.getLast? == some '\n')
  let extractor ← d.extractor
  let extraction ← extractor captures
  let constructor ← d.constructor
  return (extraction, constructor d.kind extraction, matched)

end Definition

end BlockText
