import BlockText.Document
import BlockText.Program.Reader
import BlockText.Program.Writer
import BlockText.TreeView

/-!
# Formats

A format reads or writes workspaces under a name. A table of formats holds one format for a name and
finds the format of a file by its extension.
-/

namespace BlockText

/-- The two directions of a format. -/
inductive Direction where
  | parsing
  | serialization
  deriving DecidableEq

/-- The word for a direction. -/
def Direction.name : Direction → String
  | parsing => "parsing"
  | serialization => "serialization"

/-- Why a conversion is refused. -/
inductive FormatError where
  | notFound (name : String)
  | notSupported (name : String) (direction : Direction)
  | reading (failure : Program.Failure)
  | edit (cause : EditError)
  /-- A node of a document is of a kind without a definition. -/
  | undefinedNode (node : NodeId) (cause : RegistryError)
  deriving DecidableEq

/-- What is said of a refused conversion. -/
def FormatError.message : FormatError → String
  | notFound name => "format '" ++ name ++ "' not found"
  | notSupported name direction => "format '" ++ name ++ "' does not support " ++ direction.name
  | reading failure => failure.message
  | edit cause => cause.message
  | undefinedNode node cause => "serialization failed: " ++ node.shown ++ ": " ++ cause.message

/-- A format: what it is called, which files are its own, which directions it offers, and how it
goes about them. -/
structure Format where
  name : String
  description : String := ""
  extensions : List String := []
  parsing : Bool := false
  serialization : Bool := false
  reader : Option (Setup → String → Except FormatError Program.Reading) := none
  writer : Option (Setup → Workspace → String) := none

namespace Format

/-- Reads a source. -/
def read (f : Format) (s : Setup) (source : String) : Except FormatError Program.Reading :=
  match f.reader with
  | some reader => reader s source
  | none => .error (.notSupported f.name .parsing)

/-- Writes a workspace. -/
def write (f : Format) (s : Setup) (w : Workspace) : Except FormatError String :=
  match f.writer with
  | some writer => .ok (writer s w)
  | none => .error (.notSupported f.name .serialization)

/-- Program text. -/
def program : Format where
  name := "python"
  description := "board program source"
  extensions := ["py"]
  parsing := true
  serialization := true
  reader := some fun s source =>
    match Program.read s source with
    | .ok reading => .ok reading
    | .error f => .error (.reading f)
  writer := some Program.write

/-- The first of some nodes whose kind has no definition. -/
def firstUndefined (r : Registry) : List Node → Except FormatError Unit
  | [] => .ok ()
  | n :: ns =>
    match r.lookup n.kind with
    | .ok _ => firstUndefined r ns
    | .error e => .error (.undefinedNode n.id e)

/-- Reads a document. The flags in it are not taken over: the rules set them anew. -/
def readDocument (s : Setup) (source : String) : Except FormatError Program.Reading :=
  match Document.read source with
  | .error e => .error (.edit e)
  | .ok w =>
    match firstUndefined s.registry w.nodes.values with
    | .error e => .error e
    | .ok () =>
      let corrected := s.rules.normalize w
      .ok ⟨corrected.workspace, (corrected.answer.map (·.notices)).toOption.getD []⟩

/-- Documents. -/
def document : Format where
  name := "json"
  description := "serialised workspace document"
  extensions := ["json"]
  parsing := true
  serialization := true
  reader := some readDocument
  writer := some fun _ w => Document.write w

/-- Tree views, which are written and not read. -/
def treeView : Format where
  name := "treeviz"
  description := "indented node tree"
  extensions := ["tree"]
  serialization := true
  writer := some fun _ w => TreeView.render w

end Format

/-- Formats by name. -/
structure Formats where
  table : SortedMap String Format

namespace Formats

/-- No formats. -/
def empty : Formats := ⟨.empty⟩

/-- The table with one more format, in place of an earlier one with its name. -/
def register (t : Formats) (f : Format) : Formats := ⟨t.table.insert f.name f⟩

/-- The usual formats. -/
def standard : Formats := ((empty.register .program).register .document).register .treeView

/-- The names, in order. -/
def names (t : Formats) : List String := t.table.keys

/-- Whether a name has a format. -/
def has (t : Formats) (name : String) : Bool := t.table.contains name

/-- The format with a name. -/
def get (t : Formats) (name : String) : Except FormatError Format :=
  match t.table.get? name with
  | some f => .ok f
  | none => .error (.notFound name)

/-- What follows the last point of a file name. -/
def extension? (filename : String) : Option String :=
  match (Text.cut '.' filename.toList).reverse with
  | last :: _ :: _ => some (String.ofList last)
  | _ => none

/-- The name of the format that a file belongs to; of several the first in order. -/
def detect (t : Formats) (filename : String) : Option String :=
  (extension? filename).bind fun extension =>
    (t.table.values.find? fun f => f.extensions.contains extension).map (·.name)

/-- Reads a source in the format with a name, if the format offers to be read. -/
def read (t : Formats) (s : Setup) (name source : String) : Except FormatError Program.Reading :=
  match t.get name with
  | .error e => .error e
  | .ok f => if f.parsing then f.read s source else .error (.notSupported name .parsing)

/-- Writes a workspace in the format with a name, if the format offers to be written. -/
def write (t : Formats) (s : Setup) (name : String) (w : Workspace) : Except FormatError String :=
  match t.get name with
  | .error e => .error e
  | .ok f => if f.serialization then f.write s w else .error (.notSupported name .serialization)

end Formats

end BlockText
