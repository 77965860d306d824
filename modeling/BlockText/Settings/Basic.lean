import BlockText.Rules
import BlockText.Settings.Layer
import BlockText.Text.Visible
import BlockText.Toml.Document

/-!
# Settings

The settings of a conversion: defaults, over them the settings files in order, over them single
overrides. What comes out has to be complete, and is checked once.
-/

namespace BlockText

/-- The layout of text, the rules, and how many milliseconds a conversion waits. -/
structure Settings where
  options : Options
  rules : Rules
  debounce : Nat

/-- Why settings are refused. -/
inductive SettingsError where
  | missingFile
  | malformedFile
  | malformedKey (key : String)
  /-- What the layers say together is not what settings are made of. -/
  | malformedValue
  | indent (s : String)
  | noop (s : String)

/-- What is said of refused settings. -/
def SettingsError.message : SettingsError → String
  | missingFile => "a settings file is missing"
  | malformedFile => "a settings file is malformed"
  | malformedKey key => "the key '" ++ key ++ "' is malformed"
  | malformedValue => "a setting is missing or of the wrong type"
  | indent s =>
    "generator.indent must be one or more spaces, got " ++ String.ofList (Text.visible s.toList)
  | noop s =>
    "generator.noop must be a single statement without surrounding whitespace, got "
      ++ String.ofList (Text.visible s.toList)

/-- A settings file: its content if it is there, and whether it may be missing. -/
structure SettingsFile where
  content : Option String
  optional : Bool := false

namespace Settings

/-! ## Settings and their values -/

/-- A list of kinds. -/
def ofKinds (kinds : List Kind) : Setting := .list (kinds.map fun k => .text k.name)

/-- A rule for handlers. -/
def ofHandler (rule : HandlerRule) : Setting :=
  .table [("kind", .text rule.kind.name), ("field", .text rule.field)]

/-- The defaults: the usual rules and layout, and a wait of 300 milliseconds. -/
def defaults : Setting :=
  let rules := Rules.standard
  let options : Options := {}
  .table [
    ("generator", .table [("indent", .text options.indent), ("noop", .text options.noop)]),
    ("rules", .table [
      ("event_roots", ofKinds rules.eventRoots),
      ("gated", ofKinds rules.gated),
      ("singletons", ofKinds rules.singletons),
      ("unique_handlers", .list (rules.uniqueHandlers.map ofHandler))]),
    ("session", .table [("debounce_ms", .int 300)])]

/-- The layout of text. -/
def options? (v : Setting) : Option Options :=
  match v.fields? ["indent", "noop"] with
  | some [some indent, some noop] => do return ⟨← indent.string?, ← noop.string?⟩
  | _ => none

/-- A rule for handlers. -/
def handler? (v : Setting) : Option HandlerRule :=
  match v.fields? ["kind", "field"] with
  | some [some kind, some field] => do return ⟨← kind.kind?, ← field.string?⟩
  | _ => none

/-- A set of kinds in their order. -/
def kinds? (v : Setting) : Option (List Kind) := (v.list? Setting.kind?).map Kind.ordered

/-- The rules. Those for handlers may be left out. -/
def rules? (v : Setting) : Option Rules :=
  match v.fields? ["event_roots", "gated", "singletons", "unique_handlers"] with
  | some [some eventRoots, some gated, some singletons, handlers] => do
    return ⟨← kinds? eventRoots, ← kinds? gated, ← kinds? singletons,
      ← handlers.elim (some []) (Setting.list? handler?)⟩
  | _ => none

/-- The wait of a session. -/
def debounce? (v : Setting) : Option Nat :=
  match v.fields? ["debounce_ms"] with
  | some [some n] => n.count?
  | _ => none

/-- The settings that a value stands for. -/
def ofSetting? (v : Setting) : Option Settings :=
  match v.fields? ["generator", "rules", "session"] with
  | some [some generator, some rules, some session] => do
    return ⟨← options? generator, ← rules? rules, ← debounce? session⟩
  | _ => none

/-! ## Loading -/

/-- Checks the layout: the indentation is one or more spaces, and the no-op is not blank and has no
blanks around it. -/
def check (s : Settings) : Except SettingsError Settings :=
  let indent := s.options.indent.toList
  let noop := s.options.noop.toList
  if indent.isEmpty || indent.any (· != ' ') then .error (.indent s.options.indent)
  else if noop.isEmpty || Text.trim noop != noop then .error (.noop s.options.noop)
  else .ok s

/-- Lays a file over some settings. -/
def layFile (below : Setting) (file : SettingsFile) : Except SettingsError Setting :=
  match file.content with
  | none => if file.optional then .ok below else .error .missingFile
  | some content =>
    match Toml.read content.toList with
    | some layer => .ok (below.lay layer)
    | none => .error .malformedFile

/-- Lays an override over some settings. -/
def layOverride (below : Setting) (key : String) (value : Setting) : Except SettingsError Setting :=
  match Setting.path? key with
  | some path => .ok (Setting.layAt value path below)
  | none => .error (.malformedKey key)

/-- The settings of some files, the later over the earlier, and of overrides over all of them. -/
def load (files : List SettingsFile) (overrides : List (String × Setting)) :
    Except SettingsError Settings := do
  let fromFiles ← files.foldlM layFile defaults
  let merged ← overrides.foldlM (fun below o => layOverride below o.1 o.2) fromFiles
  match ofSetting? merged with
  | some s => s.check
  | none => throw .malformedValue

end Settings

end BlockText
