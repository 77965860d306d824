import BlockText.CommandLine.Arguments
import BlockText.Format
import BlockText.Session
import BlockText.Settings.Basic

/-!
# Commands

What the command line does, given the contents of the files it asks for. Standard output gets the
result, standard error gets a note of each correction and then a complaint, if there is one.
-/

namespace BlockText.CommandLine

/-- Why a file cannot be read. -/
inductive FileFault where
  | missing
  | directory
  deriving DecidableEq

/-- What is said of a file that cannot be read. -/
def FileFault.message : FileFault → String
  | missing => "No such file or directory (os error 2)"
  | directory => "Is a directory (os error 21)"

/-- What can be read: files by name, and standard input. -/
structure Sources where
  file : String → Except FileFault String
  stdin : String

/-- Why a command fails. -/
inductive Complaint where
  | usage
  | settings (cause : SettingsError)
  | unreadable (path : String) (cause : FileFault)
  | input (path : String) (cause : FormatError)
  | output (cause : FormatError) (formats : List String)

namespace Complaint

/-- How the command line is used. -/
def usageText : String :=
  "Usage: bitblocks [-c FILE] COMMAND\n\nCommands:\n  to-text PATH [--from FORMAT]\n"
    ++ "  to-tree PATH [-f FORMAT]\n  check PATH\n  types"

/-- What is said of a command that fails. -/
def message : Complaint → String
  | usage => usageText
  | settings cause => "Configuration error: " ++ cause.message
  | unreadable path cause => "Cannot read " ++ path ++ ": " ++ cause.message
  | input path (.reading failure) => path ++ ": " ++ (SessionError.reading failure).notice
  | input path cause => path ++ ": " ++ cause.message
  | output cause formats =>
    "Error: " ++ cause.message ++ "\nAvailable formats: " ++ String.intercalate ", " formats

/-- The code with which a command that fails ends. -/
def code : Complaint → Nat
  | usage => 2
  | _ => 1

/-- Whether a complaint has a fixed wording. Others tell about the arguments, the settings or a
document in words that may change. -/
def isFixed : Complaint → Bool
  | usage => false
  | settings (.indent _) => true
  | settings (.noop _) => true
  | settings _ => false
  | input _ (.edit (.malformed .unreadable)) => false
  | _ => true

end Complaint

/-- What a command leaves: its output, its notes, and its complaint. -/
structure Report where
  output : String := ""
  notes : List String := []
  complaint : Option Complaint := none

namespace Report

/-- The code with which the command ends. -/
def code (r : Report) : Nat := (r.complaint.map Complaint.code).getD 0

/-- What standard error gets. -/
def errors (r : Report) : String :=
  String.join ((r.notes.map fun n => "note: " ++ n ++ "\n")
    ++ (r.complaint.map fun c => c.message ++ "\n").toList)

end Report

/-- The settings file with a name, which may lack its extension. -/
def settingsFile (s : Sources) (name : String) (optional : Bool) : SettingsFile :=
  ⟨(s.file name).toOption <|> (s.file (name ++ ".toml")).toOption, optional⟩

/-- The settings file of the working directory. -/
def localSettings : String := "bitblocks.toml"

/-- The settings of a run: those of the working directory, and over them those of a given file. -/
def loadSettings (s : Sources) (config : Option String) : Except SettingsError Settings :=
  Settings.load
    (settingsFile s localSettings true ::
      config.toList.map fun name => settingsFile s name false) []

/-- What stands at a path; a dash is standard input. -/
def readSource (s : Sources) (path : String) : Except Complaint String :=
  if path = "-" then .ok s.stdin
  else
    match s.file path with
    | .ok text => .ok text
    | .error fault => .error (.unreadable path fault)

/-- Reads the source at a path in a format. -/
def readInput (s : Sources) (setup : Setup) (path format : String) :
    Except Complaint Program.Reading := do
  let source ← readSource s path
  match Formats.standard.read setup format source with
  | .ok reading => return reading
  | .error e => throw (.input path e)

/-- Converts the source at a path from one format to another. -/
def convert (s : Sources) (setup : Setup) (path source target : String) : Report :=
  match readInput s setup path source with
  | .error complaint => { complaint := complaint }
  | .ok reading =>
    match Formats.standard.write setup target reading.workspace with
    | .ok output => { output := output, notes := reading.notices }
    | .error e =>
      { notes := reading.notices, complaint := some (.output e Formats.standard.names) }

/-- Says what a program amounts to. -/
def checkProgram (s : Sources) (setup : Setup) (path : String) : Report :=
  match readInput s setup path "python" with
  | .error complaint => { complaint := complaint }
  | .ok reading =>
    let w := reading.workspace
    let disabled := w.nodes.values.countP fun n => n.disabled.isSome
    { notes := reading.notices
      output := path ++ ": ok (" ++ toString w.roots.length ++ " top-level blocks, "
        ++ toString w.size ++ " blocks, " ++ toString disabled ++ " disabled)\n" }

/-- A text filled up with blanks to a width. -/
def pad (width : Nat) (s : String) : String :=
  s ++ String.ofList (List.replicate (width - s.length) ' ')

/-- The word for a role. -/
def roleName : Role → String
  | .root => "event"
  | .statement => "statement"
  | .value _ => "value"
  | .helper => "helper"

/-- The definitions, one a line. -/
def listTypes (r : Registry) : String :=
  "Registered block types, in matching priority:\n\n" ++ String.join (r.definitions.map fun d =>
    "  " ++ pad 20 d.kind.name ++ " " ++ pad 10 (roleName d.shape.role) ++ " "
      ++ d.description ++ "\n")

/-- Performs an action under some settings. -/
def perform (s : Sources) (settings : Settings) (action : Action) : Report :=
  let setup : Setup := { rules := settings.rules, options := settings.options }
  match action with
  | .toText path source =>
    convert s setup path ((source <|> Formats.standard.detect path).getD "json") "python"
  | .toTree path format => convert s setup path "python" format
  | .check path => checkProgram s setup path
  | .types => { output := listTypes setup.registry }

/-- Runs the command line. -/
def run (arguments : List String) (s : Sources) : Report :=
  match parse arguments with
  | .misuse => { complaint := some .usage }
  | .help => { output := Complaint.usageText ++ "\n" }
  | .version => { output := "bitblocks 0.1.0\n" }
  | .perform invocation =>
    match loadSettings s invocation.config with
    | .error e => { complaint := some (.settings e) }
    | .ok settings => perform s settings invocation.action

/-- The files that a run may read. -/
def wanted (arguments : List String) : List String :=
  match parse arguments with
  | .perform ⟨config, action⟩ =>
    let settings := (localSettings :: config.toList).flatMap fun name => [name, name ++ ".toml"]
    match action with
    | .toText path _ => path :: settings
    | .toTree path _ => path :: settings
    | .check path => path :: settings
    | .types => settings
  | _ => []

end BlockText.CommandLine
