import BlockText.Program.Reader
import BlockText.Program.Writer

/-!
# Sessions

A session keeps one live workspace and converts it both ways. Its text is cached until the workspace
changes. A text that can be read replaces the workspace, one that cannot leaves all as it was. While
a replacement runs the session is busy: events fired by it can be told from others, and edits are
refused.
-/

namespace BlockText

/-- Why a step of a session is refused. -/
inductive SessionError where
  | busy
  | reading (failure : Program.Failure)
  | edit (cause : EditError)
  deriving DecidableEq

namespace SessionError

/-- What is said of a refused step. -/
def message : SessionError → String
  | busy => "a text conversion is already in progress"
  | reading failure => failure.message
  | edit cause => cause.message

/-- What the user is told of a refused step: a text that cannot be read comes with a hint. -/
def notice : SessionError → String
  | reading failure => failure.message ++ " (only supported idioms convert to blocks)"
  | e => e.message

end SessionError

/-- A live workspace with its setup, its cached text and its busy flag. -/
structure Session where
  setup : Setup
  workspace : Workspace := {}
  cache : Option String := none
  busy : Bool := false

/-- A step of a session: the session after it, its answer, the events it fired, and whether the
session was busy when they were fired. -/
structure Step (α : Type) where
  session : Session
  answer : Except SessionError α
  events : List Event := []
  busy : Bool := false

namespace Session

/-- The text of the workspace, from the cache if it is there. -/
def toText (s : Session) : Session × String :=
  match s.cache with
  | some text => (s, text)
  | none =>
    let text := Program.write s.setup s.workspace
    ({ s with cache := some text }, text)

/-- Whether a text can be read; nothing changes. -/
def validate (s : Session) (text : String) : Except SessionError Unit :=
  match Program.read s.setup text with
  | .ok _ => .ok ()
  | .error f => .error (.reading f)

/-- Takes the busy flag, if it is free. -/
def acquire (s : Session) : Step Unit :=
  if s.busy then ⟨s, .error .busy, [], s.busy⟩ else ⟨{ s with busy := true }, .ok (), [], true⟩

/-- Gives the busy flag back, and answers whether it was taken. -/
def release (s : Session) : Session × Bool := ({ s with busy := false }, s.busy)

/-- Runs a step that holds the busy flag. A step that is refused gives the flag back as well. -/
def exclusively {α : Type} (s : Session) (run : Session → Step α) : Step α :=
  match s.acquire with
  | ⟨s, .error e, events, busy⟩ => ⟨s, .error e, events, busy⟩
  | ⟨held, .ok (), _, _⟩ =>
    let step := run held
    { step with session := step.session.release.1 }

/-- Replaces the workspace by what a text says, and answers the notices. -/
def ofText (s : Session) (text : String) : Step (List String) :=
  s.exclusively fun s =>
    match Program.read s.setup text with
    | .error f => ⟨s, .error (.reading f), [], s.busy⟩
    | .ok reading =>
      let replaced := Workspace.replace reading.workspace
      ⟨{ s with workspace := replaced.workspace, cache := none }, .ok reading.notices,
        replaced.events, s.busy⟩

/-- Runs an edit of the workspace. The cache is dropped even if the edit is refused. -/
def edit {α : Type} (s : Session) (f : Registry → Workspace → Edited α) : Step α :=
  if s.busy then ⟨s, .error .busy, [], s.busy⟩
  else
    let edited := f s.setup.registry s.workspace
    ⟨{ s with workspace := edited.workspace, cache := none }, edited.answer.mapError .edit,
      edited.events, s.busy⟩

/-- Applies the rules to the workspace, and answers the notices. -/
def normalize (s : Session) : Step (List String) :=
  let corrected := s.setup.rules.normalize s.workspace
  ⟨{ s with workspace := corrected.workspace, cache := none },
    (corrected.answer.map (·.notices)).mapError .edit, corrected.events, s.busy⟩

end Session

end BlockText
