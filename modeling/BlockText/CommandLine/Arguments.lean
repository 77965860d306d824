import BlockText.Text.Blank

/-!
# Arguments of the command line

The arguments are options and a command, and after the command its own options and operands. An
option takes the text that is joined to it or the next argument, which must not look like an option.
After a double dash all arguments are operands.
-/

namespace BlockText.CommandLine

/-- What is to be done. -/
inductive Action where
  | toText (path : String) (source : Option String)
  | toTree (path : String) (format : String)
  | check (path : String)
  | types
  deriving DecidableEq

/-- What is to be done, and the settings file that is given. -/
structure Invocation where
  config : Option String
  action : Action
  deriving DecidableEq

/-- What the arguments ask for. -/
inductive Request where
  | perform (invocation : Invocation)
  | version
  | help
  | misuse
  deriving DecidableEq

/-- An option that takes a value. -/
structure OptionSpec where
  long : String
  short : Option Char := none

/-- The option for a settings file, which stands before or after the command. -/
def configOption : OptionSpec := ⟨"config", some 'c'⟩

/-- The options and the number of operands at one level of the arguments, and whether it knows about
the version. -/
structure Level where
  options : List OptionSpec
  operands : Nat
  version : Bool := false

/-- What was found at a level: the options with their values, and the operands. -/
structure Found where
  values : List (String × String) := []
  operands : List String := []

/-- The value of an option. -/
def Found.value? (f : Found) (long : String) : Option String :=
  (f.values.find? fun v => v.1 == long).map (·.2)

/-- One more option with its value. None may be given twice. -/
def Found.addValue (f : Found) (long value : String) : Option Found :=
  if (f.value? long).isSome then none else some { f with values := f.values ++ [(long, value)] }

/-- One more operand, if there may be one more. -/
def Found.addOperand (f : Found) (l : Level) (operand : String) : Option Found :=
  if f.operands.length < l.operands then some { f with operands := f.operands ++ [operand] }
  else none

/-- What one argument is. -/
inductive Argument where
  | operand
  | dashes
  /-- An option with the value that is joined to it. -/
  | option (long : String) (value : Option String)
  | version
  | help
  | unknown

/-- A long option after its dashes. -/
def longArgument (l : Level) (cs : List Char) : Argument :=
  let name := String.ofList (cs.takeWhile (· != '='))
  let value := match cs.dropWhile (· != '=') with
    | [] => none
    | _ :: value => some (String.ofList value)
  match l.options.find? fun o => o.long == name with
  | some o => .option o.long value
  | none =>
    if value.isSome then .unknown
    else if name = "help" then .help
    else if l.version && name = "version" then .version
    else .unknown

/-- A short option after its dash. -/
def shortArgument (l : Level) (c : Char) (cs : List Char) : Argument :=
  match l.options.find? fun o => o.short == some c with
  | some o =>
    .option o.long (match cs with
      | [] => none
      | '=' :: value => some (String.ofList value)
      | value => some (String.ofList value))
  | none => if c = 'h' then .help else if l.version && c = 'V' then .version else .unknown

/-- What an argument is at a level. -/
def classify (l : Level) (argument : String) : Argument :=
  match argument.toList with
  | ['-', '-'] => .dashes
  | '-' :: '-' :: cs => longArgument l cs
  | '-' :: c :: cs => shortArgument l c cs
  | _ => .operand

/-- Whether an argument may be the value of the option before it. -/
def isValue (argument : String) : Bool :=
  match argument.toList with
  | '-' :: _ :: _ => false
  | _ => true

/-- How reading a level ends: all arguments are read, the first operand of a level with commands is
found and some arguments are left, or there is something else to be done. -/
inductive Reading where
  | done (found : Found)
  | command (found : Found) (name : String) (rest : List String)
  | other (request : Request)

/-- Operands after a double dash. -/
def readOperands (l : Level) (f : Found) : List String → Reading
  | [] => .done f
  | a :: rest =>
    match f.addOperand l a with
    | some f => readOperands l f rest
    | none => .other .misuse

/-- Reads a level. At the top (`top`) the first operand is a command. -/
def readLevel (l : Level) (top : Bool) : Found → List String → Reading
  | f, [] => .done f
  | f, a :: rest =>
    match classify l a with
    | .operand =>
      if top then .command f a rest
      else
        match f.addOperand l a with
        | some f => readLevel l top f rest
        | none => .other .misuse
    | .dashes => readOperands l f rest
    | .option long (some value) =>
      match f.addValue long value with
      | some f => readLevel l top f rest
      | none => .other .misuse
    | .option long none =>
      match rest with
      | value :: rest =>
        if isValue value then
          match f.addValue long value with
          | some f => readLevel l top f rest
          | none => .other .misuse
        else .other .misuse
      | [] => .other .misuse
    | .version => .other .version
    | .help => .other .help
    | .unknown => .other .misuse

/-- The level before the command. -/
def topLevel : Level := ⟨[configOption], 0, true⟩

/-- The level of a command. -/
def level? : String → Option Level
  | "to-text" => some ⟨[⟨"from", none⟩, configOption], 1, false⟩
  | "to-tree" => some ⟨[⟨"format", some 'f'⟩, configOption], 1, false⟩
  | "check" => some ⟨[configOption], 1, false⟩
  | "types" => some ⟨[configOption], 0, false⟩
  | _ => none

/-- The action of a command with what was found after it. -/
def action? (name : String) (f : Found) : Option Action :=
  match name, f.operands with
  | "to-text", [path] => some (.toText path (f.value? "from"))
  | "to-tree", [path] => some (.toTree path ((f.value? "format").getD "treeviz"))
  | "check", [path] => some (.check path)
  | "types", [] => some .types
  | _, _ => none

/-- What some arguments ask for. A settings file after the command wins over one before it. -/
def parse (arguments : List String) : Request :=
  match readLevel topLevel true {} arguments with
  | .other request => request
  | .done _ => .misuse
  | .command before name rest =>
    match level? name with
    | none => if name = "help" then .help else .misuse
    | some l =>
      match readLevel l false {} rest with
      | .other request => request
      | .command _ _ _ => .misuse
      | .done found =>
        match action? name found with
        | some action => .perform ⟨found.value? "config" <|> before.value? "config", action⟩
        | none => .misuse

end BlockText.CommandLine
