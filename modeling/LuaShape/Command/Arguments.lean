import LuaShape.Project.Config

/-!
# Command line arguments

A command line is a command with its options and operands.  Options may stand
anywhere; `-x value`, `-xvalue`, `-x=value`, `--long value` and `--long=value` all
give a value, flags of one letter may be run together, and behind `--` everything
is an operand.  Every option may be given once, unless it collects several values.
-/

namespace LuaShape

/-- What is wrong with a command line, or what it asks for instead. -/
inductive Arguments.Stop where
  | help
  | misuse
deriving DecidableEq, Repr

namespace Arguments

/-- What an option takes. -/
inductive Shape where
  | flag
  /-- A value that is a path and so not empty. -/
  | path
  | text
  /-- A value each time it is given. -/
  | texts
deriving DecidableEq, Repr

/-- An option of a command. -/
structure OptionSpec where
  letter : Char
  name : String
  shape : Shape
deriving DecidableEq, Repr

/-- What has been read of a command line. -/
structure State where
  /-- The option whose value comes next. -/
  pending : Option OptionSpec := none
  /-- Whether everything that follows is an operand. -/
  onlyOperands : Bool := false
  /-- The options given, by name, with their values. -/
  given : List (String × String) := []
  operands : List String := []
deriving DecidableEq, Repr, Inhabited

/-- A step of reading a command line. -/
abbrev Step := Except Stop State

/-- Whether an argument is written like an option. -/
def looksLikeOption (arg : String) : Bool :=
  match arg.toList with
  | '-' :: _ :: _ => true
  | _ => false

/-- Note an option with its value. -/
def give (state : State) (spec : OptionSpec) (value : String) : Step :=
  let isRepeated := spec.shape ≠ .texts && state.given.any fun entry => entry.1 = spec.name
  let isMissing := spec.shape = .path && value.isEmpty
  if isRepeated || isMissing then .error .misuse
  else .ok { state with pending := none, given := state.given ++ [(spec.name, value)] }

/-- Read an option written with two dashes. -/
def readLong (specs : List OptionSpec) (state : State) (body : List Char) : Step :=
  let name := String.ofList (body.takeWhile (· ≠ '='))
  let attached :=
    match body.dropWhile (· ≠ '=') with
    | '=' :: value => some (String.ofList value)
    | _ => none
  if name = "help" && attached.isNone then .error .help
  else
    match specs.find? fun spec => spec.name = name, attached with
    | none, _ => .error .misuse
    | some spec, none =>
      if spec.shape = .flag then give state spec "" else .ok { state with pending := some spec }
    | some spec, some value =>
      if spec.shape = .flag then .error .misuse else give state spec value

/-- Read letters behind one dash. -/
def readLetters (specs : List OptionSpec) : State → List Char → Step
  | state, [] => .ok state
  | state, letter :: rest =>
    if letter = 'h' then .error .help
    else
      match specs.find? fun spec => spec.letter = letter with
      | none => .error .misuse
      | some spec =>
        if spec.shape = .flag then do
          let state ← give state spec ""
          readLetters specs state rest
        else
          match rest with
          | [] => .ok { state with pending := some spec }
          | '=' :: value => give state spec (String.ofList value)
          | value => give state spec (String.ofList value)

/-- Note an operand, which is a path; there is at most one. -/
def addOperand (state : State) (arg : String) : Step :=
  if arg.isEmpty || !state.operands.isEmpty then .error .misuse
  else .ok { state with operands := [arg] }

/-- Read an argument of a command. -/
def readArgument (specs : List OptionSpec) (state : State) (arg : String) : Step :=
  if state.onlyOperands then addOperand state arg
  else
    match state.pending with
    | some spec => if looksLikeOption arg then .error .misuse else give state spec arg
    | none =>
      match arg.toList with
      | ['-', '-'] => .ok { state with onlyOperands := true }
      | '-' :: '-' :: body => readLong specs state body
      | '-' :: letter :: rest => readLetters specs state (letter :: rest)
      | _ => addOperand state arg

/-- Read the arguments of a command. -/
def readArguments (specs : List OptionSpec) : State → List String → Step
  | state, [] => if state.pending.isSome then .error .misuse else .ok state
  | state, arg :: rest => do
      let state ← readArgument specs state arg
      readArguments specs state rest

namespace State

/-- Whether a flag is given. -/
def hasFlag (s : State) (name : String) : Bool := s.given.any fun entry => entry.1 = name

/-- The values given for an option, in order. -/
def values (s : State) (name : String) : List String :=
  (s.given.filter fun entry => entry.1 = name).map Prod.snd

/-- The value given for an option. -/
def value? (s : State) (name : String) : Option String := (s.values name).head?

end State

/-! ## Commands -/

/-- Options that say where a project is. -/
structure ProjectOptions where
  root : Option String := none
  config : Option String := none
  buckets : List String := []
  extension : Option String := none
deriving DecidableEq, Repr, Inhabited

/-- What a command line asks for. -/
inductive Request where
  /-- Infer types and print them. -/
  | analyze (project : ProjectOptions) (isPretty : Bool) (output : Option String)
  /-- Print the load order. -/
  | order (project : ProjectOptions)
  /-- Print the syntax tree of a file. -/
  | parse (file : String) (isPretty : Bool)
deriving DecidableEq, Repr

/-- The flag that asks for more messages, which every command takes. -/
def verbose : OptionSpec := ⟨'v', "verbose", .flag⟩

/-- The flag that asks for indented output. -/
def pretty : OptionSpec := ⟨'p', "pretty", .flag⟩

/-- The option that names a file to write. -/
def output : OptionSpec := ⟨'o', "output", .path⟩

/-- The options that say where a project is. -/
def projectSpecs : List OptionSpec :=
  [⟨'c', "config", .path⟩, ⟨'b', "bucket", .texts⟩, ⟨'e', "extension", .text⟩]

/-- The options that say where a project is, as given. -/
def projectOptions (s : State) : ProjectOptions where
  root := s.operands.head?
  config := s.value? "config"
  buckets := s.values "bucket"
  extension := s.value? "extension"

/-- The names of the commands. -/
def commandNames : List String := ["analyze", "order", "parse", "help"]

/-- Read the arguments of a command. -/
def readCommand (command : String) (args : List String) : Except Stop Request :=
  if command = "analyze" then do
    let s ← readArguments (verbose :: pretty :: output :: projectSpecs) {} args
    .ok (.analyze (projectOptions s) (s.hasFlag "pretty") (s.value? "output"))
  else if command = "order" then do
    let s ← readArguments (verbose :: projectSpecs) {} args
    .ok (.order (projectOptions s))
  else if command = "parse" then do
    let s ← readArguments [verbose, pretty] {} args
    match s.operands with
    | file :: _ => .ok (.parse file (s.hasFlag "pretty"))
    | [] => .error .misuse
  else if command = "help" then
    match args with
    | [] => .error .help
    | [topic] => .error (if commandNames.contains topic then .help else .misuse)
    | _ => .error .misuse
  else .error .misuse

/-- Read a command line: options of the program, a command, and its arguments. -/
def readFrom : State → List String → Except Stop Request
  | _, [] => .error .misuse
  | state, arg :: rest =>
    if looksLikeOption arg then do
      let state ← readArgument [verbose] state arg
      if state.onlyOperands then .error .misuse else readFrom state rest
    else readCommand arg rest

/-- Read a command line. -/
def read (args : List String) : Except Stop Request := readFrom {} args

end Arguments

end LuaShape
