import LuaShape.Chunk.Json
import LuaShape.Command.Arguments
import LuaShape.Project.Load
import LuaShape.Summary.Json

/-!
# Running a command

A command reads files, prints lines and ends with an exit code: 0 if it succeeds,
1 if it fails, 2 if the command line is wrong.
-/

namespace LuaShape

/-- What running a command leaves behind. -/
structure Outcome where
  exitCode : Nat
  /-- The text printed on standard output. -/
  stdout : String := ""
  /-- The lines printed on standard error. -/
  stderr : List String := []
deriving DecidableEq, Repr, Inhabited

namespace Outcome

/-- The outcome of a command that fails with a message, after some reports. -/
def failure (reports : List String) (message : String) : Outcome :=
  { exitCode := 1, stderr := reports ++ [message] }

/-- The outcome of a command that prints lines, with some reports. -/
def success (reports lines : List String) : Outcome :=
  { exitCode := 0, stdout := String.join (lines.map fun line => line ++ "\n"), stderr := reports }

end Outcome

namespace Command

open Arguments (ProjectOptions Request)

/-- How the program is used. -/
def usage : List String :=
  ["Usage: luashape [-v] COMMAND",
   "",
   "  analyze [-c FILE] [-b NAME]... [-e EXTENSION] [-p] [-o FILE] [ROOT]",
   "      print the types of the modules of a project as JSON",
   "  order [-c FILE] [-b NAME]... [-e EXTENSION] [ROOT]",
   "      print the load order of a project",
   "  parse [-p] FILE",
   "      print the syntax tree of a file as JSON"]

/-- JSON as text, on one line or several. -/
def jsonText (isPretty : Bool) (value : Json) : String :=
  if isPretty then value.pretty else value.compact

/-- Settings with the options of the command line on top.  The extension may be
given with leading points. -/
def override (config : ProjectConfig) (options : ProjectOptions) : ProjectConfig where
  root := options.root.getD config.root
  buckets := if options.buckets.isEmpty then config.buckets else options.buckets
  extension :=
    match options.extension with
    | some text => String.ofList (text.toList.dropWhile (· = '.'))
    | none => config.extension

variable {m : Type → Type} [Monad m]

/-- The text of a file, or a message. -/
def readText (fs : FileSystem m) (path : String) : m (Except String String) := do
  let content ← fs.read path
  pure (match content.bind FileTree.textOf with
    | .ok text => .ok text
    | .error e => .error ("Error reading " ++ path ++ ": " ++ e.message))

/-- The settings of a configuration file, or the usual ones. -/
def loadConfig (fs : FileSystem m) : Option String → m (Except String ProjectConfig)
  | none => pure (.ok {})
  | some path => do
      match ← readText fs path with
      | .error message => pure (.error message)
      | .ok text =>
        match ProjectConfig.ofText? text with
        | some config => pure (.ok config)
        | none => pure (.error ("Invalid config " ++ path ++ ": not a project configuration"))

/-- The settings that a command works with. -/
def settings (fs : FileSystem m) (options : ProjectOptions) : m (Except String ProjectConfig) := do
  match ← loadConfig fs options.config with
  | .ok config => pure (.ok (override config options))
  | .error message => pure (.error message)

/-- Infer the types of a project, and print or write them. -/
def analyze (fs : FileSystem m) (options : ProjectOptions) (isPretty : Bool)
    (output : Option String) : m Outcome := do
  match ← settings fs options with
  | .error message => pure (.failure [] message)
  | .ok config => do
      let found ← config.discover fs
      let summary := ProjectSummary.ofFound config found
      let reports := summary.diagnostics.map Diagnostic.line
      let text := jsonText isPretty summary.toJson
      match output with
      | none => pure (.success reports [text])
      | some path => do
          match ← fs.write path text.toUTF8 with
          | .ok () =>
            pure (.success reports
              ["Analyzed " ++ toString summary.modules.length ++ " modules into " ++ path])
          | .error e => pure (.failure reports ("Error writing " ++ path ++ ": " ++ e.message))

/-- Print the load order of a project. -/
def order (fs : FileSystem m) (options : ProjectOptions) : m Outcome := do
  match ← settings fs options with
  | .error message => pure (.failure [] message)
  | .ok config => do
      let found ← config.discover fs
      let schedule := Schedule.ofFound config found
      pure (.success (schedule.diagnostics.map Diagnostic.line) schedule.order)

/-- The place and the wording of a parse error. -/
def parseReport (path source : String) (e : ParseError) : String :=
  path ++ ":" ++ toString (Source.lineOf source e.span) ++ ": " ++ e.message

/-- Print the syntax tree of a file. -/
def parse (fs : FileSystem m) (path : String) (isPretty : Bool) : m Outcome := do
  match ← readText fs path with
  | .error message => pure (.failure [] message)
  | .ok source =>
    match Chunk.parse source with
    | .ok chunk => pure (.success [] [jsonText isPretty chunk.toJson])
    | .error e =>
      pure (.failure [parseReport path source e] ("Failed to parse " ++ path))

/-- Do what a command line asks for. -/
def run (fs : FileSystem m) (args : List String) : m Outcome :=
  match Arguments.read args with
  | .ok (.analyze options isPretty output) => analyze fs options isPretty output
  | .ok (.order options) => order fs options
  | .ok (.parse file isPretty) => parse fs file isPretty
  | .error .help => pure (.success [] usage)
  | .error .misuse => pure { exitCode := 2, stderr := usage }

end Command

end LuaShape
