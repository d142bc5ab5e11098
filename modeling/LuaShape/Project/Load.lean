import LuaShape.LoadOrder.Sources
import LuaShape.Project.Config
import LuaShape.Project.FileTree
import LuaShape.Summary.Project

/-!
# Loading a project

The source files of a project are looked for in its buckets, in order, and then by
name.  A file that cannot be read is reported and left out.
-/

namespace LuaShape

/-- A file found in a project. -/
structure FoundFile where
  path : String
  content : Except AccessError ByteArray

namespace ProjectConfig

/-- Whether a file name has the extension, regardless of the case of ASCII
letters. -/
def hasExtension (config : ProjectConfig) (name : String) : Bool :=
  match Path.splitExtension? name with
  | some (_, extension) =>
    extension.toList.map Char.toLower = config.extension.toList.map Char.toLower
  | none => false

/-- The last name of a path. -/
def fileName (path : String) : String :=
  match (Path.parts path).getLast? with
  | some (.name text) => text
  | _ => ""

/-- The directories in which source files are looked for. -/
def searched (config : ProjectConfig) : List String :=
  if config.buckets.isEmpty then [config.root]
  else config.buckets.map fun bucket => Path.join config.root bucket

/-- The source files in a directory. -/
def sourceFiles (config : ProjectConfig) (path : String) (t : FileTree) : List FoundFile :=
  (t.filesBelow path).filterMap fun (path, content) =>
    if config.hasExtension (fileName path) then some { path, content } else none

section

variable {m : Type → Type} [Monad m]

/-- The source files in some directories; those that are not there are passed
over. -/
def discoverIn (config : ProjectConfig) (fs : FileSystem m) : List String → m (List FoundFile)
  | [] => pure []
  | path :: rest => do
      let here ← fs.directory? path
      let others ← discoverIn config fs rest
      pure ((here.map (config.sourceFiles path)).getD [] ++ others)

/-- The source files of a project. -/
def discover (config : ProjectConfig) (fs : FileSystem m) : m (List FoundFile) :=
  config.discoverIn fs config.searched

end

/-- The modules in found files, and reports about files that cannot be read.  A
file that is not below the root is no module. -/
def load (config : ProjectConfig) : List FoundFile → List SourceFile × List Diagnostic
  | [] => ([], [])
  | found :: rest =>
    let (files, reports) := load config rest
    match Path.moduleName? config.root found.path with
    | none => (files, reports)
    | some name =>
      match found.content.bind FileTree.textOf with
      | .ok text => ({ name, text } :: files, reports)
      | .error e => (files, .unreadable found.path e.message :: reports)

end ProjectConfig

namespace ProjectSummary

/-- Everything that is found out about the files of a project. -/
def ofFound (config : ProjectConfig) (found : List FoundFile) : ProjectSummary :=
  let (files, reports) := config.load found
  let summary := ofSources config.buckets files
  { summary with diagnostics := reports ++ summary.diagnostics }

end ProjectSummary

namespace Schedule

/-- The order of the files of a project. -/
def ofFound (config : ProjectConfig) (found : List FoundFile) : Schedule :=
  let (files, reports) := config.load found
  let schedule := ofSources config.buckets files
  { schedule with diagnostics := reports ++ schedule.diagnostics }

end Schedule

end LuaShape
