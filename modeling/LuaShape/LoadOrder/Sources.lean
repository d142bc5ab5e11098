import LuaShape.Chunk.Parser
import LuaShape.LoadOrder.Schedule

/-!
# Source files and their order

A source file is a module name with a text.  Files whose text is not a chunk are
reported and left out; the rest are ordered.
-/

namespace LuaShape

/-- A file of a project, read but not parsed. -/
structure SourceFile where
  /-- The module name. -/
  name : String
  text : String
deriving DecidableEq, Repr, Inhabited

namespace SourceFile

/-- The files that are chunks, in order, and reports about the others. -/
def parseAll (stage : Stage) : List SourceFile → List (String × Chunk) × List Diagnostic
  | [] => ([], [])
  | file :: rest =>
    let (chunks, reports) := parseAll stage rest
    match Chunk.parse file.text with
    | .ok chunk => ((file.name, chunk) :: chunks, reports)
    | .error e => (chunks, .unparsable stage file.name e :: reports)

end SourceFile

namespace Schedule

/-- The order of source files, with reports about those left out first. -/
def ofSources (buckets : List String) (files : List SourceFile) : Schedule :=
  let (chunks, reports) := SourceFile.parseAll .ordering files
  let schedule := ofChunks buckets chunks
  { schedule with diagnostics := reports ++ schedule.diagnostics }

end Schedule

end LuaShape
