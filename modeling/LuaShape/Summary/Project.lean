import LuaShape.Inference.Reader
import LuaShape.LoadOrder.Sources
import LuaShape.Summary.Module

/-!
# Projects

The files of a project are parsed, put in load order, read in that order and
summarized.  Files that are not chunks and second files of a name are reported
and left out.
-/

namespace LuaShape

namespace Inference

/-- Make modules known, in order. -/
def registerAll (s : Inference) (names : List String) : Inference :=
  names.foldl (fun s name => (s.register name).2) s

/-- Read the chunks of modules, in the order of their names.  The first chunk of a
name counts. -/
def readAll (s : Inference) (chunks : List (String × Chunk)) (names : List String) : Inference :=
  names.foldl
    (fun s name =>
      match chunks.find? fun entry => entry.1 = name with
      | some (_, chunk) => s.readModule name chunk
      | none => s) s

end Inference

namespace ProjectSummary

/-- Everything that is found out about chunks, with their load order. -/
def ofChunks (buckets : List String) (chunks : List (String × Chunk)) : ProjectSummary :=
  let schedule := Schedule.ofChunks buckets chunks
  let s := ((Inference.empty buckets).registerAll schedule.order).readAll chunks schedule.order
  { modules := s.propagateArguments.moduleSummaries
    order := schedule.order
    diagnostics := schedule.diagnostics ++ s.diagnostics }

/-- Everything that is found out about source files. -/
def ofSources (buckets : List String) (files : List SourceFile) : ProjectSummary :=
  let (chunks, reports) := SourceFile.parseAll .inference files
  let summary := ofChunks buckets chunks
  { summary with diagnostics := reports ++ summary.diagnostics }

end ProjectSummary

end LuaShape
