import LuaShape.LoadOrder.Graph

/-!
# The order in which files are read

Files are taken bucket by bucket in the configured order, those outside every
bucket last, and within a group from the greatest name down.  A file waits for
the files it depends on; an edge back to a file that is itself waiting closes a
cycle and is reported and ignored.

The work is done on a stack.  The file on top is marked as seen.  If it depends
on files that are neither placed nor seen they go on top of it; otherwise it is
placed.
-/

namespace LuaShape

/-- An order of files and what was noticed while finding it. -/
structure Schedule where
  order : List String
  diagnostics : List Diagnostic
deriving DecidableEq, Inhabited

namespace Schedule

/-- The state of the search for an order. -/
structure Progress where
  /-- The files placed so far, first one first. -/
  placed : List String := []
  /-- The files that have been on top of the stack. -/
  seen : List String := []
  diagnostics : List Diagnostic := []
deriving DecidableEq, Inhabited

namespace Progress

/-- Mark a file as seen; the first time its requires are reported on. -/
def visit (g : Graph) (p : Progress) (file : String) : Progress :=
  if file ∈ p.seen then p
  else { p with
    seen := file :: p.seen
    diagnostics := p.diagnostics ++ g.requireReports file }

/-- Report that the edge from `file` to `dependency` is ignored, once. -/
def breakCycle (file : String) (p : Progress) (dependency : String) : Progress :=
  let report := Diagnostic.cycleBroken file dependency
  if report ∈ p.diagnostics then p
  else { p with diagnostics := p.diagnostics ++ [report] }

/-- Place a file behind those already placed. -/
def place (p : Progress) (file : String) : Progress :=
  { p with placed := p.placed ++ [file] }

end Progress

/-- Take a file from the top of the stack.  A placed file is done.  Otherwise its
edges to seen files are ignored, and the files it has to wait for go on top of it;
a file that has to wait for none is placed. -/
def step (g : Graph) (p : Progress) (file : String) (stack : List String) :
    Progress × List String :=
  if file ∈ p.placed then (p, stack)
  else
    let p := p.visit g file
    let unplaced := (g.dependencies file).toList.filter (· ∉ p.placed)
    let p := (unplaced.filter (· ∈ p.seen)).foldl (Progress.breakCycle file) p
    match unplaced.filter (· ∉ p.seen) with
    | [] => (p.place file, stack)
    | pending => (p, pending.reverse ++ file :: stack)

/-- Work off a stack of files, top first.  `limit` bounds the number of files
taken from the stack. -/
def run (g : Graph) : (limit : Nat) → Progress → List String → Progress
  | 0, p, _ => p
  | _, p, [] => p
  | limit + 1, p, file :: stack =>
    let (p, stack) := step g p file stack
    run g limit p stack

/-- A bound on the files taken from the stack for one group: every file goes on
it once from the start, once more while it waits, and once for each file that
depends on it. -/
def limitFor (g : Graph) : Nat := (g.files.size + 1) * (g.files.size + 2)

/-- The names of the files in a bucket, or outside every bucket. -/
def group (g : Graph) (bucket : Option String) : List String :=
  (g.files.values.filter fun file => file.bucket = bucket).map ProjectFile.name

/-- The groups of files in the order in which they are taken. -/
def groups (g : Graph) : List (List String) :=
  g.buckets.map (fun bucket => group g (some bucket)) ++ [group g none]

/-- Take the files of a group, the greatest name first. -/
def runGroup (g : Graph) (p : Progress) (files : List String) : Progress :=
  run g (limitFor g) p (SortedSet.ofList files).toList.reverse

/-- The order of the files of a project. -/
def ofGraph (g : Graph) : Schedule :=
  let final := (groups g).foldl (runGroup g) {}
  { order := final.placed, diagnostics := final.diagnostics }

/-- Add a file to a graph, or report that its name is taken. -/
def addFile (state : Graph × List Diagnostic) (file : String × Effects) :
    Graph × List Diagnostic :=
  match state.1.insert? file.1 file.2 with
  | some g => (g, state.2)
  | none => (state.1, state.2 ++ [.duplicate file.1])

/-- The order of parsed files; of files with one name only the first is kept. -/
def ofChunks (buckets : List String) (files : List (String × Chunk)) : Schedule :=
  let (g, duplicates) :=
    (files.map fun file => (file.1, Effects.ofChunk file.2)).foldl addFile
      (Graph.empty buckets, [])
  let schedule := ofGraph g
  { schedule with diagnostics := duplicates ++ schedule.diagnostics }

end Schedule

end LuaShape
