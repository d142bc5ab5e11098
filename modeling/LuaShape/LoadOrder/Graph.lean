import LuaShape.Data.OrderedMap
import LuaShape.LoadOrder.Diagnostic
import LuaShape.LoadOrder.Effects

/-!
# Which file depends on which

A `Graph` holds the files of a project with their effects, and two indexes: from
each shorter name to the modules it may stand for, and from each global to the
files that assign it.  A file depends on the modules it requires and on the
files that assign a global it reads.
-/

namespace LuaShape

/-- A file of a project. -/
structure ProjectFile where
  /-- The module name. -/
  name : String
  bucket : Option String
  effects : Effects
deriving DecidableEq, Inhabited

/-- What a required name stands for. -/
inductive RequireTarget where
  | found (name : String)
  | ambiguous (candidates : List String)
  | missing
deriving DecidableEq, Repr, Inhabited

/-- The files of a project and their indexes. -/
structure Graph where
  buckets : List String
  /-- The files by module name, in the order of insertion. -/
  files : OrderedMap String ProjectFile := ∅
  /-- The modules that a shorter name may stand for, in the order of insertion. -/
  aliases : OrderedMap String (List String) := ∅
  /-- The files that assign a global, in the order of insertion. -/
  setters : OrderedMap String (List String) := ∅
deriving Inhabited

namespace Graph

/-- A project without files. -/
def empty (buckets : List String) : Graph := { buckets }

/-- Add a file; a name that is taken is refused. -/
def insert? (g : Graph) (name : String) (effects : Effects) : Option Graph :=
  if g.files.contains name then none
  else some { g with
    files := g.files.insert name
      { name, bucket := ModuleName.bucketOf g.buckets name, effects }
    aliases := (ModuleName.aliases name).foldl (fun index short => index.push short name)
      g.aliases
    setters := effects.writes.toList.foldl (fun index global => index.push global name)
      g.setters }

/-- The module that a name stands for when it is required from the given bucket.
A module's own name always does; a shorter name must fit one module, or one
module of the requiring bucket. -/
def resolve (g : Graph) (name : String) (bucket : Option String) : RequireTarget :=
  if g.files.contains name then .found name
  else
    match g.aliases.get name with
    | [] => .missing
    | [only] => .found only
    | candidates =>
      let near := candidates.filter fun id =>
        bucket.isSome && (g.files.find? id).bind ProjectFile.bucket = bucket
      match near with
      | [only] => .found only
      | _ => .ambiguous candidates

/-- The report that a file's require of `name` calls for, if any. -/
def requireReport? (g : Graph) (file : ProjectFile) (name : String) : Option Diagnostic :=
  match g.resolve name file.bucket with
  | .found _ => none
  | .ambiguous candidates => some (.ambiguousRequire file.name name candidates)
  | .missing => some (.unresolvedRequire file.name name)

/-- The other module that a file's require of `name` leads to, if any. -/
def requireTarget? (g : Graph) (file : ProjectFile) (name : String) : Option String :=
  match g.resolve name file.bucket with
  | .found target => if target = file.name then none else some target
  | _ => none

/-- The reports about the requires of a file. -/
def requireReports (g : Graph) (name : String) : List Diagnostic :=
  match g.files.find? name with
  | some file => file.effects.requires.toList.filterMap (g.requireReport? file)
  | none => []

/-- The other modules that a file requires. -/
def explicitDependencies (g : Graph) (name : String) : SortedSet String :=
  match g.files.find? name with
  | some file =>
    SortedSet.ofList (file.effects.requires.toList.filterMap (g.requireTarget? file))
  | none => ∅

/-- The other files that assign a global which a file reads. -/
def implicitDependencies (g : Graph) (name : String) : SortedSet String :=
  match g.files.find? name with
  | some file =>
    SortedSet.ofList
      ((file.effects.reads.toList.flatMap g.setters.get).filter (· ≠ name))
  | none => ∅

/-- All files that a file depends on. -/
def dependencies (g : Graph) (name : String) : SortedSet String :=
  (g.explicitDependencies name).union (g.implicitDependencies name)

end Graph

end LuaShape
