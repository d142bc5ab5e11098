import LuaShape.Chunk.ParseError

/-!
# Reports about a project

What can be said about a project besides its types: files that were left out,
requires that name no module or several, and cycles.  A report is *hard* when
the file it is about is left out.  Codes and wording are fixed here alone.
-/

namespace LuaShape

/-- The work during which a file turned out not to be a chunk. -/
inductive Stage where
  /-- Finding the load order only. -/
  | ordering
  /-- Inferring types. -/
  | inference
deriving DecidableEq, Repr, Inhabited

/-- A report about a project. -/
inductive Diagnostic where
  /-- A file could not be read. -/
  | unreadable (path reason : String)
  /-- A file is not a chunk. -/
  | unparsable (stage : Stage) (file : String) (error : ParseError)
  /-- Another file has the same module name. -/
  | duplicate (file : String)
  /-- A required name fits several modules. -/
  | ambiguousRequire (file name : String) (candidates : List String)
  /-- A required name fits no module. -/
  | unresolvedRequire (file name : String)
  /-- A file is loaded before one it depends on, to break a cycle. -/
  | cycleBroken (file dependency : String)
  /-- A module is required before it has been read. -/
  | requiredEarly (file target : String)
deriving DecidableEq, Repr, Inhabited

namespace Diagnostic

/-- The code of a report. -/
def code : Diagnostic → String
  | unreadable .. => "E-DEP-001"
  | unparsable .ordering _ _ => "E-DEP-002"
  | unparsable .inference _ _ => "E-ANA-001"
  | duplicate _ => "E-DEP-003"
  | ambiguousRequire .. => "E-DEP-004"
  | unresolvedRequire .. => "E-DEP-005"
  | cycleBroken .. => "E-DEP-006"
  | requiredEarly .. => "E-ANA-003"

/-- The wording of a report. -/
def message : Diagnostic → String
  | unreadable path reason => "failed to read " ++ path ++ ": " ++ reason
  | unparsable _ file error => "failed to parse " ++ file ++ ": " ++ error.message
  | duplicate file => "duplicate module id: " ++ file
  | ambiguousRequire file name candidates =>
    "ambiguous require '" ++ name ++ "' in " ++ file ++ ": " ++
      String.intercalate ", " candidates
  | unresolvedRequire file name => "unresolved require '" ++ name ++ "' in " ++ file
  | cycleBroken file dependency =>
    "dependency cycle broken: " ++ file ++ " -> " ++ dependency
  | requiredEarly file target => file ++ " requires " ++ target ++ " before it was analyzed"

/-- Whether the file a report is about is left out. -/
def isHard : Diagnostic → Bool
  | unreadable .. | unparsable .. | duplicate _ => true
  | _ => false

/-- A report as one line. -/
def line (d : Diagnostic) : String := d.code ++ ": " ++ d.message

end Diagnostic

end LuaShape
