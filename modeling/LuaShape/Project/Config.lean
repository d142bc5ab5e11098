import LuaShape.Json.Reader

/-!
# Project settings

Where the modules of a project are: a root directory, the subdirectories to look
in, and the extension of source files.  Settings can be read from JSON, as an
object or as a list of the three values in order; what is missing has its default,
and other members of an object do not matter, as long as their names are texts.
-/

namespace LuaShape

/-- Settings of a project. -/
structure ProjectConfig where
  root : String := "."
  /-- The subdirectories to look in, in order; all of the root if there are none. -/
  buckets : List String := ["shared", "client", "server"]
  /-- The extension of source files, without its point. -/
  extension : String := "lua"
deriving DecidableEq, Repr, Inhabited

namespace ProjectConfig

/-- A text setting. -/
def textOf? : Json → Option String
  | .string s => some s
  | _ => none

/-- A setting that is a list of texts. -/
def textsOf? : Json → Option (List String)
  | .array items => items.mapM textOf?
  | _ => none

/-- The setting of a name, or its default.  Nothing if it is given twice or is not
of its kind. -/
def setting? {α : Type} (read : Json → Option α) (fallback : α) (name : String)
    (members : List (String × Json)) : Option α :=
  match members.filter fun entry => entry.1 = name with
  | [] => some fallback
  | [(_, value)] => read value
  | _ => none

/-- Settings from the members of an object. -/
def ofMembers? (members : List (String × Json)) : Option ProjectConfig := do
  let plain : ProjectConfig := {}
  let root ← setting? textOf? plain.root "root" members
  let buckets ← setting? textsOf? plain.buckets "buckets" members
  let extension ← setting? textOf? plain.extension "extension" members
  some { root, buckets, extension }

/-- Settings from a list of values. -/
def ofValues? (values : List Json) : Option ProjectConfig :=
  if values.length > 3 then none
  else ofMembers? (["root", "buckets", "extension"].zip values)

/-- Settings from JSON. -/
def ofJson? : Json → Option ProjectConfig
  | .object members => ofMembers? members
  | .array values => ofValues? values
  | _ => none

/-- Settings from the text of a file. -/
def ofText? (text : String) : Option ProjectConfig := (Json.parse? text).bind ofJson?

end ProjectConfig

end LuaShape
