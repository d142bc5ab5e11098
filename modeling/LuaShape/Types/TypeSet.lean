import LuaShape.Data.SortedSet
import LuaShape.Types.TypeTag

/-!
# Sets of possible types

A `TypeSet` lists the ways a value may be; the empty set says that nothing is
known.  The operations here are those that inference needs: what part of a set
can be true or false, which tables and functions it names, and the form in which
booleans are reported.
-/

namespace LuaShape

/-- A set of possible types. -/
abbrev TypeSet := SortedSet TypeTag

namespace TypeSet

/-- The set of one tag. -/
def single (tag : TypeTag) : TypeSet := SortedSet.empty.insert tag

/-- The set of the tags of a list. -/
def of (tags : List TypeTag) : TypeSet := SortedSet.ofList tags

/-- The types from which uses of a value rule some out. -/
def usageDomain : TypeSet := of [.boolean, .number, .string, .function, .table]

/-- The tables a set names, in ascending order. -/
def tables (s : TypeSet) : List TableId :=
  s.toList.filterMap fun
    | .tableRef id => some id
    | _ => none

/-- The functions a set names, in ascending order. -/
def functions (s : TypeSet) : List FunctionId :=
  s.toList.filterMap fun
    | .functionRef id => some id
    | _ => none

/-- The table a set names, if it names exactly one. -/
def singleTable? (s : TypeSet) : Option TableId :=
  match s.tables with
  | [id] => some id
  | _ => none

/-- The function a set names, if it names exactly one. -/
def singleFunction? (s : TypeSet) : Option FunctionId :=
  match s.functions with
  | [id] => some id
  | _ => none

/-- Whether the classes of a set are meant as instances. -/
def isInstance (s : TypeSet) : Bool := s.contains .instanceMark

/-- The tags other than the instance mark. -/
def withoutMark (s : TypeSet) : TypeSet := s.erase .instanceMark

/-- The truth value that all given tags share, if there is one. -/
def sharedTruthiness : List TypeTag → Option Bool
  | [] => none
  | [tag] => tag.truthiness
  | tag :: rest =>
    match tag.truthiness, sharedTruthiness rest with
    | some a, some b => if a = b then some a else none
    | _, _ => none

/-- The truth value that every member has, if there is one. -/
def truthiness (s : TypeSet) : Option Bool := sharedTruthiness s.withoutMark.toList

/-- The part that can be false, with `boolean` narrowed to `false`. -/
def falsyPart (s : TypeSet) : TypeSet :=
  of (s.toList.filterMap fun
    | .nil => some .nil
    | .false => some .false
    | .boolean => some .false
    | _ => none)

/-- The part that can be true, with `boolean` narrowed to `true`. -/
def truthyPart (s : TypeSet) : TypeSet :=
  of (s.toList.filterMap fun
    | .nil => none
    | .false => none
    | .boolean => some .true
    | tag => some tag)

/-- The set of Lua's types that the tags belong to. -/
def basicPart (s : TypeSet) : TypeSet := of (s.toList.map TypeTag.basic)

/-- The set with `true` and `false` merged into `boolean` where both occur, and
dropped beside `boolean`. -/
def collapseBooleans (s : TypeSet) : TypeSet :=
  let both := s.contains .true && s.contains .false
  let merged := if both || s.contains .boolean then (s.erase .true).erase .false else s
  if both then merged.insert .boolean else merged

/-- A set as text: its tags between bars, or `any` for the empty set. -/
def display (s : TypeSet) : String :=
  if s.isEmpty then "any" else String.intercalate "|" (s.toList.map TypeTag.display)

end TypeSet

end LuaShape
