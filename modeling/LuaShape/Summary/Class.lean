import LuaShape.Summary.Value

/-!
# Classes of a summary

The fields of a class table are its members.  Keys that start with `__` are left
out.  A key with a function is a function, unless values other than functions and
nil are assigned to it through an instance.  Fields that an ancestor has with the
same types are not listed again.
-/

namespace LuaShape

/-- What a key of a class table is. -/
inductive Member where
  | function (f : FunctionSummary)
  | field (f : FieldSummary)
deriving DecidableEq

namespace ClassMembers

/-- Add a member at the end of the list it belongs to. -/
def add (c : ClassMembers) : Member → ClassMembers
  | .function f =>
    if f.isConstructor then { c with constructors := c.constructors ++ [f] }
    else if f.isMethod then { c with methods := c.methods ++ [f] }
    else { c with functions := c.functions ++ [f] }
  | .field f =>
    if f.isInstance then { c with instanceFields := c.instanceFields ++ [f] }
    else { c with staticFields := c.staticFields ++ [f] }

/-- Whether a field is declared here with the same name and types. -/
def declares (c : ClassMembers) (f : FieldSummary) : Bool :=
  c.fields.any fun g => g.name = f.name && g.value.types = f.value.types

/-- Leave out the fields that an ancestor declares with the same types. -/
def without (c ancestor : ClassMembers) : ClassMembers :=
  { c with
    staticFields := c.staticFields.filter fun f => !ancestor.declares f
    instanceFields := c.instanceFields.filter fun f => !ancestor.declares f }

end ClassMembers

namespace Inference

/-- Whether a key is for the machinery of tables and not a member. -/
def isHiddenKey (key : String) : Bool := "__".toList.isPrefixOf key.toList

/-- Whether a type set holds a type other than functions and nil. -/
def isConflicting (types : TypeSet) : Bool :=
  types.toList.any fun tag =>
    tag ≠ .instanceMark && tag.basic ≠ .function && tag.basic ≠ .nil

/-- What the values of a key make it, functions aside. -/
def valueMember? (s : Inference) (key : String) (values : List Definition) : Option Member :=
  if values.isEmpty then none
  else some (.field (s.fieldSummary key values (values.any Definition.onInstance)))

/-- What a key of a class table is, if it is a member. -/
def member? (s : Inference) (key : String) (defs : List Definition) : Option Member :=
  if isHiddenKey key then none
  else
    let values := defs.filter fun d => !s.isFunction d
    match s.firstFunction? defs with
    | some f =>
      if isConflicting (s.typesOf (values.filter Definition.onInstance)) then
        s.valueMember? key values
      else some (.function (s.functionSummary f key))
    | none => s.valueMember? key values

/-- The members of a class table. -/
def classMembers (s : Inference) (t : TableRecord) : ClassMembers :=
  (t.fields.entries.filterMap fun (key, defs) => s.member? key defs).foldl ClassMembers.add {}

/-- The first class of a name. -/
def classNamed? (s : Inference) (name : String) : Option TableRecord :=
  s.tables.values.find? fun t =>
    !t.isSuperseded && ((t.classInfo.map fun c => decide (c.name = name)).getD false)

/-- The classes that inheritance leads to by name, at most `limit` of them. -/
def ancestorsWithin (s : Inference) : (limit : Nat) → Option String → List TableId
  | _, none => []
  | 0, _ => []
  | limit + 1, some name =>
    match s.classNamed? name with
    | none => []
    | some t => t.id :: ancestorsWithin s limit (t.base.map s.tableName)

/-- The classes that inheritance leads to by name, each once, nearest first. -/
def ancestors (s : Inference) (parent : Option String) : List TableId :=
  (s.ancestorsWithin s.tables.size parent).eraseDups

/-- The members of a class that are not inherited. -/
def ownMembers (s : Inference) (t : TableRecord) (parent : Option String) : ClassMembers :=
  ((s.ancestors parent).filterMap s.table?).foldl
    (fun members ancestor => members.without (s.classMembers ancestor)) (s.classMembers t)

/-- The summary of a class. -/
def classSummary (s : Inference) (t : TableRecord) (info : ClassInfo) : ClassSummary where
  table := t.id
  name := info.name
  parent := t.base.map s.tableName
  deriveName := info.deriveName
  isLocal := t.nameIsLocal
  isClosure := info.isClosure
  isAtomUi := info.isAtomUi
  members := s.ownMembers t (t.base.map s.tableName)

end Inference

end LuaShape
