import LuaShape.LoadOrder.Diagnostic
import LuaShape.Scope.Tree
import LuaShape.Types.TypeSet

/-!
# The shape of a module

What a run finds out about a module, as handed to whoever documents it or writes
stubs for it: classes, tables, functions and fields with their types, the modules
it requires and the values it returns.
-/

namespace LuaShape

/-- The value of a field, a global or a return slot. -/
structure ValueSummary where
  /-- The value as source text, if there is a single definition and it is a scalar
  literal. -/
  literal : Option String
  types : TypeSet
deriving DecidableEq

/-- A field or a global that is not a function. -/
structure FieldSummary where
  name : String
  value : ValueSummary
  isInstance : Bool
deriving DecidableEq

/-- A parameter. -/
structure ParamSummary where
  name : String
  types : TypeSet
deriving DecidableEq

/-- A function. -/
structure FunctionSummary where
  id : FunctionId
  name : String
  /-- The parameters, without the `self` of a method. -/
  params : List ParamSummary
  isVararg : Bool
  returns : List TypeSet
  isMethod : Bool
  isConstructor : Bool
deriving DecidableEq

/-- The members of a class. -/
structure ClassMembers where
  staticFields : List FieldSummary := []
  instanceFields : List FieldSummary := []
  functions : List FunctionSummary := []
  methods : List FunctionSummary := []
  constructors : List FunctionSummary := []
deriving DecidableEq, Inhabited

/-- A class. -/
structure ClassSummary where
  table : TableId
  name : String
  /-- The name of the class it is derived from. -/
  parent : Option String
  deriveName : Option String
  isLocal : Bool
  isClosure : Bool
  isAtomUi : Bool
  members : ClassMembers
deriving DecidableEq

/-- A table that is not a class. -/
structure TableSummary where
  table : TableId
  name : String
  isLocal : Bool
  fields : List FieldSummary
  functions : List FunctionSummary
deriving DecidableEq

/-- A global that holds a required module. -/
structure RequireSummary where
  name : String
  module : String
deriving DecidableEq

/-- A module. -/
structure ModuleSummary where
  name : String
  classes : List ClassSummary
  tables : List TableSummary
  functions : List FunctionSummary
  /-- The globals that are not functions. -/
  fields : List FieldSummary
  requires : List RequireSummary
  returns : List ValueSummary
  scope : Option ScopeTree
deriving DecidableEq

/-- What a run finds out. -/
structure ProjectSummary where
  /-- The modules in the order in which they were read. -/
  modules : List ModuleSummary
  order : List String
  /-- Reports about files left out and other findings. -/
  diagnostics : List Diagnostic

namespace ClassMembers

/-- All fields, static ones first. -/
def fields (c : ClassMembers) : List FieldSummary := c.staticFields ++ c.instanceFields

/-- The field of a name. -/
def field? (c : ClassMembers) (name : String) : Option FieldSummary :=
  c.fields.find? fun f => f.name = name

/-- The constructor, method or plain function of a name, in this order of
preference. -/
def function? (c : ClassMembers) (name : String) : Option FunctionSummary :=
  (c.constructors ++ c.methods ++ c.functions).find? fun f => f.name = name

end ClassMembers

namespace TableSummary

/-- The field of a name. -/
def field? (t : TableSummary) (name : String) : Option FieldSummary :=
  t.fields.find? fun f => f.name = name

/-- The function of a name. -/
def function? (t : TableSummary) (name : String) : Option FunctionSummary :=
  t.functions.find? fun f => f.name = name

end TableSummary

namespace ModuleSummary

/-- The first class of a name. -/
def class? (m : ModuleSummary) (name : String) : Option ClassSummary :=
  m.classes.find? fun c => c.name = name

/-- The first table of a name. -/
def table? (m : ModuleSummary) (name : String) : Option TableSummary :=
  m.tables.find? fun t => t.name = name

/-- The function of a name. -/
def function? (m : ModuleSummary) (name : String) : Option FunctionSummary :=
  m.functions.find? fun f => f.name = name

/-- The field of a name. -/
def field? (m : ModuleSummary) (name : String) : Option FieldSummary :=
  m.fields.find? fun f => f.name = name

end ModuleSummary

namespace ProjectSummary

/-- The module of a name. -/
def module? (p : ProjectSummary) (name : String) : Option ModuleSummary :=
  p.modules.find? fun m => m.name = name

end ProjectSummary

end LuaShape
