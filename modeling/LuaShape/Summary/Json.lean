import LuaShape.Json.Basic
import LuaShape.Summary.Model

/-!
# Summaries as JSON

The form in which summaries leave the program.  Numbers of symbols are numbers,
type sets are lists of words, and what is absent is `null`.
-/

namespace LuaShape

/-- A type set as the list of its tags. -/
def TypeSet.toJson (types : TypeSet) : Json := .strings (types.toList.map TypeTag.display)

/-- The word for a kind of scope. -/
def ScopeKind.word : ScopeKind → String
  | .module => "module"
  | .function => "function"
  | .block => "block"

/-- The code a scope is part of. -/
def ScopeKey.toJson : ScopeKey → Json
  | .module id => .object [("module", .nat id.index)]
  | .function id => .object [("function", .nat id.index)]

/-- A scope with its bindings. -/
def Scope.toJson (s : Scope) : Json :=
  .object [("kind", .string s.kind.word), ("parent", .option .nat s.parent),
    ("key", s.key.toJson),
    ("locals", .list (fun (name, id) => .array [.string name, .nat id.index]) s.bindings)]

/-- All scopes of a module. -/
def ScopeTree.toJson (t : ScopeTree) : Json :=
  .object [("scopes", .list Scope.toJson t.scopes.toList)]

/-- The value of a field or a return slot. -/
def ValueSummary.toJson (v : ValueSummary) : Json :=
  .object [("literal", .option .string v.literal), ("types", v.types.toJson)]

/-- A field. -/
def FieldSummary.toJson (f : FieldSummary) : Json :=
  .object [("name", .string f.name), ("value", f.value.toJson), ("is_instance", .bool f.isInstance)]

/-- A parameter. -/
def ParamSummary.toJson (p : ParamSummary) : Json :=
  .object [("name", .string p.name), ("types", p.types.toJson)]

/-- A function. -/
def FunctionSummary.toJson (f : FunctionSummary) : Json :=
  .object [("id", .nat f.id.index), ("name", .string f.name),
    ("params", .list ParamSummary.toJson f.params), ("is_vararg", .bool f.isVararg),
    ("returns", .list TypeSet.toJson f.returns), ("is_method", .bool f.isMethod),
    ("is_constructor", .bool f.isConstructor)]

/-- A class. -/
def ClassSummary.toJson (c : ClassSummary) : Json :=
  .object [("table", .nat c.table.index), ("name", .string c.name),
    ("extends", .option .string c.parent), ("derive_name", .option .string c.deriveName),
    ("is_local", .bool c.isLocal), ("is_closure_class", .bool c.isClosure),
    ("is_atom_ui", .bool c.isAtomUi),
    ("static_fields", .list FieldSummary.toJson c.members.staticFields),
    ("instance_fields", .list FieldSummary.toJson c.members.instanceFields),
    ("functions", .list FunctionSummary.toJson c.members.functions),
    ("methods", .list FunctionSummary.toJson c.members.methods),
    ("constructors", .list FunctionSummary.toJson c.members.constructors)]

/-- A table. -/
def TableSummary.toJson (t : TableSummary) : Json :=
  .object [("table", .nat t.table.index), ("name", .string t.name), ("is_local", .bool t.isLocal),
    ("fields", .list FieldSummary.toJson t.fields),
    ("functions", .list FunctionSummary.toJson t.functions)]

/-- A required module. -/
def RequireSummary.toJson (r : RequireSummary) : Json :=
  .object [("name", .string r.name), ("module", .string r.module)]

/-- A module. -/
def ModuleSummary.toJson (m : ModuleSummary) : Json :=
  .object [("id", .string m.name), ("classes", .list ClassSummary.toJson m.classes),
    ("tables", .list TableSummary.toJson m.tables),
    ("functions", .list FunctionSummary.toJson m.functions),
    ("fields", .list FieldSummary.toJson m.fields),
    ("requires", .list RequireSummary.toJson m.requires),
    ("returns", .list ValueSummary.toJson m.returns),
    ("scope", .option ScopeTree.toJson m.scope)]

/-- A whole project. -/
def ProjectSummary.toJson (p : ProjectSummary) : Json :=
  .object [("modules", .list ModuleSummary.toJson p.modules), ("order", .strings p.order),
    ("diagnostics", .strings (p.diagnostics.map Diagnostic.line))]

end LuaShape
