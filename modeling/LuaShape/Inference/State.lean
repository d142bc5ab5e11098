import LuaShape.Data.OrderedMap
import LuaShape.LoadOrder.Diagnostic
import LuaShape.Module.Name
import LuaShape.Scope.Tree
import LuaShape.Term.Basic
import LuaShape.Types.TypeSet

/-!
# What a run has learned

Reading modules only collects facts: the values that names and fields are given,
the tables and functions that occur, how values are used, and which calls are
made.  An `Inference` holds these facts for all modules of a run.  Types are
computed from them on demand, so nothing in the state depends on the order in
which questions are asked.
-/

namespace LuaShape

/-- A value given to a name or to a field. -/
structure Definition where
  value : TermId
  /-- The position of the module in which the value is given. -/
  module : Nat
  /-- Given when a function runs, not when the module is loaded. -/
  inFunction : Bool
  /-- Given through `self` or through the object a function builds. -/
  onInstance : Bool
  /-- Given in a table constructor. -/
  inConstructor : Bool
deriving DecidableEq, Repr

/-- The object a function builds: its binding and its table. -/
structure BuiltObject where
  symbol : SymbolId
  table : TableId
deriving DecidableEq, Repr

/-- What is known of a function. -/
structure FunctionRecord where
  id : FunctionId
  module : Nat
  /-- A readable name such as `Foo.bar` or `Foo:new`. -/
  name : Option String
  /-- `Foo` in `function Foo.bar()`. -/
  receiver : Option TermId := none
  params : List (String × SymbolId) := []
  isVararg : Bool := false
  /-- Whether the first parameter is `self`, written or implied. -/
  isMethod : Bool := false
  /-- The returned values, slot by slot. -/
  returns : List (List TermId) := []
  /-- The class of which the function makes instances. -/
  constructs : Option TableId := none
  builtObject : Option BuiltObject := none
deriving DecidableEq, Repr

/-- What makes a table a class. -/
structure ClassInfo where
  name : String
  /-- The name the class was given when it was derived. -/
  deriveName : Option String := none
  /-- Built by a function that hangs methods on a local table. -/
  isClosure : Bool := false
  /-- Made by the UI node framework. -/
  isAtomUi : Bool := false
deriving DecidableEq, Repr, Inhabited

/-- What is known of a table. -/
structure TableRecord where
  id : TableId
  module : Nat
  name : Option String := none
  nameIsLocal : Bool := false
  /-- The keys written in the constructor, in order. -/
  literalKeys : List String := []
  fields : OrderedMap String (List Definition) := .empty
  classInfo : Option ClassInfo := none
  /-- The table that is asked for keys this one lacks. -/
  base : Option TableId := none
  /-- The class of which this table is an instance. -/
  instanceOf : Option TableId := none
  /-- The table and the key this table was first stored under. -/
  containedIn : Option (TableId × String) := none
  /-- An empty table that a derived class has taken the place of. -/
  isSuperseded : Bool := false
deriving DecidableEq

namespace TableRecord

/-- Whether a table is a class. -/
def isClass (t : TableRecord) : Bool := t.classInfo.isSome

/-- The name of a table itself: that of its class, or the one it was assigned to. -/
def ownName? (t : TableRecord) : Option String := (t.classInfo.map ClassInfo.name).or t.name

end TableRecord

/-- A call and the module it is made in. -/
structure CallSite where
  call : TermId
  module : Nat
deriving DecidableEq, Repr

/-- What is known of a module. -/
structure ModuleRecord where
  name : String
  bucket : Option String
  /-- Whether the module has been read to its end. -/
  isRead : Bool := false
  /-- The values the module returns, slot by slot. -/
  returns : List (List Definition) := []
  /-- The globals that hold a required module, with its name. -/
  requires : OrderedMap String String := .empty
  /-- The globals the module assigns, in order and without repetition. -/
  globals : List String := []
  scope : Option ScopeTree := none
deriving DecidableEq

/-- What a recorded use is about: a name, wherever it occurs, or one term. -/
inductive UsageKey where
  | ident (ident : Ident)
  | term (id : TermId)
deriving DecidableEq, Repr

/-- The facts collected in a run. -/
structure Inference where
  buckets : List String
  registry : Registry := .empty
  terms : Arena := {}
  definitions : OrderedMap Ident (List Definition) := .empty
  functions : OrderedMap FunctionId FunctionRecord := .empty
  tables : OrderedMap TableId TableRecord := .empty
  usages : OrderedMap UsageKey TypeSet := .empty
  /-- The bindings declared outside every function. -/
  moduleLevel : List SymbolId := []
  calls : List CallSite := []
  modules : List ModuleRecord := []
  /-- The position of the module being read. -/
  current : Nat := 0
  /-- Whether call arguments have been turned into definitions of parameters. -/
  argumentsKnown : Bool := false
  diagnostics : List Diagnostic := []

namespace Inference

/-- The facts known before anything is read. -/
def empty (buckets : List String) : Inference := { buckets }

/-! ## Looking things up -/

/-- The term with a number. -/
def term (s : Inference) (id : TermId) : Term := s.terms.get id

/-- What is known of a table. -/
def table? (s : Inference) (id : TableId) : Option TableRecord := s.tables.find? id

/-- What is known of a function. -/
def function? (s : Inference) (id : FunctionId) : Option FunctionRecord := s.functions.find? id

/-- The definitions of a name, oldest first. -/
def definitionsOf (s : Inference) (ident : Ident) : List Definition := s.definitions.get ident

/-- The module being read. -/
def currentModule? (s : Inference) : Option ModuleRecord := s.modules[s.current]?

/-- The module with a name. -/
def moduleNamed? (s : Inference) (name : String) : Option ModuleRecord :=
  s.modules.find? fun m => m.name = name

/-- Whether a table is a class. -/
def isClass (s : Inference) (id : TableId) : Bool :=
  ((s.table? id).map TableRecord.isClass).getD false

/-- The class a table is an instance of, or the table itself. -/
def classOrSelf (s : Inference) (id : TableId) : TableId :=
  ((s.table? id).bind TableRecord.instanceOf).getD id

/-- Whether a term is a table that a derived class has taken the place of. -/
def isSuperseded (s : Inference) (id : TermId) : Bool :=
  (((s.terms.tableLiteral? id).bind s.table?).map TableRecord.isSuperseded).getD false

/-- Whether a term is a name through which assignments make instance fields. -/
def isInstanceReference (s : Inference) (id : TermId) : Bool :=
  match s.term id with
  | .reference (.bound symbol) => s.registry.isInstanceBinding symbol
  | _ => false

/-- Whether a name is visible to code outside every function. -/
def isModuleLevel (s : Inference) : Ident → Bool
  | .global _ => true
  | .bound symbol => s.moduleLevel.contains symbol

/-- The definitions of a key on the first of at most `limit` tables along the
base links that has any. -/
def fieldDefinitionsWithin (s : Inference) (key : String) : (limit : Nat) → TableId → List Definition
  | 0, _ => []
  | limit + 1, id =>
    match s.table? id with
    | none => []
    | some record =>
      match record.fields.get key with
      | [] =>
        match record.base with
        | some base => fieldDefinitionsWithin s key limit base
        | none => []
      | found => found

/-- The definitions of a key on a table, or else on the nearest base that has
any.  No chain of distinct tables is longer than the number of tables. -/
def fieldDefinitions (s : Inference) (id : TableId) (key : String) : List Definition :=
  s.fieldDefinitionsWithin key s.tables.size id

/-- Whether a table or one of its bases has a field. -/
def hasField (s : Inference) (id : TableId) (key : String) : Bool :=
  !(s.fieldDefinitions id key).isEmpty

/-- The name of a table, going out through at most `limit` tables. -/
def tableLabelWithin (s : Inference) : (limit : Nat) → TableId → Option String
  | 0, _ => none
  | limit + 1, id =>
    (s.table? id).bind fun record =>
      record.ownName?.or
        (record.containedIn.bind fun (container, key) =>
          (tableLabelWithin s limit container).map fun label => label ++ "." ++ key)

/-- The name of a table: its own, or that of the table it is stored in followed
by the key.  Tables stored in each other without any name have none. -/
def tableLabel? (s : Inference) (id : TableId) : Option String :=
  s.tableLabelWithin s.tables.size id

/-- The name of a table, or a text made of its number. -/
def tableName (s : Inference) (id : TableId) : String :=
  (s.tableLabel? id).getD ("table#" ++ toString id.index)

/-! ## Making things known -/

/-- Add a term. -/
def alloc (s : Inference) (term : Term) : TermId × Inference :=
  let (id, terms) := s.terms.alloc term
  (id, { s with terms })

/-- Change what is known of a table. -/
def modifyTable (s : Inference) (id : TableId) (f : TableRecord → TableRecord) : Inference :=
  { s with tables := s.tables.modify id f }

/-- Change what is known of a function. -/
def modifyFunction (s : Inference) (id : FunctionId) (f : FunctionRecord → FunctionRecord) :
    Inference :=
  { s with functions := s.functions.modify id f }

/-- Change what is known of the module being read. -/
def modifyModule (s : Inference) (f : ModuleRecord → ModuleRecord) : Inference :=
  { s with modules := s.modules.modify s.current f }

/-- Add a binding that no scope declares. -/
def newSymbol (s : Inference) (kind : SymbolKind) (name : String) : SymbolId × Inference :=
  let (index, registry) := s.registry.mint kind name
  (⟨index⟩, { s with registry })

/-- Add a table; the hint is its name in the registry. -/
def newTable (s : Inference) (hint : String) : TableId × Inference :=
  let (index, registry) := s.registry.mint .table hint
  (⟨index⟩, { s with
    registry
    tables := s.tables.insert ⟨index⟩ { id := ⟨index⟩, module := s.current } })

/-- Add a function. -/
def newFunction (s : Inference) (name : Option String) : FunctionId × Inference :=
  let (index, registry) := s.registry.mint .function (name.getD "<anonymous>")
  (⟨index⟩, { s with
    registry
    functions := s.functions.insert ⟨index⟩ { id := ⟨index⟩, module := s.current, name } })

/-- Set the parameters of a function.  A first parameter called `self` makes it a
method. -/
def setParameters (s : Inference) (id : FunctionId) (params : List (String × SymbolId))
    (isVararg isMethod : Bool) : Inference :=
  let startsWithSelf := (params.head?.map fun param => decide (param.1 = "self")).getD false
  s.modifyFunction id fun f =>
    { f with params, isVararg, isMethod := isMethod || startsWithSelf }

/-- Set what a function statement hangs its function on. -/
def setReceiver (s : Inference) (id : FunctionId) (receiver : TermId) : Inference :=
  s.modifyFunction id fun f => { f with receiver := some receiver }

/-- Record that a binding is declared outside every function. -/
def markModuleLevel (s : Inference) (symbol : SymbolId) : Inference :=
  { s with moduleLevel := s.moduleLevel ++ [symbol] }

/-- Hand over the reports collected so far. -/
def takeDiagnostics (s : Inference) : List Diagnostic × Inference :=
  (s.diagnostics, { s with diagnostics := [] })

/-! ## Modules -/

/-- Make a module known, so that requires can find it before it is read.  Gives
its position. -/
def register (s : Inference) (name : String) : Nat × Inference :=
  match s.modules.findIdx? fun m => m.name = name with
  | some index => (index, s)
  | none =>
    (s.modules.length, { s with
      modules := s.modules ++ [{ name, bucket := ModuleName.bucketOf s.buckets name }] })

/-- Start reading a module, with a scope tree of its own. -/
def beginModule (s : Inference) (name : String) : ScopeTree × Inference :=
  let (index, s) := s.register name
  let (scope, registry) := s.registry.mint .module name
  (ScopeTree.ofModule ⟨scope⟩, { s with current := index, registry })

/-- End reading the current module. -/
def endModule (s : Inference) (scope : ScopeTree) : Inference :=
  s.modifyModule fun m => { m with isRead := true, scope := some scope }

/-- The known modules that a short name may stand for. -/
def candidates (s : Inference) (name : String) : List String :=
  (s.modules.map ModuleRecord.name).filter fun module => (ModuleName.aliases module).contains name

/-- The module a normalized name leads to: the one of that name, the only one
with that short name, or the only such one in the bucket of the current module. -/
def findModule? (s : Inference) (name : String) : Option String :=
  if (s.moduleNamed? name).isSome then some name
  else
    match s.candidates name with
    | [] => none
    | [only] => some only
    | several =>
      (s.currentModule?.bind ModuleRecord.bucket).bind fun bucket =>
        match several.filter fun module => ModuleName.bucketOf s.buckets module = some bucket with
        | [only] => some only
        | _ => none

/-- The module that the argument of a require leads to.  Another module that has
not been read is reported. -/
def resolveRequire (s : Inference) (argument : String) : Option String × Inference :=
  match s.findModule? (ModuleName.ofRequire argument) with
  | none => (none, s)
  | some target =>
    let from? := s.currentModule?.map ModuleRecord.name
    let isRead := ((s.moduleNamed? target).map ModuleRecord.isRead).getD false
    if isRead || from? = some target then (some target, s)
    else
      (some target, { s with
        diagnostics := s.diagnostics ++ [.requiredEarly (from?.getD "") target] })

end Inference

end LuaShape
