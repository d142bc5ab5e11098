import LuaShape.Summary.Class

/-!
# Modules of a summary

A module lists the classes made in it, the plain tables that its names, its
returns and other listed tables lead to, and its globals.  Before that, the
arguments of calls become definitions of the parameters they are given to.
-/

namespace LuaShape.Inference

/-! ## Arguments -/

/-- The parameters that a call gives values to. -/
def argumentDefinitions (s : Inference) (site : CallSite) : List (SymbolId × Definition) :=
  match s.terms.callParts? site.call with
  | none => []
  | some (callee, args) =>
    match (s.resolve callee).singleFunction?.bind s.function? with
    | none => []
    | some f =>
      (f.params.zip args).map fun ((_, symbol), arg) =>
        (symbol, { value := arg, module := site.module, inFunction := true
                   onInstance := false, inConstructor := false })

/-- Make the arguments of all calls definitions of parameters, once.  Which
function is called does not depend on arguments. -/
def propagateArguments (s : Inference) : Inference :=
  if s.argumentsKnown then s
  else
    { s with
      argumentsKnown := true
      definitions := (s.calls.flatMap s.argumentDefinitions).foldl
        (fun definitions (symbol, d) => definitions.push (.bound symbol) d) s.definitions }

/-! ## Tables -/

/-- The tables that definitions give. -/
def tableValues (s : Inference) (defs : List Definition) : List TableId :=
  defs.filterMap fun d => s.terms.tableLiteral? d.value

/-- The definitions of a global that a module makes. -/
def globalDefinitions (s : Inference) (index : Nat) (name : String) : List Definition :=
  (s.definitionsOf (.global name)).filter fun d => d.module = index

/-- The bindings that a module declares outside every function. -/
def moduleLocals (m : ModuleRecord) : List SymbolId :=
  match m.scope with
  | none => []
  | some tree =>
    tree.scopes.toList.flatMap fun scope =>
      match scope.key with
      | .module _ => scope.bindings.map Prod.snd
      | .function _ => []

/-- The tables that the names and the returns of a module lead to directly. -/
def tableSeeds (s : Inference) (index : Nat) (m : ModuleRecord) : List TableId :=
  (m.globals.flatMap fun name => s.tableValues (s.globalDefinitions index name)) ++
  ((moduleLocals m).flatMap fun symbol => s.tableValues (s.definitionsOf (.bound symbol))) ++
  (m.returns.flatten.flatMap fun d => (s.resolve d.value).tables)

/-- The tables stored in the fields of a table. -/
def nestedTables (s : Inference) (t : TableRecord) : List TableId :=
  s.tableValues t.fields.values.flatten

/-- Add to the tables `found` those of a module that a queue leads to, taking at
most `limit` tables from the queue. -/
def reach (s : Inference) (index : Nat) :
    (limit : Nat) → (found : SortedSet TableId) → (queue : List TableId) → SortedSet TableId
  | 0, found, _ => found
  | _ + 1, found, [] => found
  | limit + 1, found, id :: queue =>
    match s.table? id with
    | none => reach s index limit found queue
    | some t =>
      if t.module ≠ index || found.contains id then reach s index limit found queue
      else reach s index limit (found.insert id) (s.nestedTables t ++ queue)

/-- The tables of a module that some tables lead to.  The fields of each table are
queued at most once, which bounds the number of steps. -/
def reachable (s : Inference) (index : Nat) (seeds : List TableId) : SortedSet TableId :=
  let stored := s.tables.values.flatMap s.nestedTables
  s.reach index (seeds.length + stored.length) .empty seeds

/-- Whether a table is listed as a plain table when a module leads to it. -/
def isPlainTable (t : TableRecord) : Bool := !t.isClass && t.instanceOf.isNone && !t.isSuperseded

/-- The plain tables that a module lists, in ascending order. -/
def relevantTables (s : Inference) (index : Nat) (m : ModuleRecord) : List TableRecord :=
  ((s.reachable index (s.tableSeeds index m)).toList.filterMap s.table?).filter isPlainTable

/-- The summary of a plain table, which is named after its module if it has no
name. -/
def tableSummary (s : Inference) (m : ModuleRecord) (t : TableRecord) : TableSummary where
  table := t.id
  name := (s.tableLabel? t.id).getD (ModuleName.lastPart m.name)
  isLocal := t.nameIsLocal
  fields := t.fields.entries.filterMap fun (key, defs) =>
    match s.firstFunction? defs with
    | some _ => none
    | none => some (s.fieldSummary key defs false)
  functions := t.fields.entries.filterMap fun (key, defs) =>
    (s.firstFunction? defs).map fun f => s.functionSummary f key

/-! ## Globals -/

/-- Whether a global is listed as a class or table, and so not as a field. -/
def namesTable (s : Inference) (name : String) (types : TypeSet) : Bool :=
  match types.singleTable?.bind s.table? with
  | some t => decide (t.name = some name) || t.isClass
  | none => false

/-- The globals that a module assigns and that do not hold a required module. -/
def ownGlobals (m : ModuleRecord) : List String :=
  m.globals.filter fun name => !m.requires.contains name

/-- The function that a global of a module is. -/
def globalFunction? (s : Inference) (index : Nat) (name : String) : Option FunctionSummary :=
  (s.firstFunction? (s.globalDefinitions index name)).map fun f => s.functionSummary f name

/-- The field that a global of a module is, if it is neither a function nor listed
as a table. -/
def globalField? (s : Inference) (index : Nat) (name : String) : Option FieldSummary :=
  let defs := s.globalDefinitions index name
  match s.firstFunction? defs with
  | some _ => none
  | none =>
    let types := s.identTypes (.global name)
    if s.namesTable name types then none
    else some { name, value := s.valueSummary defs types, isInstance := false }

/-! ## Modules -/

/-- The classes made in a module. -/
def moduleClasses (s : Inference) (index : Nat) : List ClassSummary :=
  s.tables.values.filterMap fun t =>
    match t.classInfo with
    | some info =>
      if t.module = index && !t.isSuperseded && t.instanceOf.isNone then
        some (s.classSummary t info)
      else none
    | none => none

/-- The summary of the module at a position. -/
def moduleSummary (s : Inference) (index : Nat) (m : ModuleRecord) : ModuleSummary where
  name := m.name
  classes := s.moduleClasses index
  tables := (s.relevantTables index m).map (s.tableSummary m)
  functions := (ownGlobals m).filterMap (s.globalFunction? index)
  fields := (ownGlobals m).filterMap (s.globalField? index)
  requires := m.requires.entries.map fun (name, module) => { name, module }
  returns := m.returns.map fun defs => s.valueSummary defs (s.typesOf defs)
  scope := m.scope

/-- The summaries of all modules that have been read, in the order in which they
became known. -/
def moduleSummaries (s : Inference) : List ModuleSummary :=
  s.modules.zipIdx.filterMap fun (m, index) =>
    if m.isRead then some (s.moduleSummary index m) else none

end LuaShape.Inference
