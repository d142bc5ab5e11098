import LuaShape.Inference.Resolve

/-!
# Ways of writing a class

Lua has no classes, but five customs of writing them are recognized:

* `Node = Base:__call({ _ATOM_UI_CLASS = "Node" })` makes `Base` and the table in
  the call classes of the UI node framework, the second derived from the first;
* `Child = Base:derive("Child")` makes a class derived from `Base`, if `Base` has
  a field `derive`;
* `function Foo:new() … end` makes `Foo` a class and its `new` the constructor;
* `setmetatable(o, Foo)` and `setmetatable(o, { __index = Foo })` make `o` an
  instance of `Foo`;
* a named function that builds a local object and hangs a function on it makes a
  class of the object, or of `X` if it is `X.new`.

Each has a recognizer, which looks at the facts, and an effect, which changes
them.  The event at which it is looked for is different for all but the first two,
of which the first has precedence.
-/

namespace LuaShape.Inference

/-! ## Classes and instances -/

/-- Make a table a class, with a given name or else its own; a class keeps its
name.  Then change what is known of the class. -/
def promoteClass (s : Inference) (id : TableId) (name : Option String)
    (f : ClassInfo → ClassInfo) : Inference :=
  let newName := name.getD (s.tableName id)
  { s with tables := s.tables.upsert id fun old =>
      let record := old.getD { id, module := s.current }
      { record with classInfo := some (f (record.classInfo.getD { name := newName })) } }

/-- The definitions of an instance's field as definitions of its class. -/
def inheritedDefinitions (s : Inference) (withFunctions : Bool) (defs : List Definition) :
    List Definition :=
  defs.filterMap fun d =>
    match s.terms.functionLiteral? d.value with
    | some _ => if withFunctions then some { d with onInstance := false } else none
    | none => some { d with onInstance := true }

/-- Add definitions to fields, key by key. -/
def appendFields (fields : OrderedMap String (List Definition)) :
    List (String × List Definition) → OrderedMap String (List Definition)
  | [] => fields
  | (_, []) :: rest => appendFields fields rest
  | (key, d :: ds) :: rest =>
    appendFields (fields.upsert key fun old => old.getD [] ++ d :: ds) rest

/-- Make a table an instance of a class.  What it holds is then held by the
instances of the class; functions only if asked for. -/
def makeInstance (s : Inference) (id owner : TableId) (withFunctions : Bool) : Inference :=
  match s.table? id with
  | none => s
  | some record =>
    let added := record.fields.entries.map fun (key, defs) =>
      (key, s.inheritedDefinitions withFunctions defs)
    (s.modifyTable id fun t => { t with instanceOf := some owner }).modifyTable owner fun t =>
      { t with fields := appendFields t.fields added }

/-! ## Shapes of terms -/

/-- The name of an assignment target. -/
def targetName? (s : Inference) (target : TermId) : Option String :=
  match s.term target with
  | .reference (.global name) => some name
  | .reference (.bound symbol) => s.registry.nameOf? symbol
  | .member _ name => some name
  | _ => none

/-- The base and the arguments of a call `base.method(…)` or `base:method(…)`. -/
def memberCall? (s : Inference) (call : TermId) (method : String) :
    Option (TermId × List TermId) :=
  match s.terms.callParts? call with
  | some (callee, args) =>
    match s.term callee with
    | .member base name => if name = method then some (base, args) else none
    | _ => none
  | none => none

/-! ## Classes of the UI node framework -/

/-- The field that marks a class table of the UI node framework. -/
def atomUiMark : String := "_ATOM_UI_CLASS"

/-- A table constructor with the mark among arguments. -/
def markedArgument? (s : Inference) (args : List TermId) : Option (TermId × TableRecord) :=
  args.findSome? fun arg =>
    ((s.terms.tableLiteral? arg).bind s.table?).bind fun record =>
      if record.fields.contains atomUiMark then some (arg, record) else none

/-- The marked argument and the base of `Base:__call({ _ATOM_UI_CLASS = … })`. -/
def atomUiClass? (s : Inference) (value : TermId) : Option (TermId × TableRecord × TableId) := do
  let (base, args) ← s.memberCall? value "__call"
  let (arg, record) ← s.markedArgument? args
  let parent ← s.classTable? base
  some (arg, record, parent)

/-- Make both tables classes; the target holds the marked one. -/
def applyAtomUiClass (s : Inference) (target arg : TermId) (record : TableRecord)
    (parent : TableId) : TermId × Inference :=
  let mark := (record.fields.get atomUiMark).head?.bind fun d => s.terms.stringLiteral? d.value
  let name := s.targetName? target
  let s := s.promoteClass parent none fun c => { c with isAtomUi := true }
  let s := s.promoteClass record.id name fun c => { c with isAtomUi := true, deriveName := mark }
  (arg, s.modifyTable record.id fun t => { t with base := some parent })

/-! ## Derived classes -/

/-- The base and the arguments of `Base:derive(…)`, where `Base` has a field
`derive`. -/
def derivedClass? (s : Inference) (value : TermId) : Option (TableId × List TermId) := do
  let (base, args) ← s.memberCall? value "derive"
  let parent ← s.classTable? base
  if s.hasField parent "derive" then some (parent, args) else none

/-- The tables without fields that define a name. -/
def emptyTables (s : Inference) (ident : Ident) : List TableId :=
  (s.definitionsOf ident).filterMap fun d =>
    ((s.terms.tableLiteral? d.value).bind s.table?).bind fun record =>
      if record.fields.isEmpty then some record.id else none

/-- Empty tables that the target held before give way to the class. -/
def supersedeEmpty (s : Inference) (target : TermId) : Inference :=
  match s.term target with
  | .reference ident =>
    (s.emptyTables ident).foldl
      (fun s id => s.modifyTable id fun t => { t with isSuperseded := true }) s
  | _ => s

/-- Make a new table for the derived class; the target holds it. -/
def applyDerivedClass (s : Inference) (target : TermId) (parent : TableId) (args : List TermId) :
    TermId × Inference :=
  let deriveName := args.findSome? s.terms.stringLiteral?
  let name := ((s.targetName? target).or deriveName).getD (s.tableName parent ++ "Derived")
  let s := (s.supersedeEmpty target).promoteClass parent none id
  let (child, s) := s.newTable name
  let s := s.modifyTable child fun t => { t with base := some parent }
  let s := s.promoteClass child (some name) fun c => { c with deriveName }
  s.alloc (.literal (.table child))

/-! ## Events -/

/-- The value that a target is given, which is another than the one assigned if
the assignment makes a class. -/
def assignedValue (s : Inference) (target value : TermId) : TermId × Inference :=
  match s.atomUiClass? value with
  | some (arg, record, parent) => s.applyAtomUiClass target arg record parent
  | none =>
    match s.derivedClass? value with
    | some (parent, args) => s.applyDerivedClass target parent args
    | none => (value, s)

/-- Record that a function statement has hung a function on a table.  The first
`function Foo:new()` makes `Foo` a class. -/
def methodDefined (s : Inference) (base : TermId) (method : String) (id : FunctionId)
    (isColon : Bool) : Inference :=
  let isNew := isColon && method = "new" &&
    ((s.function? id).map fun f => f.constructs.isNone).getD false
  if !isNew then s
  else
    match s.classTable? base with
    | none => s
    | some owner =>
      (s.promoteClass owner none (fun c => c)).modifyFunction id fun f =>
        { f with constructs := some owner }

/-- The object and the class of `setmetatable(object, class)`, if the object is
one table that is neither a class nor an instance yet. -/
def metatableInstance? (s : Inference) (call : TermId) : Option (TableId × TableId) :=
  match s.terms.callParts? call with
  | some (callee, object :: metatable :: _) =>
    match s.term callee with
    | .reference (.global name) => do
        if name ≠ "setmetatable" || !(s.definitionsOf (.global name)).isEmpty then none
        let id ← (s.resolve object).singleTable?
        let record ← s.table? id
        if record.isClass || record.instanceOf.isSome then none
        let index := ((s.terms.tableLiteral? metatable).bind s.table?).bind fun record =>
          (record.fields.get "__index").head?.map Definition.value
        let owner ← s.classTable? (index.getD metatable)
        if owner = id then none else some (id, owner)
    | _ => none
  | _ => none

/-- Record a call.  A call that sets a metatable makes an instance. -/
def addCall (s : Inference) (call : TermId) : Inference :=
  let s : Inference := { s with calls := s.calls ++ [{ call, module := s.current }] }
  match s.metatableInstance? call with
  | some (id, owner) => (s.promoteClass owner none fun c => c).makeInstance id owner false
  | none => s

/-- What stands before `.new` or `:new` at the end of a name. -/
def constructorOwner? (name : String) : Option String :=
  let cs := name.toList
  if [".new".toList, ":new".toList].any fun ending => ending.isSuffixOf cs then
    some (String.ofList (cs.take (cs.length - 4)))
  else none

/-- Whether a function is stored in a field of a table. -/
def hasFunctionField (s : Inference) (id : TableId) : Bool :=
  match s.table? id with
  | some record =>
    record.fields.values.any fun defs =>
      defs.any fun d => (s.terms.functionLiteral? d.value).isSome
  | none => false

/-- The name and the object of a named function that builds an object with a
function in it. -/
def closureClass? (s : Inference) (id : FunctionId) :
    Option (String × FunctionRecord × BuiltObject) := do
  let record ← s.function? id
  let name ← record.name
  let object ← record.builtObject
  if s.hasFunctionField object.table then some (name, record, object) else none

/-- The table `X` of a function `X.new`, if it is another than the object. -/
def objectOwner? (s : Inference) (name : String) (record : FunctionRecord)
    (object : BuiltObject) : Option TableId :=
  match constructorOwner? name, record.receiver with
  | some _, some receiver =>
    (s.resolve receiver).singleTable?.bind fun owner =>
      if owner = object.table then none else some owner
  | _, _ => none

/-- Record the end of a function body.  A function that has built an object with
functions makes a class. -/
def endFunction (s : Inference) (id : FunctionId) : Inference :=
  match s.closureClass? id with
  | none => s
  | some (name, record, object) =>
    let base := (s.table? object.table).bind TableRecord.base
    let (owner, s) :=
      match s.objectOwner? name record object with
      | some owner => (owner, s.makeInstance object.table owner true)
      | none => (object.table, s)
    let s := s.modifyTable owner fun t => { t with base := t.base.or base }
    s.promoteClass owner (some ((constructorOwner? name).getD name)) fun c =>
      { c with isClosure := true }

end LuaShape.Inference
