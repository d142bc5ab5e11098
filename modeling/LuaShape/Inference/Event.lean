import LuaShape.Inference.ClassIdiom

/-!
# Facts from statements

What the reader of a module reports: values given to names and fields, returned
values, and objects that a function builds.
-/

namespace LuaShape

/-- Append a value to the list at a position, adding empty lists as needed. -/
def appendAt {α : Type} (value : α) : (position : Nat) → List (List α) → List (List α)
  | 0, [] => [[value]]
  | 0, slot :: rest => (slot ++ [value]) :: rest
  | n + 1, [] => [] :: appendAt value n []
  | n + 1, slot :: rest => slot :: appendAt value n rest

namespace Inference

/-- Name a table or function after the first name it is given. -/
def nameValue (s : Inference) (value : TermId) (name : String) (isLocal : Bool) : Inference :=
  match s.term value with
  | .literal (.table id) =>
    s.modifyTable id fun t =>
      if t.name.isNone then { t with name := some name, nameIsLocal := isLocal } else t
  | .literal (.function id) =>
    s.modifyFunction id fun f => { f with name := f.name.or (some name) }
  | _ => s

/-- Record that the current module assigns a global, and the module it requires
for it. -/
def noteGlobal (s : Inference) (name : String) (value : TermId) : Inference :=
  let target :=
    match s.term value with
    | .require _ target _ => target
    | _ => none
  s.modifyModule fun m =>
    { m with
      globals := if m.globals.contains name then m.globals else m.globals ++ [name]
      requires := match target with
        | some module => m.requires.insert name module
        | none => m.requires }

/-- Add a definition of a name. -/
def pushDefinition (s : Inference) (ident : Ident) (d : Definition) : Inference :=
  { s with definitions := s.definitions.push ident d }

/-- Record a value given to a name. -/
def define (s : Inference) (ident : Ident) (value : TermId) (inFunction : Bool) : Inference :=
  match ident with
  | .bound symbol =>
    let name := (s.registry.nameOf? symbol).getD ""
    (s.nameValue value name true).pushDefinition ident
      { value, module := s.current, inFunction
        onInstance := s.registry.isInstanceBinding symbol, inConstructor := false }
  | .global name =>
    ((s.nameValue value name false).noteGlobal name value).pushDefinition ident
      { value, module := s.current, inFunction, onInstance := false, inConstructor := false }

/-- Record what `self` is in a method. -/
def defineSelf (s : Inference) (symbol : SymbolId) (receiver : TermId) : Inference :=
  s.pushDefinition (.bound symbol)
    { value := receiver, module := s.current, inFunction := true, onInstance := true
      inConstructor := false }

/-- Name a value after the field it is stored in.  A table without name remembers
its first place; a function without name gets that of the field. -/
def placeValue (s : Inference) (id : TableId) (key : String) (value : TermId) : Inference :=
  match s.term value with
  | .literal (.table inner) =>
    if inner = id then s
    else
      s.modifyTable inner fun t =>
        if t.containedIn.isNone && t.name.isNone then { t with containedIn := some (id, key) }
        else t
  | .literal (.function function) =>
    let qualified := s.tableName id ++ "." ++ key
    s.modifyFunction function fun f => { f with name := f.name.or (some qualified) }
  | _ => s

/-- Record a value given to a field of a known table. -/
def attachField (s : Inference) (id : TableId) (key : String) (value : TermId)
    (inFunction onInstance inConstructor : Bool) : Inference :=
  let d : Definition := { value, module := s.current, inFunction, onInstance, inConstructor }
  (s.placeValue id key value).modifyTable id fun t => { t with fields := t.fields.push key d }

/-- Record a value given to a field of whatever a term stands for.  Nothing is
recorded unless that is one table; the field of an instance is an instance field
of its class. -/
def addField (s : Inference) (base : TermId) (key : String) (value : TermId)
    (inFunction : Bool) : Inference :=
  let types := s.resolve base
  match types.singleTable? with
  | none => s
  | some id =>
    match (s.table? id).bind TableRecord.instanceOf with
    | some owner => s.attachField owner key value inFunction true false
    | none =>
      s.attachField id key value inFunction
        (types.isInstance || s.isInstanceReference base) false

/-- Record a value written in a table constructor. -/
def addTableField (s : Inference) (id : TableId) (key : String) (value : TermId)
    (inFunction : Bool) : Inference :=
  (s.modifyTable id fun t => { t with literalKeys := t.literalKeys ++ [key] }).attachField
    id key value inFunction false true

/-- Record an assignment. -/
def addAssignment (s : Inference) (target value : TermId) (inFunction : Bool) : Inference :=
  let (value, s) := s.assignedValue target value
  match s.term target with
  | .reference ident => s.define ident value inFunction
  | .member base name => s.addField base name value inFunction
  | .index base key =>
    match s.terms.fieldKey? key with
    | some name => s.addField base name value inFunction
    | none => s
  | _ => s

/-- Record a returned value of a function, or of the current module. -/
def addReturn (s : Inference) (function : Option FunctionId) (slot : Nat) (value : TermId) :
    Inference :=
  match function with
  | some id => s.modifyFunction id fun f => { f with returns := appendAt value slot f.returns }
  | none =>
    let d : Definition :=
      { value, module := s.current, inFunction := false, onInstance := false
        inConstructor := false }
    s.modifyModule fun m => { m with returns := appendAt d slot m.returns }

/-- The table that a function builds its object from, with the value its binding
holds: a table constructor, or a new table on top of `Base` for `Base.new()`. -/
def builtTable? (s : Inference) (symbol : SymbolId) (value : TermId) :
    Option (TableId × TermId × Inference) :=
  match s.terms.tableLiteral? value with
  | some id => some (id, value, s)
  | none =>
    (s.memberCall? value "new").map fun (base, _) =>
      let parent := s.classTable? base
      let (id, s) := s.newTable ((s.registry.nameOf? symbol).getD "self")
      let s := s.modifyTable id fun t => { t with base := parent }
      let (literal, s) := s.alloc (.literal (.table id))
      (id, literal, s)

/-- Record that a function binds `self` or `publ` to an object it may be
building.  Gives the value that the binding holds. -/
def addBuiltObject (s : Inference) (function : FunctionId) (symbol : SymbolId) (value : TermId) :
    TermId × Inference :=
  match s.builtTable? symbol value with
  | none => (value, s)
  | some (table, held, s) =>
    (held, s.modifyFunction function fun f => { f with builtObject := some { symbol, table } })

end Inference

end LuaShape
