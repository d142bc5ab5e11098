import LuaShape.Inference.Resolve
import LuaShape.Summary.Model

/-!
# Values and functions of a summary

The types in a summary are in a final form: without the instance mark, with
booleans merged, and with `table` instead of the names of more than two classes.
-/

namespace LuaShape.Inference

/-- The greatest number of classes that a reported type set names. -/
def maxClasses : Nat := 2

/-- The classes that a type set names. -/
def classesIn (s : Inference) (types : TypeSet) : List TableId := types.tables.filter s.isClass

/-- Replace all named tables by `table`. -/
def withoutTableNames (types : TypeSet) : TypeSet :=
  (types.filter fun
    | .tableRef _ => false
    | _ => true).insert .table

/-- The form in which a type set is reported. -/
def finalTypes (s : Inference) (types : TypeSet) : TypeSet :=
  let merged := types.withoutMark.collapseBooleans
  if (s.classesIn merged).length > maxClasses then withoutTableNames merged else merged

/-- The types that definitions give, each resolved on its own. -/
def typesOf (s : Inference) (defs : List Definition) : TypeSet :=
  (s.standing defs).foldl (fun types d => types.union (s.resolve d.value)) .empty

/-- The source text of a single scalar definition. -/
def literalText? (s : Inference) : List Definition → Option String
  | [only] =>
    match s.term only.value with
    | .literal value => value.sourceText?
    | _ => none
  | _ => none

/-- The value that definitions give. -/
def valueSummary (s : Inference) (defs : List Definition) (types : TypeSet) : ValueSummary where
  literal := s.literalText? defs
  types := s.finalTypes types

/-- The types of a parameter: those of the arguments it is given, or else those
that its uses leave. -/
def parameterTypes (s : Inference) (symbol : SymbolId) : TypeSet :=
  let types := s.identTypes (.bound symbol)
  if types.isEmpty then (s.usage? (.ident (.bound symbol))).getD .empty else s.finalTypes types

/-- The types of a return slot. -/
def returnTypes (s : Inference) (values : List TermId) : TypeSet :=
  s.finalTypes (values.foldl (fun types id => types.union (s.resolve id)) .empty)

/-- The summary of a function under a name. -/
def functionSummary (s : Inference) (f : FunctionRecord) (name : String) : FunctionSummary where
  id := f.id
  name := name
  params := (f.params.drop (if f.isMethod then 1 else 0)).map fun (param, symbol) =>
    { name := param, types := s.parameterTypes symbol }
  isVararg := f.isVararg
  returns :=
    match f.constructs with
    | some owner => [.single (.tableRef owner)]
    | none => f.returns.map s.returnTypes
  isMethod := f.isMethod
  isConstructor := f.constructs.isSome

/-- Whether a definition gives a function. -/
def isFunction (s : Inference) (d : Definition) : Bool :=
  (s.terms.functionLiteral? d.value).isSome

/-- The first function among definitions. -/
def firstFunction? (s : Inference) (defs : List Definition) : Option FunctionRecord :=
  (defs.findSome? fun d => s.terms.functionLiteral? d.value).bind s.function?

/-- The summary of a field. -/
def fieldSummary (s : Inference) (name : String) (defs : List Definition) (isInstance : Bool) :
    FieldSummary where
  name := name
  value := s.valueSummary defs (s.typesOf defs)
  isInstance := isInstance

end LuaShape.Inference
