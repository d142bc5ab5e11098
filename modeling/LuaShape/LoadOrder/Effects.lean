import LuaShape.Chunk.Tree
import LuaShape.Data.SortedSet
import LuaShape.Module.Name

/-!
# What a file does to the global environment while it loads

Loading a file runs its statements but none of its function bodies.  The
*effects* of a file are the globals it reads, the globals it assigns and the
modules it requires on the way.  A name is global where no local of that name is
in scope, so each rule takes the list of local names in scope and every
statement says which names are in scope behind it.
-/

namespace LuaShape

/-- What loading a file takes from, and gives to, the global environment. -/
structure Effects where
  /-- Globals read. -/
  reads : SortedSet String := ∅
  /-- Globals assigned. -/
  writes : SortedSet String := ∅
  /-- Modules required by a literal name. -/
  requires : SortedSet String := ∅
deriving DecidableEq, Inhabited

namespace Effects

/-- No effect. -/
def none : Effects := {}

/-- The effects of two pieces of code. -/
def both (a b : Effects) : Effects where
  reads := a.reads.union b.reads
  writes := a.writes.union b.writes
  requires := a.requires.union b.requires

instance : Append Effects := ⟨both⟩

/-- Reading a name with the given locals in scope. -/
def read (scope : List String) (name : String) : Effects :=
  if name ∈ scope then none else { reads := SortedSet.empty.insert name }

/-- Assigning a name with the given locals in scope. -/
def write (scope : List String) (name : String) : Effects :=
  if name ∈ scope then none else { writes := SortedSet.empty.insert name }

/-- The module that a call requires: the callee is the global `require`, written
without parentheses, and the first argument is a string. -/
def required? (scope : List String) (callee : Expr) (args : List Expr) : Option String :=
  if callee.nameValue? = some "require" ∧ "require" ∉ scope then
    (args.head?.bind fun arg => arg.unparen.stringValue?).map ModuleName.ofRequire
  else Option.none

/-- The effect of requiring a module, if a call does. -/
def require : Option String → Effects
  | some name => { requires := SortedSet.empty.insert name }
  | Option.none => none

mutual

/-- The effects of evaluating an expression. -/
def ofExpr (scope : List String) : Expr → Effects
  | .name _ text => read scope text
  | .member _ object _ => ofExpr scope object
  | .index _ object key => ofExpr scope object ++ ofExpr scope key
  | .call _ callee args =>
    require (required? scope callee args) ++ ofExpr scope callee ++ ofExprs scope args
  | .methodCall _ object _ args => ofExpr scope object ++ ofExprs scope args
  | .binary _ _ left right => ofExpr scope left ++ ofExpr scope right
  | .unary _ _ operand => ofExpr scope operand
  | .paren _ inner => ofExpr scope inner
  | .table _ fields => ofFields scope fields
  | .nil _ | .boolean _ _ | .number _ _ | .string _ _ | .vararg _ | .function _ _ => none

/-- The effects of evaluating expressions one after the other. -/
def ofExprs (scope : List String) : List Expr → Effects
  | [] => none
  | e :: rest => ofExpr scope e ++ ofExprs scope rest

/-- The effects of building a table. -/
def ofFields (scope : List String) : List Field → Effects
  | [] => none
  | .named _ value :: rest => ofExpr scope value ++ ofFields scope rest
  | .keyed key value :: rest => ofExpr scope key ++ ofExpr scope value ++ ofFields scope rest
  | .positional value :: rest => ofExpr scope value ++ ofFields scope rest

end

/-- The effects of assigning to an expression. -/
def ofTarget (scope : List String) : Expr → Effects
  | .name _ text => write scope text
  | target => ofExpr scope target

/-- The effects of assigning to several expressions. -/
def ofTargets (scope : List String) (targets : List Expr) : Effects :=
  targets.foldr (fun target rest => ofTarget scope target ++ rest) none

/-- The effect of a function statement: a plain name is assigned, and the first
name of a longer path is read. -/
def ofFunctionName (scope : List String) (name : FunctionName) : Effects :=
  if name.members.isEmpty ∧ name.method.isNone then write scope name.root
  else read scope name.root

mutual

/-- The effects of a statement and the locals in scope behind it. -/
def ofStmt (scope : List String) : Stmt → Effects × List String
  | .localVars _ names values => (ofExprs scope values, names ++ scope)
  | .assign _ targets values => (ofExprs scope values ++ ofTargets scope targets, scope)
  | .call _ e => (ofExpr scope e, scope)
  | .doBlock _ body => (ofBlock scope body, scope)
  | .whileLoop _ condition body => (ofExpr scope condition ++ ofBlock scope body, scope)
  | .repeatLoop _ (.mk body _) condition =>
    let (effects, inside) := ofStmts scope body
    (effects ++ ofExpr inside condition, scope)
  | .ifElse _ clauses otherwise =>
    (ofClauses scope clauses ++ (match otherwise with
      | some body => ofBlock scope body
      | Option.none => none), scope)
  | .numericFor _ var start limit step body =>
    (ofExpr scope start ++ ofExpr scope limit ++ (match step with
      | some e => ofExpr scope e
      | Option.none => none) ++ ofBlock (var :: scope) body, scope)
  | .genericFor _ names iterators body =>
    (ofExprs scope iterators ++ ofBlock (names ++ scope) body, scope)
  | .function _ name _ => (ofFunctionName scope name, scope)
  | .localFunction _ name _ => (none, name :: scope)
  | .returnValues _ values => (ofExprs scope values, scope)
  | .breakLoop _ | .goto _ _ | .label _ _ => (none, scope)

/-- The effects of statements one after the other, and the locals behind them. -/
def ofStmts (scope : List String) : List Stmt → Effects × List String
  | [] => (none, scope)
  | s :: rest =>
    let (first, after) := ofStmt scope s
    let (others, final) := ofStmts after rest
    (first ++ others, final)

/-- The effects of a block, whose locals end with it. -/
def ofBlock (scope : List String) : Block → Effects
  | .mk statements _ => (ofStmts scope statements).1

/-- The effects of the guarded blocks of an `if` statement. -/
def ofClauses (scope : List String) : List Clause → Effects
  | [] => none
  | .mk condition body :: rest =>
    ofExpr scope condition ++ ofBlock scope body ++ ofClauses scope rest

end

/-- The effects of loading a file. -/
def ofChunk (chunk : Chunk) : Effects := ofBlock [] chunk.block

end Effects

end LuaShape
