import LuaShape.Proofs.Chunk.Parts

/-!
# Other names for locals and other bodies for functions

A `Rewriting` gives locals other names and functions other bodies.  Locals and functions are
known by number: how many of both come before in the code.  The walk over the code hands down
the old and the new names of the locals in scope, so that a name is replaced where it means a
local that gets another name, and nowhere else.

`Chunk.renameLocal` gives one local another name, `Chunk.replaceBodies` gives functions other
bodies, and `Chunk.nameLocals` calls every local by a name that depends on its number only.
The last one shows which local each name means, whatever the locals are called: to rename a
local consistently is to leave it unchanged, and `nameLocals_renameLocal` says that
`renameLocal` does so when the new name occurs nowhere.
-/

namespace LuaShape

open List

/-! ## Names in code -/

/-- The locals that a statement itself declares. -/
def Stmt.locals : Stmt → List String
  | .localVars _ names _ | .genericFor _ names _ _ => names
  | .localFunction _ name _ => [name]
  | .numericFor _ var _ _ _ _ => [var]
  | .assign _ _ _ | .call _ _ | .doBlock _ _ | .whileLoop _ _ _ | .repeatLoop _ _ _
  | .ifElse _ _ _ | .function _ _ _ | .returnValues _ _ | .breakLoop _ | .goto _ _
  | .label _ _ => []

/-- The names that the path of a function statement uses: its first one, and `self` inside a
method. -/
def FunctionName.names (name : FunctionName) : List String :=
  name.root :: if name.method.isSome then ["self"] else []

namespace Node

/-- The names of variables that a part itself declares or uses. -/
def names : Node → List String
  | .expr (.name _ text) => [text]
  | .function body => body.params
  | .statement (.function _ name _) => name.names
  | .statement s => s.locals
  | .expr _ | .field _ | .block _ => []

/-- How many numbers a part takes: one for each local, and one for a function. -/
def places : Node → Nat
  | .function body => body.params.length + 1
  | .statement s => s.locals.length
  | .expr _ | .field _ | .block _ => 0

/-- How many numbers parts take together. -/
def width (nodes : List Node) : Nat := nodes.foldr (fun n rest => n.places + rest) 0

@[simp]
theorem width_nil : width [] = 0 := rfl

@[simp]
theorem width_cons (n : Node) (nodes : List Node) : width (n :: nodes) = n.places + width nodes :=
  rfl

@[simp]
theorem width_append (nodes nodes' : List Node) :
    width (nodes ++ nodes') = width nodes + width nodes' := by
  induction nodes with
  | nil => simp
  | cons n nodes ih => rw [cons_append, width_cons, width_cons, ih, Nat.add_assoc]

/-- A name is no variable of any of several parts. -/
def Lack (nodes : List Node) (name : String) : Prop := ∀ n ∈ nodes, name ∉ n.names

@[simp]
theorem lack_nil (name : String) : Lack [] name := forall_mem_nil _

@[simp]
theorem lack_cons {n : Node} {nodes : List Node} {name : String} :
    Lack (n :: nodes) name ↔ name ∉ n.names ∧ Lack nodes name :=
  forall_mem_cons

@[simp]
theorem lack_append {nodes nodes' : List Node} {name : String} :
    Lack (nodes ++ nodes') name ↔ Lack nodes name ∧ Lack nodes' name :=
  forall_mem_append

end Node

/-! ## The walk -/

/-- Other names for locals and other bodies for functions, by their numbers. -/
structure Rewriting where
  /-- The new name of a local with a number and an old name. -/
  rename : Nat → String → String
  /-- The new body of a function with a number, once the code inside is rewritten. -/
  body : Nat → FunctionBody → FunctionBody

namespace Rewriting

/-- The old and the new names of the locals in scope, innermost first. -/
abbrev Names := List (String × String)

/-- The new name of what an old name means; a global keeps its name. -/
def Names.apply (names : Names) (text : String) : String := (names.lookup text).getD text

theorem Names.apply_cons (old new : String) (names : Names) (text : String) :
    Names.apply ((old, new) :: names) text = if text = old then new else names.apply text := by
  rw [Names.apply, Names.apply, lookup_cons]
  by_cases h : text = old
  · simp [h]
  · rw [beq_false_of_ne h, if_neg h]

variable (r : Rewriting)

/-- The new names of locals that are declared one after the other. -/
def renameAll : Nat → List String → List String
  | _, [] => []
  | n, text :: rest => r.rename n text :: renameAll (n + 1) rest

@[simp]
theorem length_renameAll (n : Nat) (texts : List String) :
    (r.renameAll n texts).length = texts.length := by
  induction texts generalizing n with
  | nil => rfl
  | cons text rest ih => simp [renameAll, ih]

/-- The names in scope behind locals that are declared one after the other. -/
def declare (names : Names) : Nat → List String → Names
  | _, [] => names
  | n, text :: rest => declare ((text, r.rename n text) :: names) (n + 1) rest

/-- The names in scope behind a statement whose numbers start at `n`. -/
def behind (names : Names) (n : Nat) : Stmt → Names
  | .localVars _ texts values => r.declare names (n + Node.width (exprParts values)) texts
  | .localFunction _ text _ => r.declare names n [text]
  | .assign _ _ _ | .call _ _ | .doBlock _ _ | .whileLoop _ _ _ | .repeatLoop _ _ _
  | .ifElse _ _ _ | .numericFor _ _ _ _ _ _ | .genericFor _ _ _ _ | .function _ _ _
  | .returnValues _ _ | .breakLoop _ | .goto _ _ | .label _ _ => names

/-- The names in scope behind statements. -/
def behindAll (names : Names) : Nat → List Stmt → Names
  | _, [] => names
  | n, s :: rest => behindAll (r.behind names n s) (n + Node.width s.parts) rest

mutual

/-- Rewrite an expression whose numbers start at `n`. -/
def ofExpr (names : Names) (n : Nat) : Expr → Expr
  | .nil m => .nil m
  | .boolean m value => .boolean m value
  | .number m text => .number m text
  | .string m value => .string m value
  | .vararg m => .vararg m
  | .function m body => .function m (ofFunction names n body)
  | .table m fields => .table m (ofFields names n fields)
  | .name m text => .name m (names.apply text)
  | .member m object text => .member m (ofExpr names n object) text
  | .index m object key =>
    .index m (ofExpr names n object) (ofExpr names (n + Node.width object.parts) key)
  | .call m callee args =>
    .call m (ofExpr names n callee) (ofExprs names (n + Node.width callee.parts) args)
  | .methodCall m object method args =>
    .methodCall m (ofExpr names n object) method
      (ofExprs names (n + Node.width object.parts) args)
  | .binary m op left right =>
    .binary m op (ofExpr names n left) (ofExpr names (n + Node.width left.parts) right)
  | .unary m op operand => .unary m op (ofExpr names n operand)
  | .paren m inner => .paren m (ofExpr names n inner)

/-- Rewrite expressions. -/
def ofExprs (names : Names) (n : Nat) : List Expr → List Expr
  | [] => []
  | e :: rest => ofExpr names n e :: ofExprs names (n + Node.width e.parts) rest

/-- Rewrite an entry of a table. -/
def ofField (names : Names) (n : Nat) : Field → Field
  | .named name value => .named name (ofExpr names n value)
  | .keyed key value =>
    .keyed (ofExpr names n key) (ofExpr names (n + Node.width key.parts) value)
  | .positional value => .positional (ofExpr names n value)

/-- Rewrite the entries of a table. -/
def ofFields (names : Names) (n : Nat) : List Field → List Field
  | [] => []
  | f :: rest => ofField names n f :: ofFields names (n + Node.width f.parts) rest

/-- Rewrite a function.  Its own number is followed by those of its parameters. -/
def ofFunction (names : Names) (n : Nat) : FunctionBody → FunctionBody
  | .mk id params isVararg body span =>
    r.body n (.mk id (r.renameAll (n + 1) params) isVararg
      (ofBlock (r.declare names (n + 1) params) (n + 1 + params.length) body) span)

/-- Rewrite a block. -/
def ofBlock (names : Names) (n : Nat) : Block → Block
  | .mk statements span => .mk (ofStmts names n statements) span

/-- Rewrite statements one after the other. -/
def ofStmts (names : Names) (n : Nat) : List Stmt → List Stmt
  | [] => []
  | s :: rest => ofStmt names n s :: ofStmts (r.behind names n s) (n + Node.width s.parts) rest

/-- Rewrite a statement whose numbers start at `n`. -/
def ofStmt (names : Names) (n : Nat) : Stmt → Stmt
  | .localVars s texts values =>
    .localVars s (r.renameAll (n + Node.width (exprParts values)) texts) (ofExprs names n values)
  | .assign s targets values =>
    .assign s (ofExprs names n targets)
      (ofExprs names (n + Node.width (exprParts targets)) values)
  | .call s e => .call s (ofExpr names n e)
  | .doBlock s body => .doBlock s (ofBlock names n body)
  | .whileLoop s condition body =>
    .whileLoop s (ofExpr names n condition) (ofBlock names (n + Node.width condition.parts) body)
  | .repeatLoop s (.mk statements span) condition =>
    .repeatLoop s (.mk (ofStmts names n statements) span)
      (ofExpr (r.behindAll names n statements) (n + Node.width (stmtParts statements)) condition)
  | .ifElse s clauses otherwise =>
    .ifElse s (ofClauses names n clauses)
      (ofOtherwise names (n + Node.width (clauseParts clauses)) otherwise)
  | .numericFor s var start limit step body =>
    let afterStart := n + Node.width start.parts
    let afterLimit := afterStart + Node.width limit.parts
    let afterStep := afterLimit + Node.width (stepParts step)
    .numericFor s (r.rename afterStep var) (ofExpr names n start) (ofExpr names afterStart limit)
      (ofStep names afterLimit step)
      (ofBlock (r.declare names afterStep [var]) (afterStep + 1) body)
  | .genericFor s texts iterators body =>
    let afterIterators := n + Node.width (exprParts iterators)
    .genericFor s (r.renameAll afterIterators texts) (ofExprs names n iterators)
      (ofBlock (r.declare names afterIterators texts) (afterIterators + texts.length) body)
  | .function s name body =>
    let inside := if name.method.isSome then ("self", "self") :: names else names
    .function s { name with root := names.apply name.root } (ofFunction inside n body)
  | .localFunction s text body =>
    .localFunction s (r.rename n text) (ofFunction (r.declare names n [text]) (n + 1) body)
  | .returnValues s values => .returnValues s (ofExprs names n values)
  | .breakLoop s => .breakLoop s
  | .goto s label => .goto s label
  | .label s name => .label s name

/-- Rewrite a condition and the block it guards. -/
def ofClause (names : Names) (n : Nat) : Clause → Clause
  | .mk condition body =>
    .mk (ofExpr names n condition) (ofBlock names (n + Node.width condition.parts) body)

/-- Rewrite the guarded blocks of an `if` statement. -/
def ofClauses (names : Names) (n : Nat) : List Clause → List Clause
  | [] => []
  | clause :: rest => ofClause names n clause :: ofClauses names (n + Node.width clause.parts) rest

/-- Rewrite an `else` block. -/
def ofOtherwise (names : Names) (n : Nat) : Option Block → Option Block
  | none => none
  | some body => some (ofBlock names n body)

/-- Rewrite the step of a `for` loop. -/
def ofStep (names : Names) (n : Nat) : Option Expr → Option Expr
  | none => none
  | some e => some (ofExpr names n e)

end

/-- New names only. -/
def ofNames (rename : Nat → String → String) : Rewriting := ⟨rename, fun _ body => body⟩

/-- Another name for the local with a number. -/
abbrev oneLocal (number : Nat) (name : String) : Rewriting :=
  ofNames fun n text => if n = number then name else text

/-- Names that depend on the numbers of the locals only. -/
abbrev byNumber (label : Nat → String) : Rewriting := ofNames fun n _ => label n

/-- New bodies only. -/
def ofBodies (body : Nat → FunctionBody → FunctionBody) : Rewriting := ⟨fun _ text => text, body⟩

end Rewriting

namespace Chunk

/-- Rewrite a whole file. -/
def rewrite (chunk : Chunk) (r : Rewriting) : Chunk :=
  { chunk with block := r.ofBlock [] 0 chunk.block }

/-- Give functions other bodies, by their numbers. -/
def replaceBodies (chunk : Chunk) (body : Nat → FunctionBody → FunctionBody) : Chunk :=
  chunk.rewrite (.ofBodies body)

/-- Give the local with a number another name, where it is declared and wherever it is meant. -/
def renameLocal (chunk : Chunk) (number : Nat) (name : String) : Chunk :=
  chunk.rewrite (.oneLocal number name)

/-- Call every local by a name that depends on its number only. -/
def nameLocals (chunk : Chunk) (label : Nat → String) : Chunk :=
  chunk.rewrite (.byNumber label)

/-- A name is no variable of a file: it is neither declared nor used in it. -/
def Lacks (chunk : Chunk) (name : String) : Prop := Node.Lack chunk.parts name

instance (chunk : Chunk) (name : String) : Decidable (chunk.Lacks name) :=
  inferInstanceAs (Decidable (∀ n ∈ chunk.parts, name ∉ n.names))

end Chunk

end LuaShape
