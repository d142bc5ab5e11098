import LuaShape.LoadOrder.Effects
import LuaShape.Proofs.Chunk.Parts
import LuaShape.Proofs.Scope.Lexical

/-!
# Requires that are met while a file loads

The effects of loading a chunk skip function bodies.  `NestedRequires` collects what these
require, whatever `require` means there.  Where it finds nothing, no part of a function body
requires a module (`free_ofBlock`).
-/

namespace LuaShape

/-! ## Requires in function bodies -/

namespace NestedRequires

/-- The module that a call inside a function requires, whatever `require` is there. -/
def ofCall (inside : Bool) (callee : Expr) (args : List Expr) : List String :=
  if inside then (Effects.required? [] callee args).toList else []

mutual

/-- The modules that an expression requires inside functions.  `inside` says whether
the expression itself is inside one. -/
def ofExpr (inside : Bool) : Expr → List String
  | .member _ object _ => ofExpr inside object
  | .index _ object key => ofExpr inside object ++ ofExpr inside key
  | .call _ callee args =>
    ofCall inside callee args ++ ofExpr inside callee ++ ofExprs inside args
  | .methodCall _ object _ args => ofExpr inside object ++ ofExprs inside args
  | .binary _ _ left right => ofExpr inside left ++ ofExpr inside right
  | .unary _ _ operand => ofExpr inside operand
  | .paren _ inner => ofExpr inside inner
  | .table _ fields => ofFields inside fields
  | .function _ body => ofFunction body
  | .name _ _ | .nil _ | .boolean _ _ | .number _ _ | .string _ _ | .vararg _ => []

/-- The modules that expressions require inside functions. -/
def ofExprs (inside : Bool) : List Expr → List String
  | [] => []
  | e :: rest => ofExpr inside e ++ ofExprs inside rest

/-- The modules that the entries of a table require inside functions. -/
def ofFields (inside : Bool) : List Field → List String
  | [] => []
  | .named _ value :: rest => ofExpr inside value ++ ofFields inside rest
  | .keyed key value :: rest =>
    ofExpr inside key ++ ofExpr inside value ++ ofFields inside rest
  | .positional value :: rest => ofExpr inside value ++ ofFields inside rest

/-- The modules that a function requires when it runs. -/
def ofFunction : FunctionBody → List String
  | .mk _ _ _ body _ => ofBlock true body

/-- The modules that a block requires inside functions. -/
def ofBlock (inside : Bool) : Block → List String
  | .mk statements _ => ofStmts inside statements

/-- The modules that statements require inside functions. -/
def ofStmts (inside : Bool) : List Stmt → List String
  | [] => []
  | s :: rest => ofStmt inside s ++ ofStmts inside rest

/-- The modules that a statement requires inside functions. -/
def ofStmt (inside : Bool) : Stmt → List String
  | .localVars _ _ values => ofExprs inside values
  | .assign _ targets values => ofExprs inside values ++ ofExprs inside targets
  | .call _ e => ofExpr inside e
  | .doBlock _ body => ofBlock inside body
  | .whileLoop _ condition body => ofExpr inside condition ++ ofBlock inside body
  | .repeatLoop _ body condition => ofBlock inside body ++ ofExpr inside condition
  | .ifElse _ clauses otherwise =>
    ofClauses inside clauses ++ ofOtherwise inside otherwise
  | .numericFor _ _ start limit step body =>
    ofExpr inside start ++ ofExpr inside limit ++ ofStep inside step ++ ofBlock inside body
  | .genericFor _ _ iterators body => ofExprs inside iterators ++ ofBlock inside body
  | .function _ _ body => ofFunction body
  | .localFunction _ _ body => ofFunction body
  | .returnValues _ values => ofExprs inside values
  | .breakLoop _ | .goto _ _ | .label _ _ => []

/-- The modules that the guarded blocks of an `if` statement require inside
functions. -/
def ofClauses (inside : Bool) : List Clause → List String
  | [] => []
  | .mk condition body :: rest =>
    ofExpr inside condition ++ ofBlock inside body ++ ofClauses inside rest

/-- The modules that an `else` block requires inside functions. -/
def ofOtherwise (inside : Bool) : Option Block → List String
  | none => []
  | some body => ofBlock inside body

/-- The modules that the step of a `for` loop requires inside functions. -/
def ofStep (inside : Bool) : Option Expr → List String
  | none => []
  | some e => ofExpr inside e

end

/-- The modules that the functions of a chunk require. -/
def ofChunk (chunk : Chunk) : List String := ofBlock false chunk.block

/-! ## Code without such requires -/

/-- No expression among certain parts requires a module. -/
def Lacks (nodes : List Node) : Prop :=
  ∀ e, .expr e ∈ nodes → Lexical.Place.requiredBy? {} e = none

/-- A part requires nothing inside functions. -/
def FreeAt (inside : Bool) : Node → Prop
  | .expr e => inside = true → Lexical.Place.requiredBy? {} e = none
  | .function body => Lacks body.parts
  | _ => True

/-- Certain parts require nothing inside functions. -/
def Free (inside : Bool) (nodes : List Node) : Prop := ∀ n ∈ nodes, FreeAt inside n

section Rules

variable {inside : Bool} {nodes nodes' : List Node}

theorem free_append : Free inside (nodes ++ nodes') ↔ Free inside nodes ∧ Free inside nodes' :=
  List.forall_mem_append

theorem free_cons {n : Node} : Free inside (n :: nodes) ↔ FreeAt inside n ∧ Free inside nodes :=
  List.forall_mem_cons

theorem free_nil : Free inside [] := List.forall_mem_nil _

/-- Inside a function, no expression requires anything. -/
theorem free_true_iff (inside : Bool) : Free true nodes ↔ Lacks nodes ∧ Free inside nodes := by
  refine ⟨fun h => ⟨fun e he => h _ he rfl, fun n hn => ?_⟩, fun ⟨hLacks, h⟩ n hn => ?_⟩
  · cases n with
    | expr e => exact fun _ => h _ hn rfl
    | _ => exact h _ hn
  · cases n with
    | expr e => exact fun _ => hLacks e hn
    | _ => exact h _ hn

theorem ofCall_eq_nil {callee : Expr} {args : List Expr} : ofCall inside callee args = [] ↔
    (inside = true → Lexical.Place.requiredName? {} callee args = none) := by
  cases inside with
  | false => simp [ofCall]
  | true =>
    simp [ofCall, Effects.required?, Lexical.Place.requiredName?, Lexical.Place.meaning?]

end Rules

section Syntax

attribute [local simp] FreeAt free_append free_cons free_nil ofCall_eq_nil ofExpr ofExprs ofFields
  ofFunction ofBlock ofStmts ofStmt ofClauses ofOtherwise ofStep Expr.parts exprParts Field.parts
  fieldParts Block.parts stmtParts Stmt.parts Clause.parts clauseParts otherwiseParts stepParts
  Lexical.Place.requiredBy?

mutual

theorem free_ofExpr {inside : Bool} : (e : Expr) → (Free inside e.parts ↔ ofExpr inside e = [])
  | .nil _ | .boolean _ _ | .number _ _ | .string _ _ | .vararg _ | .name _ _ => by simp
  | .function _ body => by simp [free_ofFunction body]
  | .table _ fields => by simp [free_ofFields fields]
  | .member _ object _ => by simp [free_ofExpr object]
  | .index _ object key => by simp [free_ofExpr object, free_ofExpr key]
  | .call _ callee args => by
      simp [free_ofExpr callee, free_ofExprs args, and_comm, and_assoc]
  | .methodCall _ object _ args => by simp [free_ofExpr object, free_ofExprs args]
  | .binary _ _ left right => by simp [free_ofExpr left, free_ofExpr right]
  | .unary _ _ operand => by simp [free_ofExpr operand]
  | .paren _ inner => by
      have hInner : Free inside inner.parts ↔ _ := free_ofExpr inner
      suffices Free inside inner.parts → FreeAt inside (.expr inner) by simpa [hInner] using this
      exact fun h => h _ (by cases inner <;> simp)

theorem free_ofExprs {inside : Bool} : (es : List Expr) →
    (Free inside (exprParts es) ↔ ofExprs inside es = [])
  | [] => by simp
  | e :: es => by simp [free_ofExpr e, free_ofExprs es]

theorem free_ofFields {inside : Bool} : (fields : List Field) →
    (Free inside (fieldParts fields) ↔ ofFields inside fields = [])
  | [] => by simp
  | .named _ value :: fields | .positional value :: fields => by
      simp [free_ofExpr value, free_ofFields fields]
  | .keyed key value :: fields => by
      simp [free_ofExpr key, free_ofExpr value, free_ofFields fields]

theorem free_ofFunction {inside : Bool} : (body : FunctionBody) →
    (Free inside body.parts ↔ ofFunction body = [])
  | .mk id params isVararg body span => by
      rw [FunctionBody.parts, free_cons, ofFunction, ← free_ofBlock body, free_true_iff inside]
      simp [Lacks, FunctionBody.parts]

theorem free_ofBlock {inside : Bool} : (body : Block) →
    (Free inside body.parts ↔ ofBlock inside body = [])
  | .mk statements _ => by simp [free_ofStmts statements]

theorem free_ofStmts {inside : Bool} : (statements : List Stmt) →
    (Free inside (stmtParts statements) ↔ ofStmts inside statements = [])
  | [] => by simp
  | s :: statements => by simp [free_ofStmt s, free_ofStmts statements]

theorem free_ofStmt {inside : Bool} : (s : Stmt) → (Free inside s.parts ↔ ofStmt inside s = [])
  | .localVars _ _ values | .returnValues _ values => by simp [free_ofExprs values]
  | .assign _ targets values => by
      simp [free_ofExprs targets, free_ofExprs values, and_comm]
  | .call _ e => by simp [free_ofExpr e]
  | .doBlock _ body => by simp [free_ofBlock body]
  | .whileLoop _ condition body => by simp [free_ofExpr condition, free_ofBlock body]
  | .repeatLoop _ body condition => by simp [free_ofExpr condition, free_ofBlock body]
  | .ifElse _ clauses otherwise => by
      simp [free_ofClauses clauses, free_ofOtherwise otherwise]
  | .numericFor _ _ start limit step body => by
      simp [free_ofExpr start, free_ofExpr limit, free_ofStep step, free_ofBlock body]
  | .genericFor _ _ iterators body => by simp [free_ofExprs iterators, free_ofBlock body]
  | .function _ _ body | .localFunction _ _ body => by simp [free_ofFunction body]
  | .breakLoop _ | .goto _ _ | .label _ _ => by simp

theorem free_ofClauses {inside : Bool} : (clauses : List Clause) →
    (Free inside (clauseParts clauses) ↔ ofClauses inside clauses = [])
  | [] => by simp
  | .mk condition body :: clauses => by
      simp [free_ofExpr condition, free_ofBlock body, free_ofClauses clauses]

theorem free_ofOtherwise {inside : Bool} : (otherwise : Option Block) →
    (Free inside (otherwiseParts otherwise) ↔ ofOtherwise inside otherwise = [])
  | none => by simp
  | some body => by simp [free_ofBlock body]

theorem free_ofStep {inside : Bool} : (step : Option Expr) →
    (Free inside (stepParts step) ↔ ofStep inside step = [])
  | none => by simp
  | some e => by simp [free_ofExpr e]

end

end Syntax

end NestedRequires

/-! ## Declarations -/

namespace Effects

/-- The locals that a statement declares for those behind it. -/
def declared : Stmt → List String
  | .localVars _ names _ => names
  | .localFunction _ name _ => [name]
  | _ => []

/-- The locals that statements declare, newest first. -/
def declaredAll : List Stmt → List String
  | [] => []
  | s :: rest => declaredAll rest ++ declared s

theorem ofStmt_snd (scope : List String) (s : Stmt) : (ofStmt scope s).2 = declared s ++ scope := by
  cases s with
  | repeatLoop _ body _ => cases body; rfl
  | _ => rfl

theorem ofStmts_snd (scope : List String) (statements : List Stmt) :
    (ofStmts scope statements).2 = declaredAll statements ++ scope := by
  induction statements generalizing scope with
  | nil => rfl
  | cons s rest ih =>
    show (ofStmts (ofStmt scope s).2 rest).2 = _
    rw [ih, ofStmt_snd, declaredAll, List.append_assoc]

end Effects

end LuaShape
