import LuaShape.Chunk.Cursor
import LuaShape.Chunk.Tree

/-!
# Trees under a change of numbers and places

A `View` says what is to be seen of the numbers and places of a tree: all of it, nothing, or
something in between.  `relabel` applies a view to a tree.  Two trees that look alike under
two views differ at most in what these leave out, so "the same up to places" and "the same up
to numbers and a shift" are both equations between relabelled trees.
-/

namespace LuaShape

/-- What is seen of the numbers and places of a tree. -/
structure View where
  number : Nat → Nat
  place : Span → Span

namespace View

/-- Numbers are seen, places are not. -/
def unplaced : View := ⟨id, fun _ => Span.origin⟩

/-- Places are seen as if the text stood further on, numbers are not seen. -/
def shifted (offset : Nat) : View :=
  ⟨fun _ => 0, fun span => ⟨span.start + offset, span.stop + offset⟩⟩

end View

/-- An error with its place under a view. -/
def ParseError.relabel (v : View) : ParseError → ParseError
  | .unexpectedToken expected found span => .unexpectedToken expected found (v.place span)
  | .unexpectedEnd span => .unexpectedEnd (v.place span)
  | .invalidExpression span => .invalidExpression (v.place span)
  | .invalidTarget span => .invalidTarget (v.place span)
  | .invalidString span => .invalidString (v.place span)
  | .tooDeep span => .tooDeep (v.place span)

/-- The number and place of an expression under a view. -/
def Mark.relabel (v : View) (m : Mark) : Mark := ⟨v.number m.id, v.place m.span⟩

/-- The name in a function statement under a view. -/
def FunctionName.relabel (v : View) (name : FunctionName) : FunctionName :=
  { name with span := v.place name.span }

section Trees

variable (v : View)

mutual

/-- An expression under a view. -/
def Expr.relabel : Expr → Expr
  | .nil m => .nil (m.relabel v)
  | .boolean m value => .boolean (m.relabel v) value
  | .number m text => .number (m.relabel v) text
  | .string m value => .string (m.relabel v) value
  | .vararg m => .vararg (m.relabel v)
  | .function m body => .function (m.relabel v) body.relabel
  | .table m fields => .table (m.relabel v) (relabelFields fields)
  | .name m text => .name (m.relabel v) text
  | .member m object text => .member (m.relabel v) object.relabel text
  | .index m object key => .index (m.relabel v) object.relabel key.relabel
  | .call m callee args => .call (m.relabel v) callee.relabel (relabelExprs args)
  | .methodCall m object method args =>
    .methodCall (m.relabel v) object.relabel method (relabelExprs args)
  | .binary m op left right => .binary (m.relabel v) op left.relabel right.relabel
  | .unary m op operand => .unary (m.relabel v) op operand.relabel
  | .paren m inner => .paren (m.relabel v) inner.relabel

/-- Expressions under a view. -/
def relabelExprs : List Expr → List Expr
  | [] => []
  | e :: rest => e.relabel :: relabelExprs rest

/-- An entry of a table under a view. -/
def Field.relabel : Field → Field
  | .named name value => .named name value.relabel
  | .keyed key value => .keyed key.relabel value.relabel
  | .positional value => .positional value.relabel

/-- Entries of a table under a view. -/
def relabelFields : List Field → List Field
  | [] => []
  | f :: rest => f.relabel :: relabelFields rest

/-- A function under a view. -/
def FunctionBody.relabel : FunctionBody → FunctionBody
  | .mk id params isVararg body span =>
    .mk (v.number id) params isVararg body.relabel (v.place span)

/-- A block under a view. -/
def Block.relabel : Block → Block
  | .mk statements span => .mk (relabelStmts statements) (v.place span)

/-- Statements under a view. -/
def relabelStmts : List Stmt → List Stmt
  | [] => []
  | s :: rest => s.relabel :: relabelStmts rest

/-- A statement under a view. -/
def Stmt.relabel : Stmt → Stmt
  | .localVars s names values => .localVars (v.place s) names (relabelExprs values)
  | .assign s targets values => .assign (v.place s) (relabelExprs targets) (relabelExprs values)
  | .call s e => .call (v.place s) e.relabel
  | .doBlock s body => .doBlock (v.place s) body.relabel
  | .whileLoop s condition body => .whileLoop (v.place s) condition.relabel body.relabel
  | .repeatLoop s body condition => .repeatLoop (v.place s) body.relabel condition.relabel
  | .ifElse s clauses otherwise =>
    .ifElse (v.place s) (relabelClauses clauses) (relabelOtherwise otherwise)
  | .numericFor s var start limit step body =>
    .numericFor (v.place s) var start.relabel limit.relabel (relabelStep step) body.relabel
  | .genericFor s names iterators body =>
    .genericFor (v.place s) names (relabelExprs iterators) body.relabel
  | .function s name body => .function (v.place s) (name.relabel v) body.relabel
  | .localFunction s name body => .localFunction (v.place s) name body.relabel
  | .returnValues s values => .returnValues (v.place s) (relabelExprs values)
  | .breakLoop s => .breakLoop (v.place s)
  | .goto s label => .goto (v.place s) label
  | .label s name => .label (v.place s) name

/-- A guarded block under a view. -/
def Clause.relabel : Clause → Clause
  | .mk condition body => .mk condition.relabel body.relabel

/-- Guarded blocks under a view. -/
def relabelClauses : List Clause → List Clause
  | [] => []
  | clause :: rest => clause.relabel :: relabelClauses rest

/-- An `else` block under a view. -/
def relabelOtherwise : Option Block → Option Block
  | none => none
  | some body => some body.relabel

/-- The step of a `for` loop under a view. -/
def relabelStep : Option Expr → Option Expr
  | none => none
  | some e => some e.relabel

end

attribute [simp] Expr.relabel relabelExprs Field.relabel relabelFields FunctionBody.relabel
  Block.relabel relabelStmts Stmt.relabel Clause.relabel relabelClauses relabelOtherwise relabelStep

end Trees

/-- A chunk under a view. -/
def Chunk.relabel (v : View) (chunk : Chunk) : Chunk where
  block := chunk.block.relabel v
  span := v.place chunk.span
  nodeCount := v.number chunk.nodeCount

namespace Expr

variable (v : View) (e : Expr)

theorem mark_relabel : (e.relabel v).mark = e.mark.relabel v := by
  cases e <;> rfl

theorem isAssignable_relabel : (e.relabel v).isAssignable = e.isAssignable := by
  cases e <;> rfl

theorem isCall_relabel : (e.relabel v).isCall = e.isCall := by
  cases e <;> rfl

end Expr

end LuaShape
