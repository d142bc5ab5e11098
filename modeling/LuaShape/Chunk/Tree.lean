import LuaShape.Chunk.Operator
import LuaShape.Source.Span

/-!
# Syntax trees of Lua chunks

A `Chunk` is a whole source file.  Every expression carries a `Mark`: a number
that is unique in its chunk, and the bytes it covers.  Function bodies are
numbered from the same counter.  Parentheses are kept, because they cut a list
of values down to one, and numbers are kept as written.
-/

namespace LuaShape

/-- The identity and the place of an expression. -/
structure Mark where
  /-- A number no other node of the chunk has. -/
  id : Nat
  span : Span
deriving DecidableEq, Repr, Inhabited

/-- The name in a function statement: `a.b.c` or `a.b:m`. -/
structure FunctionName where
  /-- The first name of the path. -/
  root : String
  /-- The names after it, each behind a point. -/
  members : List String
  /-- The name behind a colon, which makes the function a method. -/
  method : Option String
  span : Span
deriving DecidableEq, Repr, Inhabited

mutual

/-- An expression. -/
inductive Expr where
  | nil (mark : Mark)
  | boolean (mark : Mark) (value : Bool)
  /-- A number as written. -/
  | number (mark : Mark) (text : String)
  /-- A string after its escapes. -/
  | string (mark : Mark) (value : String)
  | vararg (mark : Mark)
  | function (mark : Mark) (body : FunctionBody)
  | table (mark : Mark) (fields : List Field)
  | name (mark : Mark) (name : String)
  /-- `object.name` -/
  | member (mark : Mark) (object : Expr) (name : String)
  /-- `object[key]` -/
  | index (mark : Mark) (object : Expr) (key : Expr)
  | call (mark : Mark) (callee : Expr) (args : List Expr)
  /-- `object:method(args)` -/
  | methodCall (mark : Mark) (object : Expr) (method : String) (args : List Expr)
  | binary (mark : Mark) (op : BinaryOp) (left : Expr) (right : Expr)
  | unary (mark : Mark) (op : UnaryOp) (operand : Expr)
  | paren (mark : Mark) (inner : Expr)

/-- An entry of a table constructor. -/
inductive Field where
  /-- `name = value` -/
  | named (name : String) (value : Expr)
  /-- `[key] = value` -/
  | keyed (key : Expr) (value : Expr)
  /-- A value stored at the next position. -/
  | positional (value : Expr)

/-- What stands between the name of a function and its `end`. -/
inductive FunctionBody where
  | mk (id : Nat) (params : List String) (isVararg : Bool) (body : Block) (span : Span)

/-- A sequence of statements. -/
inductive Block where
  | mk (statements : List Stmt) (span : Span)

/-- A condition of an `if` statement and the block it guards. -/
inductive Clause where
  | mk (condition : Expr) (body : Block)

/-- A statement. -/
inductive Stmt where
  | localVars (span : Span) (names : List String) (values : List Expr)
  | assign (span : Span) (targets : List Expr) (values : List Expr)
  | call (span : Span) (expr : Expr)
  | doBlock (span : Span) (body : Block)
  | whileLoop (span : Span) (condition : Expr) (body : Block)
  | repeatLoop (span : Span) (body : Block) (condition : Expr)
  | ifElse (span : Span) (clauses : List Clause) (otherwise : Option Block)
  | numericFor (span : Span) (var : String) (start : Expr) (limit : Expr)
      (step : Option Expr) (body : Block)
  | genericFor (span : Span) (names : List String) (iterators : List Expr) (body : Block)
  | function (span : Span) (name : FunctionName) (body : FunctionBody)
  | localFunction (span : Span) (name : String) (body : FunctionBody)
  | returnValues (span : Span) (values : List Expr)
  | breakLoop (span : Span)
  | goto (span : Span) (label : String)
  | label (span : Span) (name : String)

end

instance : Inhabited Expr := ⟨.nil default⟩

instance : Inhabited Block := ⟨.mk [] default⟩

/-- A whole source file. -/
structure Chunk where
  block : Block
  span : Span
  /-- How many numbers its nodes use. -/
  nodeCount : Nat

namespace FunctionName

/-- All names of the path, the first included. -/
def path (name : FunctionName) : List String := name.root :: name.members

/-- The name as written, without blanks. -/
def display (name : FunctionName) : String :=
  let dotted := String.intercalate "." name.path
  match name.method with
  | some method => dotted ++ ":" ++ method
  | none => dotted

end FunctionName

namespace Block

/-- The statements of a block. -/
def statements : Block → List Stmt
  | .mk statements _ => statements

/-- The place of a block. -/
def span : Block → Span
  | .mk _ span => span

end Block

namespace FunctionBody

/-- The number of a function body. -/
def id : FunctionBody → Nat
  | .mk id _ _ _ _ => id

/-- The declared parameters, without `...`. -/
def params : FunctionBody → List String
  | .mk _ params _ _ _ => params

/-- Whether the parameters end in `...`. -/
def isVararg : FunctionBody → Bool
  | .mk _ _ isVararg _ _ => isVararg

/-- The statements of a function. -/
def body : FunctionBody → Block
  | .mk _ _ _ body _ => body

/-- The place of a function body, its introducing keyword included. -/
def span : FunctionBody → Span
  | .mk _ _ _ _ span => span

end FunctionBody

namespace Expr

/-- The identity and place of an expression. -/
def mark : Expr → Mark
  | .nil m | .boolean m _ | .number m _ | .string m _ | .vararg m | .function m _
  | .table m _ | .name m _ | .member m _ _ | .index m _ _ | .call m _ _
  | .methodCall m _ _ _ | .binary m _ _ _ | .unary m _ _ | .paren m _ => m

/-- The bytes an expression covers. -/
def span (e : Expr) : Span := e.mark.span

/-- Whether an expression may stand for several values at the end of a list. -/
def isMultiValue : Expr → Bool
  | .call .. | .methodCall .. | .vararg _ => true
  | _ => false

/-- Whether an expression may be assigned to. -/
def isAssignable : Expr → Bool
  | .name .. | .member .. | .index .. => true
  | _ => false

/-- Whether an expression is a call, and so may stand as a statement. -/
def isCall : Expr → Bool
  | .call .. | .methodCall .. => true
  | _ => false

/-- The expression inside any number of parentheses. -/
def unparen : Expr → Expr
  | .paren _ inner => inner.unparen
  | e => e

/-- The value of a string literal. -/
def stringValue? : Expr → Option String
  | .string _ value => some value
  | _ => none

/-- The name of a name expression. -/
def nameValue? : Expr → Option String
  | .name _ text => some text
  | _ => none

/-- The dotted name of an expression that has one, parentheses aside. -/
def displayName? : Expr → Option String
  | .name _ text => some text
  | .member _ object text => (displayName? object).map fun base => base ++ "." ++ text
  | .paren _ inner => displayName? inner
  | _ => none

end Expr

namespace Stmt

/-- The bytes a statement covers. -/
def span : Stmt → Span
  | .localVars s _ _ | .assign s _ _ | .call s _ | .doBlock s _ | .whileLoop s _ _
  | .repeatLoop s _ _ | .ifElse s _ _ | .numericFor s _ _ _ _ _ | .genericFor s _ _ _
  | .function s _ _ | .localFunction s _ _ | .returnValues s _ | .breakLoop s
  | .goto s _ | .label s _ => s

end Stmt

end LuaShape
