import LuaShape.Chunk.Tree
import LuaShape.Json.Basic

/-!
# Syntax trees as JSON

A node is an object; what kind of node it is stands as the only member's name,
or as a plain string for kinds without parts.
-/

namespace LuaShape

/-- A kind with parts. -/
def Json.tagged (tag : String) (value : Json) : Json := .object [(tag, value)]

/-- A kind with named parts. -/
def Json.variant (tag : String) (members : List (String × Json)) : Json :=
  .tagged tag (.object members)

/-- A range of bytes. -/
def Span.toJson (s : Span) : Json := .object [("start", .nat s.start), ("end", .nat s.stop)]

/-- The name of a binary operator. -/
def BinaryOp.name : BinaryOp → String
  | add => "Add"
  | sub => "Sub"
  | mul => "Mul"
  | div => "Div"
  | floorDiv => "FloorDiv"
  | mod => "Mod"
  | pow => "Pow"
  | bitAnd => "BitAnd"
  | bitOr => "BitOr"
  | bitXor => "BitXor"
  | shiftLeft => "Shl"
  | shiftRight => "Shr"
  | concat => "Concat"
  | eq => "Eq"
  | ne => "Ne"
  | lt => "Lt"
  | le => "Le"
  | gt => "Gt"
  | ge => "Ge"
  | and => "And"
  | or => "Or"

/-- The name of a unary operator. -/
def UnaryOp.name : UnaryOp → String
  | not => "Not"
  | neg => "Neg"
  | len => "Len"
  | bitNot => "BitNot"

/-- The name in a function statement. -/
def FunctionName.toJson (n : FunctionName) : Json :=
  .object [("path", .strings n.path), ("method", .option .string n.method),
    ("span", n.span.toJson)]

/-- An expression node around the description of its kind. -/
def Mark.toJson (m : Mark) (kind : Json) : Json :=
  .object [("id", .nat m.id), ("kind", kind), ("span", m.span.toJson)]

/-- A statement node around the description of its kind. -/
def Span.statementJson (s : Span) (kind : Json) : Json :=
  .object [("kind", kind), ("span", s.toJson)]

mutual

/-- An expression. -/
def Expr.toJson : Expr → Json
  | .nil m => m.toJson (.string "Nil")
  | .boolean m value => m.toJson (.tagged "Boolean" (.bool value))
  | .number m text => m.toJson (.tagged "Number" (.string text))
  | .string m value => m.toJson (.tagged "String" (.string value))
  | .vararg m => m.toJson (.string "Vararg")
  | .function m body => m.toJson (.tagged "Function" body.toJson)
  | .table m fields => m.toJson (.tagged "Table" (.array (fieldsToJson fields)))
  | .name m text => m.toJson (.tagged "Name" (.string text))
  | .member m object text =>
    m.toJson (.variant "Member" [("object", object.toJson), ("name", .string text)])
  | .index m object key =>
    m.toJson (.variant "Index" [("object", object.toJson), ("key", key.toJson)])
  | .call m callee args =>
    m.toJson (.variant "Call" [("callee", callee.toJson), ("args", .array (exprsToJson args))])
  | .methodCall m object method args =>
    m.toJson (.variant "MethodCall" [("object", object.toJson), ("method", .string method),
      ("args", .array (exprsToJson args))])
  | .binary m op left right =>
    m.toJson (.variant "Binary" [("op", .string op.name), ("left", left.toJson),
      ("right", right.toJson)])
  | .unary m op operand =>
    m.toJson (.variant "Unary" [("op", .string op.name), ("operand", operand.toJson)])
  | .paren m inner => m.toJson (.tagged "Paren" inner.toJson)

/-- A list of expressions. -/
def exprsToJson : List Expr → List Json
  | [] => []
  | e :: rest => e.toJson :: exprsToJson rest

/-- The entries of a table constructor. -/
def fieldsToJson : List Field → List Json
  | [] => []
  | f :: rest => f.toJson :: fieldsToJson rest

/-- An entry of a table constructor. -/
def Field.toJson : Field → Json
  | .named name value => .variant "Named" [("name", .string name), ("value", value.toJson)]
  | .keyed key value => .variant "Keyed" [("key", key.toJson), ("value", value.toJson)]
  | .positional value => .tagged "Positional" value.toJson

/-- A function body. -/
def FunctionBody.toJson : FunctionBody → Json
  | .mk id params isVararg body span =>
    .object [("id", .nat id), ("params", .strings params), ("is_vararg", .bool isVararg),
      ("body", body.toJson), ("span", span.toJson)]

/-- A block. -/
def Block.toJson : Block → Json
  | .mk statements span =>
    .object [("statements", .array (stmtsToJson statements)), ("span", span.toJson)]

/-- A list of statements. -/
def stmtsToJson : List Stmt → List Json
  | [] => []
  | s :: rest => s.toJson :: stmtsToJson rest

/-- A guarded block of an `if` statement. -/
def Clause.toJson : Clause → Json
  | .mk condition body => .array [condition.toJson, body.toJson]

/-- The guarded blocks of an `if` statement. -/
def clausesToJson : List Clause → List Json
  | [] => []
  | c :: rest => c.toJson :: clausesToJson rest

/-- A statement. -/
def Stmt.toJson : Stmt → Json
  | .localVars s names values =>
    s.statementJson (.variant "Local" [("names", .strings names),
      ("values", .array (exprsToJson values))])
  | .assign s targets values =>
    s.statementJson (.variant "Assign" [("targets", .array (exprsToJson targets)),
      ("values", .array (exprsToJson values))])
  | .call s e => s.statementJson (.tagged "Call" e.toJson)
  | .doBlock s body => s.statementJson (.tagged "Do" body.toJson)
  | .whileLoop s condition body =>
    s.statementJson (.variant "While" [("condition", condition.toJson), ("body", body.toJson)])
  | .repeatLoop s body condition =>
    s.statementJson (.variant "Repeat" [("body", body.toJson), ("condition", condition.toJson)])
  | .ifElse s clauses otherwise =>
    s.statementJson (.variant "If" [("clauses", .array (clausesToJson clauses)),
      ("else_block", match otherwise with
        | some body => body.toJson
        | none => .null)])
  | .numericFor s var start limit step body =>
    s.statementJson (.variant "NumericFor" [("var", .string var), ("start", start.toJson),
      ("limit", limit.toJson),
      ("step", match step with
        | some e => e.toJson
        | none => .null),
      ("body", body.toJson)])
  | .genericFor s names iterators body =>
    s.statementJson (.variant "GenericFor" [("names", .strings names),
      ("iterators", .array (exprsToJson iterators)), ("body", body.toJson)])
  | .function s name body =>
    s.statementJson (.variant "Function" [("name", name.toJson), ("func", body.toJson)])
  | .localFunction s name body =>
    s.statementJson (.variant "LocalFunction" [("name", .string name), ("func", body.toJson)])
  | .returnValues s values =>
    s.statementJson (.tagged "Return" (.array (exprsToJson values)))
  | .breakLoop s => s.statementJson (.string "Break")
  | .goto s target => s.statementJson (.tagged "Goto" (.string target))
  | .label s text => s.statementJson (.tagged "Label" (.string text))

end

/-- A whole source file. -/
def Chunk.toJson (c : Chunk) : Json :=
  .object [("block", c.block.toJson), ("span", c.span.toJson), ("node_count", .nat c.nodeCount)]

end LuaShape
