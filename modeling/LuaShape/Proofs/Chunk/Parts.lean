import LuaShape.Chunk.Tree

/-!
# The parts of a tree

`parts` lists everything a tree is made of, in the order in which numbers are given out:
what stands inside an expression comes before the expression, and a function comes before
its body.  A property of all parts of a tree is then a property of the members of a list,
and the numbers of a tree are the numbers of its parts.
-/

namespace LuaShape

/-- A part of a tree. -/
inductive Node where
  | expr (e : Expr)
  | field (f : Field)
  | function (body : FunctionBody)
  | block (body : Block)
  | statement (s : Stmt)

namespace Stmt

/-- Whether a statement is a `return`. -/
def isReturn : Stmt → Bool
  | .returnValues _ _ => true
  | _ => false

end Stmt

namespace Node

/-- The number of a part that has one. -/
def number? : Node → Option Nat
  | .expr e => some e.mark.id
  | .function body => some body.id
  | _ => none

/-- No statement of a block but the last is a `return`; parts of other kinds pass. -/
def returnsLast : Node → Bool
  | .block body => body.statements.dropLast.all fun s => !s.isReturn
  | _ => true

/-- What is assigned to can be assigned to; parts of other kinds pass. -/
def assignsPlaces : Node → Bool
  | .statement (.assign _ targets _) => targets.all Expr.isAssignable
  | _ => true

/-- An expression that stands as a statement is a call; parts of other kinds pass. -/
def callsAlone : Node → Bool
  | .statement (.call _ e) => e.isCall
  | _ => true

/-- What the grammar asks of a part beyond its shape. -/
def isRegular (n : Node) : Bool := n.returnsLast && n.assignsPlaces && n.callsAlone

/-- The numbers of the parts that have one, in order. -/
def numbers (nodes : List Node) : List Nat := nodes.filterMap number?

@[simp]
theorem numbers_append (nodes nodes' : List Node) :
    numbers (nodes ++ nodes') = numbers nodes ++ numbers nodes' :=
  List.filterMap_append

@[simp]
theorem numbers_cons_field (f : Field) (nodes : List Node) :
    numbers (.field f :: nodes) = numbers nodes := rfl

@[simp]
theorem numbers_cons_block (body : Block) (nodes : List Node) :
    numbers (.block body :: nodes) = numbers nodes := rfl

@[simp]
theorem numbers_cons_statement (s : Stmt) (nodes : List Node) :
    numbers (.statement s :: nodes) = numbers nodes := rfl

@[simp]
theorem numbers_nil : numbers [] = [] := rfl

end Node

mutual

/-- The parts of an expression. -/
def Expr.parts : Expr → List Node
  | .nil m => [.expr (.nil m)]
  | .boolean m value => [.expr (.boolean m value)]
  | .number m text => [.expr (.number m text)]
  | .string m value => [.expr (.string m value)]
  | .vararg m => [.expr (.vararg m)]
  | .function m body => body.parts ++ [.expr (.function m body)]
  | .table m fields => fieldParts fields ++ [.expr (.table m fields)]
  | .name m text => [.expr (.name m text)]
  | .member m object text => object.parts ++ [.expr (.member m object text)]
  | .index m object key => object.parts ++ (key.parts ++ [.expr (.index m object key)])
  | .call m callee args => callee.parts ++ (exprParts args ++ [.expr (.call m callee args)])
  | .methodCall m object method args =>
    object.parts ++ (exprParts args ++ [.expr (.methodCall m object method args)])
  | .binary m op left right => left.parts ++ (right.parts ++ [.expr (.binary m op left right)])
  | .unary m op operand => operand.parts ++ [.expr (.unary m op operand)]
  | .paren m inner => inner.parts ++ [.expr (.paren m inner)]

/-- The parts of several expressions. -/
def exprParts : List Expr → List Node
  | [] => []
  | e :: rest => e.parts ++ exprParts rest

/-- The parts of an entry of a table. -/
def Field.parts : Field → List Node
  | .named name value => value.parts ++ [.field (.named name value)]
  | .keyed key value => key.parts ++ (value.parts ++ [.field (.keyed key value)])
  | .positional value => value.parts ++ [.field (.positional value)]

/-- The parts of several entries of a table. -/
def fieldParts : List Field → List Node
  | [] => []
  | f :: rest => f.parts ++ fieldParts rest

/-- The parts of a function. -/
def FunctionBody.parts : FunctionBody → List Node
  | .mk id params isVararg body span => .function (.mk id params isVararg body span) :: body.parts

/-- The parts of a block. -/
def Block.parts : Block → List Node
  | .mk statements span => stmtParts statements ++ [.block (.mk statements span)]

/-- The parts of several statements. -/
def stmtParts : List Stmt → List Node
  | [] => []
  | s :: rest => s.parts ++ stmtParts rest

/-- The parts of a statement. -/
def Stmt.parts : Stmt → List Node
  | .localVars s names values => exprParts values ++ [.statement (.localVars s names values)]
  | .assign s targets values =>
    exprParts targets ++ (exprParts values ++ [.statement (.assign s targets values)])
  | .call s e => e.parts ++ [.statement (.call s e)]
  | .doBlock s body => body.parts ++ [.statement (.doBlock s body)]
  | .whileLoop s condition body =>
    condition.parts ++ (body.parts ++ [.statement (.whileLoop s condition body)])
  | .repeatLoop s body condition =>
    body.parts ++ (condition.parts ++ [.statement (.repeatLoop s body condition)])
  | .ifElse s clauses otherwise =>
    clauseParts clauses ++ (otherwiseParts otherwise ++ [.statement (.ifElse s clauses otherwise)])
  | .numericFor s var start limit step body =>
    start.parts ++ (limit.parts ++ (stepParts step ++
      (body.parts ++ [.statement (.numericFor s var start limit step body)])))
  | .genericFor s names iterators body =>
    exprParts iterators ++ (body.parts ++ [.statement (.genericFor s names iterators body)])
  | .function s name body => body.parts ++ [.statement (.function s name body)]
  | .localFunction s name body => body.parts ++ [.statement (.localFunction s name body)]
  | .returnValues s values => exprParts values ++ [.statement (.returnValues s values)]
  | .breakLoop s => [.statement (.breakLoop s)]
  | .goto s label => [.statement (.goto s label)]
  | .label s name => [.statement (.label s name)]

/-- The parts of a condition and of the block it guards. -/
def Clause.parts : Clause → List Node
  | .mk condition body => condition.parts ++ body.parts

/-- The parts of several guarded blocks. -/
def clauseParts : List Clause → List Node
  | [] => []
  | clause :: rest => clause.parts ++ clauseParts rest

/-- The parts of an `else` block. -/
def otherwiseParts : Option Block → List Node
  | none => []
  | some body => body.parts

/-- The parts of the step of a `for` loop. -/
def stepParts : Option Expr → List Node
  | none => []
  | some e => e.parts

end

/-- The parts of a chunk. -/
def Chunk.parts (chunk : Chunk) : List Node := chunk.block.parts

namespace Expr

/-- The parts of an expression without the expression itself. -/
def inside : Expr → List Node
  | .nil _ | .boolean _ _ | .number _ _ | .string _ _ | .vararg _ | .name _ _ => []
  | .function _ body => body.parts
  | .table _ fields => fieldParts fields
  | .member _ object _ => object.parts
  | .index _ object key => object.parts ++ key.parts
  | .call _ callee args => callee.parts ++ exprParts args
  | .methodCall _ object _ args => object.parts ++ exprParts args
  | .binary _ _ left right => left.parts ++ right.parts
  | .unary _ _ operand => operand.parts
  | .paren _ inner => inner.parts

theorem parts_eq (e : Expr) : e.parts = e.inside ++ [.expr e] := by
  cases e <;> simp [parts, inside]

theorem numbers_parts (e : Expr) :
    Node.numbers e.parts = Node.numbers e.inside ++ [e.mark.id] := by
  rw [parts_eq, Node.numbers_append]
  rfl

end Expr

/-! ## Parts that can be read -/

namespace Expr

/-- Whether an expression may stand before a member, an index or arguments. -/
def isPrefix : Expr → Bool
  | .name .. | .member .. | .index .. | .call .. | .methodCall .. | .paren .. => true
  | _ => false

/-- Whether the operator at the top of an expression, if there is one, binds tighter than
`power`. -/
def bindsAbove (power : Nat) : Expr → Bool
  | .binary _ op _ _ => power < op.leftPower
  | _ => true

/-- Whether every operator along the right end of an expression leaves an operator behind
it, with left power `power`, to what is further out. -/
def yieldsTo (power : Nat) : Expr → Bool
  | .binary _ op _ right => power ≤ op.rightPower && right.yieldsTo power
  | .unary _ _ operand => power ≤ UnaryOp.power && operand.yieldsTo power
  | _ => true

end Expr

namespace Node

/-- Members, indices and calls have a prefix that may stand before them. -/
def prefixesFit : Node → Bool
  | .expr (.member _ object _) | .expr (.index _ object _) | .expr (.methodCall _ object _ _)
  | .expr (.call _ object _) => object.isPrefix
  | _ => true

/-- Operators nest as their powers say. -/
def operatorsNest : Node → Bool
  | .expr (.binary _ op left right) =>
    left.yieldsTo op.leftPower && right.bindsAbove op.rightPower
  | .expr (.unary _ _ operand) => operand.bindsAbove UnaryOp.power
  | _ => true

/-- Lists that cannot be empty are not. -/
def listsFilled : Node → Bool
  | .statement (.localVars _ names _) => !names.isEmpty
  | .statement (.assign _ targets values) => !targets.isEmpty && !values.isEmpty
  | .statement (.ifElse _ clauses _) => !clauses.isEmpty
  | .statement (.genericFor _ names iterators _) => !names.isEmpty && !iterators.isEmpty
  | _ => true

/-- What the grammar asks of a part, whatever the powers of operators and the spelling of its
words. -/
def isGrammatical (n : Node) : Bool := n.isRegular && n.prefixesFit && n.listsFilled

/-- What a part must be like to be read, however its words are spelled. -/
def isShaped (n : Node) : Bool := n.isGrammatical && n.operatorsNest

/-- All parts can be read. -/
def Shaped (nodes : List Node) : Prop := ∀ n ∈ nodes, n.isShaped = true

@[simp]
theorem shaped_nil : Shaped [] := by simp [Shaped]

@[simp]
theorem shaped_append {nodes nodes' : List Node} :
    Shaped (nodes ++ nodes') ↔ Shaped nodes ∧ Shaped nodes' :=
  List.forall_mem_append

@[simp]
theorem shaped_cons {n : Node} {nodes : List Node} :
    Shaped (n :: nodes) ↔ n.isShaped = true ∧ Shaped nodes :=
  List.forall_mem_cons

theorem isShaped_iff {n : Node} : n.isShaped = true ↔ n.isRegular = true ∧
    n.prefixesFit = true ∧ n.operatorsNest = true ∧ n.listsFilled = true := by
  simp only [isShaped, isGrammatical, Bool.and_eq_true]
  constructor
  · rintro ⟨⟨⟨hRegular, hPrefixes⟩, hFilled⟩, hNest⟩
    exact ⟨hRegular, hPrefixes, hNest, hFilled⟩
  · rintro ⟨hRegular, hPrefixes, hNest, hFilled⟩
    exact ⟨⟨⟨hRegular, hPrefixes⟩, hFilled⟩, hNest⟩

theorem shaped_of {nodes : List Node} (hGrammar : ∀ n ∈ nodes, n.isGrammatical = true)
    (hNest : ∀ n ∈ nodes, n.operatorsNest = true) : Shaped nodes := by
  intro n hn
  rw [isShaped, hGrammar n hn, hNest n hn, Bool.and_self]

end Node

end LuaShape
