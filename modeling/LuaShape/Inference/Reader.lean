import LuaShape.Inference.Reading

/-!
# Reading a module

The reader walks a chunk once, in the order in which the code is written, save
that the values of an assignment come before its targets.  Every node is turned
into a term exactly once; the further values of a call at the end of a list are
copies of its term that ask for a later slot.
-/

namespace LuaShape

namespace Read

/-- The field that a constructor entry `[key] = value` sets: a string written
without parentheses, or a number. -/
def entryKey? (key : Expr) (id : TermId) : Read (Option String) := do
  let r ← get
  pure (key.stringValue?.or (match r.inference.term id with
    | .literal (.number text) => some text
    | _ => none))

/-- Record an entry of a table constructor. -/
def addEntry (table : TableId) (key : String) (value : TermId) : Read Unit := do
  let inside ← inFunction
  learn fun s => s.addTableField table key value inside

/-- Report the base of an assignment target as a table. -/
def useTarget (target : TermId) : Read Unit := do
  let r ← get
  match r.inference.term target with
  | .member base _ | .index base _ => use base [.table]
  | _ => pure ()

/-- The value of a target; one without value is set to `nil`. -/
def valueOrNil : Option TermId → Read TermId
  | some value => pure value
  | none => alloc (.literal .nil)

/-- Report that the bounds of a loop are numbers. -/
def useNumbers : List TermId → Read Unit
  | [] => pure ()
  | id :: rest => do
      use id [.number]
      useNumbers rest

mutual

/-- Turn an expression into a term.  A function is named after the hint, which is
what it is assigned to. -/
def readExpr (hint : Option String) : Expr → Read TermId
  | .nil mark => make mark (.literal .nil)
  | .boolean mark value => make mark (.literal (.boolean value))
  | .number mark text => make mark (.literal (.number text))
  | .string mark value => make mark (.literal (.string value))
  | .vararg mark => make mark .vararg
  | .function mark body => do
      let id ← readFunction hint false none body
      make mark (.literal (.function id))
  | .table mark fields => do
      let id ← learnGet fun s => s.newTable "table"
      let literal ← alloc (.literal (.table id))
      readFields id 1 fields
      note mark.id 0 literal
  | .name mark text => do
      make mark (.reference (← identOf text))
  | .member mark object text => do
      let base ← readExpr none object
      use base [.table, .string]
      make mark (.member base text)
  | .index mark object key => do
      let base ← readExpr none object
      use base [.table, .string]
      let index ← readExpr none key
      make mark (.index base index)
  | .call mark callee args => do
      let r ← get
      match requireArgument? r.scope callee args with
      | some argument => do
          let target ← learnGet fun s => s.resolveRequire argument
          make mark (.require argument target 0)
      | none => do
          let function ← readExpr none callee
          let operands ← readExprs [] args
          makeCall mark function operands
  | .methodCall mark object method args => do
      let base ← readExpr none object
      use base [.table, .string]
      let function ← alloc (.member base method)
      let operands ← readExprs [] args
      makeCall mark function (base :: operands)
  | .binary mark op left right => do
      let first ← readExpr none left
      let second ← readExpr none right
      useAs (operandTypes op) first
      useAs (operandTypes op) second
      make mark (.operation (.binary op) [first, second])
  | .unary mark op operand => do
      let id ← readExpr none operand
      useAs (unaryOperandTypes op) id
      make mark (.operation (.unary op) [id])
  | .paren mark inner => do
      let id ← readExpr hint inner
      note mark.id 0 id

/-- Turn expressions into terms, each with its hint if there is one. -/
def readExprs : List (Option String) → List Expr → Read (List TermId)
  | _, [] => pure []
  | hints, e :: rest => do
      let id ← readExpr (hints.head?.getD none) e
      let others ← readExprs hints.tail rest
      pure (id :: others)

/-- Read the entries of a table constructor; the next value without key gets the
number `position`. -/
def readFields (table : TableId) : (position : Nat) → List Field → Read Unit
  | _, [] => pure ()
  | position, .named key value :: rest => do
      let id ← readExpr (some key) value
      addEntry table key id
      readFields table position rest
  | position, .keyed key value :: rest => do
      let index ← readExpr none key
      let id ← readExpr key.stringValue? value
      match ← entryKey? key index with
      | some name => addEntry table name id
      | none => pure ()
      readFields table position rest
  | position, .positional value :: rest => do
      let id ← readExpr none value
      addEntry table (toString position) id
      readFields table (position + 1) rest

/-- Read a function in a scope of its own. -/
def readFunction (name : Option String) (isColon : Bool) (receiver : Option TermId) :
    FunctionBody → Read FunctionId
  | .mk node params isVararg body span => do
      let id ← enterFunction (.mk node params isVararg body span) name isColon receiver
      readBlock body
      leaveFunction id
      pure id

/-- Read the statements of a block in the current scope. -/
def readBlock : Block → Read Unit
  | .mk statements _ => readStmts statements

/-- Read statements. -/
def readStmts : List Stmt → Read Unit
  | [] => pure ()
  | statement :: rest => do
      readStmt statement
      readStmts rest

/-- Read a statement. -/
def readStmt : Stmt → Read Unit
  | .localVars _ names values => do
      let ids ← readExprs (names.map some) values
      let given ← adjust names.length values ids
      declareEach names given
  | .assign _ targets values => do
      let ids ← readExprs (targets.map Expr.displayName?) values
      let given ← adjust targets.length values ids
      readTargets given targets
  | .call _ e => do
      let _ ← readExpr none e
  | .doBlock _ body => do
      enterBlock
      readBlock body
      leaveScope
  | .whileLoop _ condition body => do
      let _ ← readExpr none condition
      enterBlock
      readBlock body
      leaveScope
  | .repeatLoop _ body condition => do
      -- The condition sees the locals of the body.
      enterBlock
      readBlock body
      let _ ← readExpr none condition
      leaveScope
  | .ifElse _ clauses otherwise => do
      readClauses clauses
      readOtherwise otherwise
  | .numericFor _ var start limit step body => do
      let first ← readExpr none start
      let last ← readExpr none limit
      let increment ← readStep step
      useNumbers (first :: last :: increment)
      enterBlock
      declareLocal var first
      readBlock body
      leaveScope
  | .genericFor _ names iterators body => do
      let _ ← readExprs [] iterators
      enterBlock
      declareAll names
      readBlock body
      leaveScope
  | .function _ name body => do
      let receiver ← readReceiver name
      let id ← readFunction (some name.display) name.method.isSome receiver body
      defineFunction name receiver id
  | .localFunction _ name body => do
      let symbol ← declare .local name
      let id ← readFunction (some name) false none body
      let target ← alloc (.reference (.bound symbol))
      let value ← alloc (.literal (.function id))
      assign target value
  | .returnValues _ values => do
      let r ← get
      readReturns r.frames.head? 0 values
  | .breakLoop _ | .goto _ _ | .label _ _ => pure ()

/-- Read assignment targets and give each its value. -/
def readTargets : List (Option TermId) → List Expr → Read Unit
  | value :: values, target :: targets => do
      let id ← readExpr none target
      useTarget id
      assign id (← valueOrNil value)
      readTargets values targets
  | _, _ => pure ()

/-- Read the conditions of an `if` statement with their blocks. -/
def readClauses : List Clause → Read Unit
  | [] => pure ()
  | .mk condition body :: rest => do
      let _ ← readExpr none condition
      enterBlock
      readBlock body
      leaveScope
      readClauses rest

/-- Read the `else` block of an `if` statement. -/
def readOtherwise : Option Block → Read Unit
  | none => pure ()
  | some body => do
      enterBlock
      readBlock body
      leaveScope

/-- Read the step of a numeric `for` loop. -/
def readStep : Option Expr → Read (List TermId)
  | none => pure []
  | some step => do
      let id ← readExpr none step
      pure [id]

/-- Read the values of a return statement from a slot on. -/
def readReturns (function : Option FunctionId) : (slot : Nat) → List Expr → Read Unit
  | _, [] => pure ()
  | slot, value :: rest => do
      let id ← readExpr none value
      learn fun s => s.addReturn function slot id
      readReturns function (slot + 1) rest

end

end Read

namespace Inference

/-- Read a chunk as the module of a name. -/
def readModule (s : Inference) (name : String) (chunk : Chunk) : Inference :=
  let (scope, s) := s.beginModule name
  let (_, reading) := (Read.readBlock chunk.block).run { inference := s, scope }
  reading.inference.endModule reading.scope

end Inference

end LuaShape
