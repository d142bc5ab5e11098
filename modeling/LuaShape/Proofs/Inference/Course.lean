import LuaShape.Inference.Reader

/-!
# The course of reading

Reading goes from part to part of the syntax.  A `Course` tells how: which steps come one after
the other, and which parts start to be read in between.  Every part has a course, and to run it
is to read the part (`Task.run_course`).
-/

namespace LuaShape

namespace Read

/-- A part of the syntax, with all that is handed to its reader. -/
inductive Task where
  | expr (hint : Option String) (e : Expr)
  | exprs (hints : List (Option String)) (es : List Expr)
  | fields (table : TableId) (position : Nat) (fields : List Field)
  | function (name : Option String) (isColon : Bool) (receiver : Option TermId)
      (body : FunctionBody)
  | block (body : Block)
  | stmts (statements : List Stmt)
  | stmt (s : Stmt)
  | targets (values : List (Option TermId)) (targets : List Expr)
  | clauses (clauses : List Clause)
  | returns (function : Option FunctionId) (slot : Nat) (values : List Expr)

/-- What reading a part gives. -/
abbrev Task.Answer : Task → Type
  | .expr .. => TermId
  | .exprs .. => List TermId
  | .function .. => FunctionId
  | _ => Unit

/-- Read a part. -/
def Task.read : (t : Task) → Read t.Answer
  | .expr hint e => readExpr hint e
  | .exprs hints es => readExprs hints es
  | .fields table position entries => readFields table position entries
  | .function name isColon receiver body => readFunction name isColon receiver body
  | .block body => readBlock body
  | .stmts statements => readStmts statements
  | .stmt s => readStmt s
  | .targets values lefts => readTargets values lefts
  | .clauses parts => readClauses parts
  | .returns owner slot values => readReturns owner slot values

/-- Steps, and parts that start to be read in between. -/
inductive Course (α : Type) : Type 1
  | done (a : α)
  | go {β : Type} (x : Read β) (next : β → Course α)
  | task (t : Task) (next : t.Answer → Course α)

namespace Course

variable {α β : Type}

/-- One course after another. -/
def bind (f : α → Course β) : Course α → Course β
  | .done a => f a
  | .go x next => .go x fun b => (next b).bind f
  | .task t next => .task t fun a => (next a).bind f

instance : Monad Course where
  pure := done
  bind c f := c.bind f

instance : MonadLift Read Course := ⟨fun x => .go x .done⟩

/-- Take the steps and read the parts. -/
def run : Course α → Read α
  | .done a => pure a
  | .go x next => x >>= fun b => (next b).run
  | .task t next => t.read >>= fun a => (next a).run

/-- The parts that start to be read when a course is run, each with the state in which it does. -/
def starts : Course α → Reading → List (Task × Reading)
  | .done _, _ => []
  | .go x next, r => (next (x.run r).1).starts (x.run r).2
  | .task t next, r => (t, r) :: (next (t.read.run r).1).starts (t.read.run r).2

@[simp]
theorem run_pure (a : α) : (pure a : Course α).run = pure a := rfl

@[simp]
theorem run_lift (x : Read α) : (monadLift x : Course α).run = x := bind_pure x

@[simp]
theorem run_bind (c : Course α) (f : α → Course β) :
    (c >>= f).run = c.run >>= fun a => (f a).run := by
  show (c.bind f).run = _
  induction c with
  | done => rfl
  | go x next ih => simp [bind, run, ih]
  | task t next ih => simp [bind, run, ih]

theorem starts_bind (c : Course α) (f : α → Course β) (r : Reading) :
    (c >>= f).starts r = c.starts r ++ (f (c.run.run r).1).starts (c.run.run r).2 := by
  show (c.bind f).starts r = _
  induction c generalizing r with
  | done => rfl
  | go x next ih => exact ih _ _
  | task t next ih => exact congrArg _ (ih _ _)

end Course

/-- A part starts to be read. -/
def start (t : Task) : Course t.Answer := .task t .done

@[simp]
theorem run_start (t : Task) : (start t).run = t.read := bind_pure t.read

/-- The course of reading an expression. -/
def Course.ofExpr (hint : Option String) : Expr → Course TermId
  | .function mark body => do
      let id ← start (.function hint false none body)
      make mark (.literal (.function id))
  | .table mark entries => do
      let id ← learnGet fun s => s.newTable "table"
      let literal ← alloc (.literal (.table id))
      start (.fields id 1 entries)
      note mark.id 0 literal
  | .member mark object text => do
      let base ← start (.expr none object)
      use base [.table, .string]
      make mark (.member base text)
  | .index mark object key => do
      let base ← start (.expr none object)
      use base [.table, .string]
      let index ← start (.expr none key)
      make mark (.index base index)
  | .call mark callee args => .go get fun r =>
      match requireArgument? r.scope callee args with
      | some argument => do
          let target ← learnGet fun s => s.resolveRequire argument
          make mark (.require argument target 0)
      | none => do
          let function ← start (.expr none callee)
          let operands ← start (.exprs [] args)
          makeCall mark function operands
  | .methodCall mark object method args => do
      let base ← start (.expr none object)
      use base [.table, .string]
      let function ← alloc (.member base method)
      let operands ← start (.exprs [] args)
      makeCall mark function (base :: operands)
  | .binary mark op left right => do
      let first ← start (.expr none left)
      let second ← start (.expr none right)
      useAs (operandTypes op) first
      useAs (operandTypes op) second
      make mark (.operation (.binary op) [first, second])
  | .unary mark op operand => do
      let id ← start (.expr none operand)
      useAs (unaryOperandTypes op) id
      make mark (.operation (.unary op) [id])
  | .paren mark inner => do
      let id ← start (.expr hint inner)
      note mark.id 0 id
  | leaf => readExpr hint leaf

/-- The course of reading a statement. -/
def Course.ofStmt : Stmt → Course Unit
  | .localVars _ names values => do
      let ids ← start (.exprs (names.map some) values)
      let given ← adjust names.length values ids
      declareEach names given
  | .assign _ lefts values => do
      let ids ← start (.exprs (lefts.map Expr.displayName?) values)
      let given ← adjust lefts.length values ids
      start (.targets given lefts)
  | .call _ e => do
      let _ ← start (.expr none e)
  | .doBlock _ body => do
      enterBlock
      start (.block body)
      leaveScope
  | .whileLoop _ condition body => do
      let _ ← start (.expr none condition)
      enterBlock
      start (.block body)
      leaveScope
  | .repeatLoop _ body condition => do
      enterBlock
      start (.block body)
      let _ ← start (.expr none condition)
      leaveScope
  | .ifElse _ parts otherwise => do
      start (.clauses parts)
      match otherwise with
      | none => pure ()
      | some body => do
          enterBlock
          start (.block body)
          leaveScope
  | .numericFor _ var first limit step body => do
      let lower ← start (.expr none first)
      let upper ← start (.expr none limit)
      let increment ← start (.exprs [] step.toList)
      useNumbers (lower :: upper :: increment)
      enterBlock
      declareLocal var lower
      start (.block body)
      leaveScope
  | .genericFor _ names iterators body => do
      let _ ← start (.exprs [] iterators)
      enterBlock
      declareAll names
      start (.block body)
      leaveScope
  | .function _ name body => do
      let receiver ← readReceiver name
      let id ← start (.function (some name.display) name.method.isSome receiver body)
      defineFunction name receiver id
  | .localFunction _ name body => do
      let symbol ← declare .local name
      let id ← start (.function (some name) false none body)
      let target ← alloc (.reference (.bound symbol))
      let value ← alloc (.literal (.function id))
      assign target value
  | .returnValues _ values => .go get fun r => start (.returns r.frames.head? 0 values)
  | .breakLoop _ | .goto _ _ | .label _ _ => pure ()

/-- The course of reading a part. -/
def Task.course : (t : Task) → Course t.Answer
  | .expr hint e => .ofExpr hint e
  | .stmt s => .ofStmt s
  | .exprs hints (e :: rest) => do
      let id ← start (.expr (hints.head?.getD none) e)
      let others ← start (.exprs hints.tail rest)
      pure (id :: others)
  | .exprs _ [] => pure ([] : List TermId)
  | .fields table position (.named key value :: rest) => do
      let id ← start (.expr (some key) value)
      addEntry table key id
      start (.fields table position rest)
  | .fields table position (.keyed key value :: rest) => do
      let index ← start (.expr none key)
      let id ← start (.expr key.stringValue? value)
      match ← entryKey? key index with
      | some name => addEntry table name id
      | none => pure ()
      start (.fields table position rest)
  | .fields table position (.positional value :: rest) => do
      let id ← start (.expr none value)
      addEntry table (toString position) id
      start (.fields table (position + 1) rest)
  | .function name isColon receiver body => do
      let id ← enterFunction body name isColon receiver
      start (.block body.body)
      leaveFunction id
      (pure id : Course FunctionId)
  | .block body => start (.stmts body.statements)
  | .stmts (s :: rest) => do
      start (.stmt s)
      start (.stmts rest)
  | .targets (value :: values) (target :: rest) => do
      let id ← start (.expr none target)
      useTarget id
      assign id (← valueOrNil value)
      start (.targets values rest)
  | .clauses (.mk condition body :: rest) => do
      let _ ← start (.expr none condition)
      enterBlock
      start (.block body)
      leaveScope
      start (.clauses rest)
  | .returns owner slot (value :: rest) => do
      let id ← start (.expr none value)
      learn fun s => s.addReturn owner slot id
      start (.returns owner (slot + 1) rest)
  | .fields _ _ [] | .stmts [] | .targets [] _ | .targets (_ :: _) [] | .clauses []
  | .returns _ _ [] => (pure () : Course Unit)

section

attribute [local simp] Task.course Course.ofExpr Course.ofStmt Course.run start Task.read readExpr
  readExprs readFields readFunction readBlock readStmts readStmt readTargets readClauses
  readOtherwise readStep readReturns FunctionBody.body Block.statements

/-- To run the course of a part is to read the part. -/
theorem Task.run_course (t : Task) : t.course.run = t.read := by
  cases t with
  | expr hint e =>
    cases e with
    | call mark callee args =>
      refine bind_congr fun r => ?_
      dsimp only
      cases requireArgument? r.scope callee args <;> simp
    | _ => simp
  | exprs hints es => cases es <;> simp
  | fields table position entries =>
    cases entries with
    | nil => simp
    | cons f rest =>
      cases f with
      | keyed key value =>
        simp only [course, read, readFields, Course.run_bind, Course.run, start, Course.run_lift,
          bind_pure]
        refine bind_congr fun index => bind_congr fun id => bind_congr fun found => ?_
        cases found <;> simp
      | _ => simp
  | function name isColon receiver body => cases body; simp
  | block body => cases body; simp
  | stmts statements => cases statements <;> simp
  | stmt s =>
    cases s with
    | ifElse _ _ otherwise => cases otherwise <;> simp
    | numericFor _ _ _ _ step => cases step <;> simp
    | _ => simp
  | targets values lefts => cases values <;> cases lefts <;> simp
  | clauses parts =>
    cases parts with
    | nil => simp
    | cons part rest => cases part; simp
  | returns owner slot values => cases values <;> simp

end

end Read

end LuaShape
