import LuaShape.Chunk.Tree
import LuaShape.Inference.Event

/-!
# Steps of reading a module

Reading turns expressions into terms, keeps the lexical scopes, and reports what
statements say to the inference.  This module holds the state of reading and the
steps that do not look inside expressions: declaring names, entering and leaving
functions, making calls, and matching values with targets.
-/

namespace LuaShape

/-- The state of reading a module. -/
structure Reading where
  inference : Inference
  scope : ScopeTree
  /-- The functions around the point that is read, innermost first. -/
  frames : List FunctionId := []
  /-- The terms made of nodes so far, newest first: the number of the node and the
  slot, and the term. -/
  lowered : List ((Nat × Nat) × TermId) := []

/-- A step of reading. -/
abbrev Read := StateM Reading

namespace Read

/-! ## Steps -/

/-- Report a fact. -/
def learn (f : Inference → Inference) : Read Unit :=
  modify fun r => { r with inference := f r.inference }

/-- Report a fact that has an answer. -/
def learnGet {α : Type} (f : Inference → α × Inference) : Read α :=
  modifyGet fun r =>
    let (answer, inference) := f r.inference
    (answer, { r with inference })

/-- Add a term. -/
def alloc (term : Term) : Read TermId := learnGet fun s => s.alloc term

/-- Report a use. -/
def use (id : TermId) (allowed : List TypeTag) : Read Unit := learn fun s => s.addUsage id allowed

/-- Whether a function is being read. -/
def inFunction : Read Bool := do
  let r ← get
  pure !r.frames.isEmpty

/-- Remember the term that a slot of a node was turned into. -/
def note (node slot : Nat) (id : TermId) : Read TermId := do
  modify fun r => { r with lowered := ((node, slot), id) :: r.lowered }
  pure id

/-- Turn a node into a new term. -/
def make (mark : Mark) (term : Term) : Read TermId := do
  let id ← alloc term
  note mark.id 0 id

/-- Enter a nested block. -/
def enterBlock : Read Unit := modify fun r => { r with scope := r.scope.pushBlock }

/-- Leave the current scope. -/
def leaveScope : Read Unit := modify fun r => { r with scope := r.scope.pop }

/-- Declare a binding of a given kind in the current scope. -/
def bindName (kind : SymbolKind) (name : String) : Read SymbolId :=
  modifyGet fun r =>
    let (symbol, scope, registry) := r.scope.declare r.inference.registry kind name
    (symbol, { r with scope, inference := { r.inference with registry } })

/-- Declare a local, and report it if no function is being read. -/
def declare (kind : SymbolKind) (name : String) : Read SymbolId := do
  let symbol ← bindName kind name
  let inside ← inFunction
  unless inside do
    learn fun s => s.markModuleLevel symbol
  pure symbol

/-- Declare several locals. -/
def declareAll : List String → Read Unit
  | [] => pure ()
  | name :: rest => do
      let _ ← declare .local name
      declareAll rest

/-- What a name refers to in the current scope. -/
def identOf (name : String) : Read Ident := do
  let r ← get
  pure (match r.scope.lookup? name with
    | some symbol => .bound symbol
    | none => .global name)

/-- Report an assignment. -/
def assign (target value : TermId) : Read Unit := do
  let inside ← inFunction
  learn fun s => s.addAssignment target value inside

/-! ## Functions -/

/-- Declare parameters in order. -/
def declareParams : List String → Read (List (String × SymbolId))
  | [] => pure []
  | name :: rest => do
      let symbol ← bindName .parameter name
      let others ← declareParams rest
      pure ((name, symbol) :: others)

/-- Declare `self`, which stands for the receiver. -/
def declareSelf (receiver : Option TermId) : Read (String × SymbolId) := do
  let symbol ← bindName .self "self"
  match receiver with
  | some id => learn fun s => s.defineSelf symbol id
  | none => pure ()
  pure ("self", symbol)

/-- Declare `self` if it is needed. -/
def declareImplied (needed : Bool) (receiver : Option TermId) :
    Read (List (String × SymbolId)) :=
  if needed then do
    let self ← declareSelf receiver
    pure [self]
  else pure []

/-- Report what a function is hung on, if anything. -/
def noteReceiver (id : FunctionId) : Option TermId → Read Unit
  | some base => learn fun s => s.setReceiver id base
  | none => pure ()

/-- Start reading a function: its scope and its parameters.  A method has an
implied `self`; a first parameter `self` is taken for it where the function is
hung on something. -/
def enterFunction (body : FunctionBody) (name : Option String) (isColon : Bool)
    (receiver : Option TermId) : Read FunctionId := do
  let id ← learnGet fun s => s.newFunction name
  noteReceiver id receiver
  modify fun r => { r with scope := r.scope.pushFunction id, frames := id :: r.frames }
  let writtenSelf := receiver.isSome && body.params.head? = some "self"
  let implied ← declareImplied (isColon || writtenSelf) receiver
  let params ← declareParams (if writtenSelf && !isColon then body.params.tail else body.params)
  learn fun s => s.setParameters id (implied ++ params) body.isVararg isColon
  pure id

/-- End reading a function. -/
def leaveFunction (id : FunctionId) : Read Unit := do
  learn fun s => s.endFunction id
  modify fun r => { r with frames := r.frames.tail }
  leaveScope

/-- The term for a dotted path below a term. -/
def readMembers (base : TermId) : List String → Read TermId
  | [] => pure base
  | name :: rest => do
      let id ← alloc (.member base name)
      readMembers id rest

/-- What a function statement hangs its function on, if anything: all of its path
but the last name. -/
def readReceiver (name : FunctionName) : Read (Option TermId) := do
  let members? :=
    match name.method with
    | some _ => some name.members
    | none => if name.members.isEmpty then none else some name.members.dropLast
  match members? with
  | none => pure none
  | some members => do
      let root ← alloc (.reference (← identOf name.root))
      let base ← readMembers root members
      use base [.table]
      pure (some base)

/-- The last name of a function statement. -/
def lastName (name : FunctionName) : String :=
  (name.method.or name.members.getLast?).getD name.root

/-- Report the function of a function statement. -/
def defineFunction (name : FunctionName) (receiver : Option TermId) (id : FunctionId) :
    Read Unit := do
  let value ← alloc (.literal (.function id))
  match receiver with
  | some base => do
      let target ← alloc (.member base (lastName name))
      assign target value
      learn fun s => s.methodDefined base (lastName name) id name.method.isSome
  | none => do
      let target ← alloc (.reference (← identOf (lastName name)))
      assign target value

/-! ## Calls and value lists -/

/-- The argument of a call `require("name")`, unless a local is called
`require`. -/
def requireArgument? (scope : ScopeTree) (callee : Expr) (args : List Expr) : Option String :=
  if callee.nameValue? = some "require" && !scope.isBound "require" then
    args.head?.bind fun arg => arg.unparen.stringValue?
  else none

/-- Turn a node into a call. -/
def makeCall (mark : Mark) (callee : TermId) (args : List TermId) : Read TermId := do
  use callee [.function]
  let id ← alloc (.operation (.call 0) (callee :: args))
  learn fun s => s.addCall id
  note mark.id 0 id

/-- A term that asks for a later slot of a call or of a required module. -/
def atSlot (slot : Nat) : Term → Term
  | .operation (.call _) operands => .operation (.call slot) operands
  | .require name target _ => .require name target slot
  | _ => .vararg

/-- Make the terms for some slots of a node, from its term for slot 0. -/
def readSlots (node : Nat) (first : TermId) : List Nat → Read (List TermId)
  | [] => pure []
  | slot :: rest => do
      let r ← get
      let id ← alloc (atSlot slot (r.inference.term first))
      let _ ← note node slot id
      let others ← readSlots node first rest
      pure (id :: others)

/-- The terms for the targets behind the values: further slots of the last value, if
it may have some. -/
def readFurther (targets : Nat) (values : List Expr) (ids : List TermId) :
    Read (List TermId) :=
  match values.getLast?, ids.getLast? with
  | some last, some first =>
    if last.isMultiValue then
      readSlots last.mark.id first ((List.range (targets - values.length)).map Nat.succ)
    else pure []
  | _, _ => pure []

/-- Give each of several targets its value: the values in order, then the further
slots of a last value that may have some.  A target without value has none. -/
def adjust (targets : Nat) (values : List Expr) (ids : List TermId) :
    Read (List (Option TermId)) := do
  let further ← readFurther targets values ids
  let found := (ids ++ further).map some
  pure ((found ++ List.replicate (targets - found.length) none).take targets)

/-! ## Operators -/

/-- The types that a binary operator allows for its operands; any where the list
is empty. -/
def operandTypes (op : BinaryOp) : List TypeTag :=
  match op with
  | .concat => [.string, .number]
  | op => if op.isArithmetic || op.isBitwise then [.number] else []

/-- The types that a unary operator allows for its operand; any where the list is
empty. -/
def unaryOperandTypes : UnaryOp → List TypeTag
  | .len => [.table, .string]
  | .neg | .bitNot => [.number]
  | .not => []

/-- Report a use that allows the types of a list, unless the list is empty. -/
def useAs (allowed : List TypeTag) (id : TermId) : Read Unit :=
  if allowed.isEmpty then pure () else use id allowed

/-! ## Locals -/

/-- The names under which a function builds an object. -/
def objectNames : List String := ["self", "publ"]

/-- Declare a local and give it a value. -/
def declareLocal (name : String) (value : TermId) : Read Unit := do
  let symbol ← declare .local name
  let target ← alloc (.reference (.bound symbol))
  assign target value

/-- Declare a binding for an object that a function builds. -/
def declareObject (function : FunctionId) (name : String) (value : TermId) : Read Unit := do
  let symbol ← declare .object name
  let held ← learnGet fun s => s.addBuiltObject function symbol value
  let target ← alloc (.reference (.bound symbol))
  assign target held

/-- Declare a name of a local statement and give it its value.  Inside a function,
`self` and `publ` are taken for an object that the function builds. -/
def declareWithValue (name : String) : Option TermId → Read Unit
  | none => do
      let _ ← declare .local name
  | some value => do
      let r ← get
      match if objectNames.contains name then r.frames.head? else none with
      | some function => declareObject function name value
      | none => declareLocal name value

/-- Declare the names of a local statement with their values. -/
def declareEach : List String → List (Option TermId) → Read Unit
  | name :: names, value :: values => do
      declareWithValue name value
      declareEach names values
  | _, _ => pure ()

end Read

end LuaShape
