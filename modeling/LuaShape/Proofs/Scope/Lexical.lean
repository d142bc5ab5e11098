import LuaShape.Chunk.Tree

/-!
# Which binding a name means

The rules of scope, as a walk over the syntax that is handed the bindings in scope.  A
binding is known by its number: how many bindings were declared before it.  A piece of code
that declares names gives the new bindings back, so that they can be handed to the code
behind it; what is not handed on is out of scope, and no scope is ever left.

* The names of a `local` statement are in scope behind its values, and that of a
  `local function` inside its body already.
* The condition behind `until` sees the locals of the body.
* The variables of a loop are in scope in its body only.
* Parameters, and `self` where the function is defined with a colon, are in scope in the
  body of their function.
* A newer binding hides an older one of the same name.

The walk keeps an `Account`: the declared names, every name that is mentioned with the
binding it means, the globals that are assigned, and the modules that are required by a
literal name.  Of a call that requires a module so, nothing else is looked at.
-/

namespace LuaShape.Lexical

/-- A name where it stands in the code. -/
structure Mention where
  /-- The number of the expression that the name is.  A name that is being declared, and
  the one that a function statement starts with, are no expressions. -/
  node : Option Nat
  name : String
  /-- The number of the binding that is meant; a global has none. -/
  binding : Option Nat
deriving DecidableEq, Repr

/-- What code does with names, in the order in which it is read. -/
structure Account where
  /-- The names of the bindings.  The number of a binding is its place here. -/
  declared : List String := []
  mentions : List Mention := []
  /-- The globals that are assigned, each with whether this is inside a function. -/
  assigned : List (String × Bool) := []
  /-- The modules that are required by a literal name: the number of the expression, the
  name as written, and whether this is inside a function. -/
  required : List (Nat × String × Bool) := []
deriving DecidableEq, Repr

/-- Bindings with their numbers, innermost first. -/
abbrev Bindings := List (String × Nat)

/-- What is around a piece of code. -/
structure Place where
  bindings : Bindings := []
  inFunction : Bool := false
deriving DecidableEq, Repr

namespace Place

/-- The number of the innermost binding of a name. -/
def meaning? (place : Place) (name : String) : Option Nat :=
  (place.bindings.find? fun binding => binding.1 = name).map Prod.snd

/-- The place behind new bindings. -/
def under (place : Place) (new : Bindings) : Place :=
  { place with bindings := new ++ place.bindings }

/-- The module that a call requires: the callee is the global `require`, written without
parentheses, and the first argument is a string. -/
def requiredName? (place : Place) (callee : Expr) (args : List Expr) : Option String :=
  if callee.nameValue? = some "require" ∧ place.meaning? "require" = none then
    args.head?.bind fun arg => arg.unparen.stringValue?
  else none

/-- The module that an expression stands for, parentheses aside. -/
def requiredBy? (place : Place) : Expr → Option String
  | .call _ callee args => place.requiredName? callee args
  | .paren _ inner => requiredBy? place inner
  | _ => none

end Place

/-- A walk over code. -/
abbrev Walk := StateM Account

/-! ## Steps -/

/-- Declare a name. -/
def declare (name : String) : Walk (String × Nat) :=
  modifyGet fun account =>
    ((name, account.declared.length), { account with declared := account.declared ++ [name] })

/-- Declare names in order. -/
def declareAll : List String → Walk Bindings
  | [] => pure []
  | name :: rest => do
      let first ← declare name
      let others ← declareAll rest
      pure (others ++ [first])

theorem declareAll_append (first rest : List String) :
    declareAll (first ++ rest) = (do
      let old ← declareAll first
      let new ← declareAll rest
      pure (new ++ old)) := by
  induction first with
  | nil => simp [declareAll]
  | cons name first ih => simp [declareAll, ih]

/-- Mention a name. -/
def mention (mention : Mention) : Walk Unit :=
  modify fun account => { account with mentions := account.mentions ++ [mention] }

/-- Mention a name where bindings are in scope. -/
def mentionAt (place : Place) (node : Option Nat) (name : String) : Walk Unit :=
  mention ⟨node, name, place.meaning? name⟩

/-- Mention a name that has just been declared, to give it a value. -/
def mentionNew (binding : String × Nat) : Walk Unit :=
  mention ⟨none, binding.1, some binding.2⟩

/-- Declare a name and give it a value. -/
def declareWithValue (name : String) : Walk (String × Nat) := do
  let binding ← declare name
  mentionNew binding
  pure binding

/-- Assign a name; only globals are kept account of. -/
def assign (place : Place) (name : String) : Walk Unit :=
  if (place.meaning? name).isSome then pure ()
  else modify fun account =>
    { account with assigned := account.assigned ++ [(name, place.inFunction)] }

/-- Assign to an expression, which gives a value to a name if it is one, parentheses aside. -/
def assignTo (place : Place) (target : Expr) : Walk Unit :=
  match target.unparen.nameValue? with
  | some name => assign place name
  | none => pure ()

/-- Require a module, if an expression does. -/
def require (place : Place) (node : Nat) : Option String → Walk Unit
  | some argument => modify fun account =>
    { account with required := account.required ++ [(node, argument, place.inFunction)] }
  | none => pure ()

/-- How many of several targets are given a value: as many as there are values, or all if
the last value may stand for several. -/
def given (targets : Nat) (values : List Expr) : Nat :=
  if (values.getLast?.map Expr.isMultiValue).getD false then targets else values.length

/-- Declare names in order, where the first `given` of them get a value. -/
def declareGiven : (given : Nat) → List String → Walk Bindings
  | _, [] => pure []
  | 0, name :: rest => do
      let first ← declare name
      let others ← declareGiven 0 rest
      pure (others ++ [first])
  | given + 1, name :: rest => do
      let first ← declareWithValue name
      let others ← declareGiven given rest
      pure (others ++ [first])

/-! ## The syntax -/

mutual

/-- Walk over an expression. -/
def ofExpr (place : Place) : Expr → Walk Unit
  | .nil _ | .boolean _ _ | .number _ _ | .string _ _ | .vararg _ => pure ()
  | .function _ body => ofFunction place false body
  | .table _ fields => ofFields place fields
  | .name mark text => mentionAt place (some mark.id) text
  | .member _ object _ => ofExpr place object
  | .index _ object key => do
      ofExpr place object
      ofExpr place key
  | .call mark callee args =>
    match place.requiredName? callee args with
    | some argument => require place mark.id (some argument)
    | none => do
        ofExpr place callee
        ofExprs place args
  | .methodCall _ object _ args => do
      ofExpr place object
      ofExprs place args
  | .binary _ _ left right => do
      ofExpr place left
      ofExpr place right
  | .unary _ _ operand => ofExpr place operand
  | .paren mark inner => do
      ofExpr place inner
      require place mark.id (place.requiredBy? inner)

/-- Walk over expressions. -/
def ofExprs (place : Place) : List Expr → Walk Unit
  | [] => pure ()
  | e :: rest => do
      ofExpr place e
      ofExprs place rest

/-- Walk over the entries of a table. -/
def ofFields (place : Place) : List Field → Walk Unit
  | [] => pure ()
  | .named _ value :: rest => do
      ofExpr place value
      ofFields place rest
  | .keyed key value :: rest => do
      ofExpr place key
      ofExpr place value
      ofFields place rest
  | .positional value :: rest => do
      ofExpr place value
      ofFields place rest

/-- Walk over a function. -/
def ofFunction (place : Place) (isColon : Bool) : FunctionBody → Walk Unit
  | .mk _ params _ body _ => do
      let bound ← declareAll ((if isColon then ["self"] else []) ++ params)
      let _ ← ofBlock { bindings := bound ++ place.bindings, inFunction := true } body
      pure ()

/-- Walk over a block, and give the bindings of its locals. -/
def ofBlock (place : Place) : Block → Walk Bindings
  | .mk statements _ => ofStmts place statements

/-- Walk over statements, and give the bindings that are in scope behind them. -/
def ofStmts (place : Place) : List Stmt → Walk Bindings
  | [] => pure []
  | s :: rest => do
      let new ← ofStmt place s
      let more ← ofStmts (place.under new) rest
      pure (more ++ new)

/-- Walk over a statement, and give the bindings that are in scope behind it. -/
def ofStmt (place : Place) : Stmt → Walk Bindings
  | .localVars _ names values => do
      ofExprs place values
      declareGiven (given names.length values) names
  | .assign _ targets values => do
      ofExprs place values
      ofTargets place targets
      pure []
  | .call _ e => do
      ofExpr place e
      pure []
  | .doBlock _ body => do
      let _ ← ofBlock place body
      pure []
  | .whileLoop _ condition body => do
      ofExpr place condition
      let _ ← ofBlock place body
      pure []
  | .repeatLoop _ body condition => do
      let inside ← ofBlock place body
      ofExpr (place.under inside) condition
      pure []
  | .ifElse _ clauses otherwise => do
      ofClauses place clauses
      ofOtherwise place otherwise
      pure []
  | .numericFor _ var start limit step body => do
      ofExpr place start
      ofExpr place limit
      ofStep place step
      let bound ← declareWithValue var
      let _ ← ofBlock (place.under [bound]) body
      pure []
  | .genericFor _ names iterators body => do
      ofExprs place iterators
      let bound ← declareAll names
      let _ ← ofBlock (place.under bound) body
      pure []
  | .function _ name body =>
    -- A plain name is assigned once the body is read; of a longer path the first name is
    -- looked up before.
    if name.members.isEmpty && name.method.isNone then do
      ofFunction place name.method.isSome body
      mentionAt place none name.root
      assign place name.root
      pure []
    else do
      mentionAt place none name.root
      ofFunction place name.method.isSome body
      pure []
  | .localFunction _ name body => do
      let bound ← declare name
      ofFunction (place.under [bound]) false body
      mentionNew bound
      pure [bound]
  | .returnValues _ values => do
      ofExprs place values
      pure []
  | .breakLoop _ | .goto _ _ | .label _ _ => pure []

/-- Walk over assignment targets. -/
def ofTargets (place : Place) : List Expr → Walk Unit
  | [] => pure ()
  | target :: rest => do
      ofExpr place target
      assignTo place target
      ofTargets place rest

/-- Walk over the guarded blocks of an `if` statement. -/
def ofClauses (place : Place) : List Clause → Walk Unit
  | [] => pure ()
  | .mk condition body :: rest => do
      ofExpr place condition
      let _ ← ofBlock place body
      ofClauses place rest

/-- Walk over an `else` block. -/
def ofOtherwise (place : Place) : Option Block → Walk Unit
  | none => pure ()
  | some body => do
      let _ ← ofBlock place body
      pure ()

/-- Walk over the step of a `for` loop. -/
def ofStep (place : Place) : Option Expr → Walk Unit
  | none => pure ()
  | some e => ofExpr place e

end

/-- The account of a whole file. -/
def ofChunk (chunk : Chunk) : Account := ((ofBlock {} chunk.block).run {}).2

end LuaShape.Lexical
