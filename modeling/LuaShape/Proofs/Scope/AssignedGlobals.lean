import LuaShape.Proofs.Inference.LoadTime

/-!
# Globals that code assigns

`AssignedGlobals` collects from the syntax the globals that a piece of code assigns, while
it loads or when one of its functions runs: a name that is assigned, or that a function
statement defines, is global where no local of that name is in scope.  The arguments of a
call of `require` with a literal name are not looked at, since the reader does not read
them.

A walk by the rules of scope hands down bindings and not names.  All that the two need to share
is which names are in scope (`Place.Names`).
-/

namespace LuaShape

open List

namespace AssignedGlobals

/-- A name, if it is global. -/
def global (scope : List String) (name : String) : List String :=
  if name ∈ scope then [] else [name]

/-- The global that an assignment to an expression gives a value. -/
def ofTarget (scope : List String) (target : Expr) : List String :=
  (target.nameValue?.map (global scope)).getD []

/-- Whether a function statement assigns its name and not a field. -/
def isPlain (name : FunctionName) : Bool := name.members.isEmpty && name.method.isNone

mutual

/-- The globals assigned by the functions of an expression. -/
def ofExpr (scope : List String) : Expr → List String
  | .member _ object _ => ofExpr scope object
  | .index _ object key => ofExpr scope object ++ ofExpr scope key
  | .call _ callee args =>
    if (Effects.required? scope callee args).isSome then []
    else ofExpr scope callee ++ ofExprs scope args
  | .methodCall _ object _ args => ofExpr scope object ++ ofExprs scope args
  | .binary _ _ left right => ofExpr scope left ++ ofExpr scope right
  | .unary _ _ operand => ofExpr scope operand
  | .paren _ inner => ofExpr scope inner
  | .table _ fields => ofFields scope fields
  | .function _ body => ofFunction scope false body
  | .name _ _ | .nil _ | .boolean _ _ | .number _ _ | .string _ _ | .vararg _ => []

/-- The globals assigned by the functions of expressions. -/
def ofExprs (scope : List String) : List Expr → List String
  | [] => []
  | e :: rest => ofExpr scope e ++ ofExprs scope rest

/-- The globals assigned by the functions of the entries of a table. -/
def ofFields (scope : List String) : List Field → List String
  | [] => []
  | .named _ value :: rest => ofExpr scope value ++ ofFields scope rest
  | .keyed key value :: rest => ofExpr scope key ++ (ofExpr scope value ++ ofFields scope rest)
  | .positional value :: rest => ofExpr scope value ++ ofFields scope rest

/-- The globals that a function assigns; one defined with a colon has a local `self`. -/
def ofFunction (scope : List String) (isColon : Bool) : FunctionBody → List String
  | .mk _ params _ body _ => ofBlock (params ++ (if isColon then ["self"] else []) ++ scope) body

/-- The globals that a block assigns. -/
def ofBlock (scope : List String) : Block → List String
  | .mk statements _ => ofStmts scope statements

/-- The globals that statements assign. -/
def ofStmts (scope : List String) : List Stmt → List String
  | [] => []
  | s :: rest => ofStmt scope s ++ ofStmts (Effects.declared s ++ scope) rest

/-- The globals that a statement assigns. -/
def ofStmt (scope : List String) : Stmt → List String
  | .localVars _ _ values => ofExprs scope values
  | .assign _ targets values => ofExprs scope values ++ ofTargets scope targets
  | .call _ e => ofExpr scope e
  | .doBlock _ body => ofBlock scope body
  | .whileLoop _ condition body => ofExpr scope condition ++ ofBlock scope body
  | .repeatLoop _ (.mk body _) condition =>
    ofStmts scope body ++ ofExpr (Effects.declaredAll body ++ scope) condition
  | .ifElse _ clauses otherwise => ofClauses scope clauses ++ ofOtherwise scope otherwise
  | .numericFor _ var start limit step body =>
    ofExpr scope start ++ (ofExpr scope limit ++ (ofStep scope step ++
      ofBlock (var :: scope) body))
  | .genericFor _ names iterators body => ofExprs scope iterators ++ ofBlock (names ++ scope) body
  | .function _ name body =>
    ofFunction scope name.method.isSome body ++
      if isPlain name then global scope name.root else []
  | .localFunction _ name body => ofFunction (name :: scope) false body
  | .returnValues _ values => ofExprs scope values
  | .breakLoop _ | .goto _ _ | .label _ _ => []

/-- The globals given values by assignments to expressions, or assigned by the functions
of these. -/
def ofTargets (scope : List String) : List Expr → List String
  | [] => []
  | target :: rest => ofTarget scope target ++ ofExpr scope target ++ ofTargets scope rest

/-- The globals that the guarded blocks of an `if` statement assign. -/
def ofClauses (scope : List String) : List Clause → List String
  | [] => []
  | .mk condition body :: rest =>
    ofExpr scope condition ++ (ofBlock scope body ++ ofClauses scope rest)

/-- The globals that an `else` block assigns. -/
def ofOtherwise (scope : List String) : Option Block → List String
  | none => []
  | some body => ofBlock scope body

/-- The globals assigned by the functions of the step of a `for` loop. -/
def ofStep (scope : List String) : Option Expr → List String
  | none => []
  | some e => ofExpr scope e

end

/-- The globals that a file assigns. -/
def ofChunk (chunk : Chunk) : List String := ofBlock [] chunk.block

end AssignedGlobals

namespace Lexical

/-! ## Names in scope -/

theorem Place.isSome_meaning?_iff (place : Place) (name : String) :
    (place.meaning? name).isSome = true ↔ name ∈ place.bindings.map Prod.fst := by
  simp [Place.meaning?]

/-- A place where the names of a list are in scope. -/
def Place.Names (place : Place) (scope : List String) : Prop :=
  ∀ name, name ∈ place.bindings.map Prod.fst ↔ name ∈ scope

namespace Place.Names

variable {place : Place} {scope : List String}

theorem under (h : place.Names scope) {new : Bindings} {names : List String}
    (hNew : ∀ name, name ∈ new.map Prod.fst ↔ name ∈ names) :
    (place.under new).Names (names ++ scope) := by
  intro name
  rw [Place.under, map_append, mem_append, mem_append, hNew, h name]

theorem meaning?_eq_none_iff (h : place.Names scope) (name : String) :
    place.meaning? name = none ↔ name ∉ scope := by
  rw [← h name, ← Place.isSome_meaning?_iff]
  cases place.meaning? name <;> simp

/-- Both walks take the same calls for requires. -/
theorem required?_eq (h : place.Names scope) (callee : Expr) (args : List Expr) :
    Effects.required? scope callee args =
      (place.requiredName? callee args).map ModuleName.ofRequire := by
  have hFree := h.meaning?_eq_none_iff "require"
  rw [Effects.required?, Place.requiredName?]
  by_cases hCall : callee.nameValue? = some "require" ∧ "require" ∉ scope
  · rw [if_pos hCall, if_pos ⟨hCall.1, hFree.2 hCall.2⟩]
  · rw [if_neg hCall, if_neg fun hBoth => hCall ⟨hBoth.1, hFree.1 hBoth.2⟩]
    rfl

end Place.Names

/-! ## Declared names -/

theorem names_declareAll (names : List String) (account : Account) :
    ((declareAll names).run account).1.map Prod.fst = names.reverse := by
  induction names generalizing account with
  | nil => rfl
  | cons name names ih =>
    show (((declareAll names).run _).1 ++ [(name, account.declared.length)]).map Prod.fst = _
    rw [map_append, ih, reverse_cons]
    rfl

theorem names_declareGiven (names : List String) (given : Nat) (account : Account) :
    ((declareGiven given names).run account).1.map Prod.fst = names.reverse := by
  induction names generalizing given account with
  | nil => cases given <;> rfl
  | cons name names ih =>
    have hRest : ∀ given account', (((declareGiven given names).run account').1 ++
        [(name, account.declared.length)]).map Prod.fst = (name :: names).reverse := by
      intro given account'
      rw [map_append, ih, reverse_cons]
      rfl
    cases given <;> exact hRest _ _

/-- Both walks have the same names in scope behind a statement. -/
theorem mem_names_ofStmt (place : Place) (s : Stmt) (account : Account) (name : String) :
    name ∈ ((ofStmt place s).run account).1.map Prod.fst ↔ name ∈ Effects.declared s := by
  cases s with
  | localVars _ names values =>
    rw [ofStmt]
    show name ∈ ((declareGiven _ names).run _).1.map Prod.fst ↔ name ∈ names
    rw [names_declareGiven, mem_reverse]
  | function _ path body =>
    rw [ofStmt]
    split <;> exact Iff.rfl
  | localFunction _ bound body => exact Iff.rfl
  | _ => exact Iff.rfl

theorem mem_names_ofStmts (place : Place) (statements : List Stmt) (account : Account)
    (name : String) :
    name ∈ ((ofStmts place statements).run account).1.map Prod.fst ↔
      name ∈ Effects.declaredAll statements := by
  induction statements generalizing place account with
  | nil => exact Iff.rfl
  | cons s statements ih =>
    rw [ofStmts, Effects.declaredAll, mem_append, ← mem_names_ofStmt place s account]
    show name ∈ (((ofStmts _ statements).run _).1 ++ ((ofStmt place s).run account).1).map
      Prod.fst ↔ _
    rw [map_append, mem_append, ih]

end Lexical

end LuaShape
