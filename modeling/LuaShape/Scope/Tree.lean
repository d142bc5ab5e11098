import LuaShape.Symbol.Basic

/-!
# Lexical scopes

The scopes of a module form a tree: the module itself, a scope for each function
body, and a scope for each nested block.  Scopes are numbered as they are
entered and stay when they are left, so the tree can be shown afterwards.  A name
is looked up from the current scope outward, newest binding first; a name without
binding is global.
-/

namespace LuaShape

/-- What a scope belongs to. -/
inductive ScopeKind where
  | module
  | function
  | block
deriving DecidableEq, Repr, Inhabited

/-- The function or module whose code a scope is part of. -/
inductive ScopeKey where
  | module (id : ModuleScopeId)
  | function (id : FunctionId)
deriving DecidableEq, Repr

/-- The position of a scope in its tree. -/
abbrev ScopeIndex := Nat

/-- A scope: its kind, the scope around it, the code it is part of, and its
bindings in the order of declaration. -/
structure Scope where
  kind : ScopeKind
  parent : Option ScopeIndex
  key : ScopeKey
  bindings : List (String × SymbolId) := []
deriving DecidableEq, Repr

namespace Scope

/-- The newest binding of a name in a scope. -/
def find? (s : Scope) (name : String) : Option SymbolId :=
  (s.bindings.reverse.find? fun binding => binding.1 = name).map Prod.snd

/-- Whether a scope declares a binding. -/
def declares (s : Scope) (id : SymbolId) : Bool :=
  s.bindings.any fun binding => binding.2 = id

end Scope

/-- The scopes of a module and the one that code is being read in. -/
structure ScopeTree where
  /-- The module all scopes belong to. -/
  home : ModuleScopeId
  scopes : Array Scope
  current : ScopeIndex
deriving DecidableEq, Repr

namespace ScopeTree

/-- The tree that holds only the scope of a module. -/
def ofModule (home : ModuleScopeId) : ScopeTree where
  home := home
  scopes := #[{ kind := .module, parent := none, key := .module home }]
  current := 0

/-- The scope at a position. -/
def scope? (t : ScopeTree) (index : ScopeIndex) : Option Scope := t.scopes[index]?

/-- The code that the current scope is part of. -/
def currentKey (t : ScopeTree) : ScopeKey :=
  ((t.scope? t.current).map Scope.key).getD (.module t.home)

/-- Enter a new scope inside the current one. -/
def push (t : ScopeTree) (kind : ScopeKind) (key : ScopeKey) : ScopeTree :=
  { t with
    scopes := t.scopes.push { kind, parent := some t.current, key }
    current := t.scopes.size }

/-- Enter the body of a function. -/
def pushFunction (t : ScopeTree) (id : FunctionId) : ScopeTree :=
  t.push .function (.function id)

/-- Enter a nested block. -/
def pushBlock (t : ScopeTree) : ScopeTree := t.push .block t.currentKey

/-- Leave the current scope; the scope of the module is never left. -/
def pop (t : ScopeTree) : ScopeTree :=
  match (t.scope? t.current).bind Scope.parent with
  | some parent => { t with current := parent }
  | none => t

/-- Add a binding to the current scope. -/
def bind (t : ScopeTree) (name : String) (id : SymbolId) : ScopeTree :=
  { t with
    scopes := t.scopes.modify t.current fun s =>
      { s with bindings := s.bindings ++ [(name, id)] } }

/-- The scopes from a position outward, at most `limit` of them. -/
def enclosing (scopes : Array Scope) : (limit : Nat) → ScopeIndex → List Scope
  | 0, _ => []
  | limit + 1, index =>
    match scopes[index]? with
    | none => []
    | some s =>
      s :: (match s.parent with
        | some parent => enclosing scopes limit parent
        | none => [])

/-- The binding a name refers to in the current scope, if it has one. -/
def lookup? (t : ScopeTree) (name : String) : Option SymbolId :=
  (enclosing t.scopes t.scopes.size t.current).findSome? fun s => s.find? name

/-- Whether a name refers to a binding. -/
def isBound (t : ScopeTree) (name : String) : Bool := (t.lookup? name).isSome

/-- The position of the scope that declares a binding. -/
def definingScope? (t : ScopeTree) (id : SymbolId) : Option ScopeIndex :=
  t.scopes.toList.findIdx? fun s => s.declares id

/-- The name under which a binding was declared. -/
def nameOf? (t : ScopeTree) (id : SymbolId) : Option String :=
  t.scopes.toList.findSome? fun s =>
    (s.bindings.find? fun binding => binding.2 = id).map Prod.fst

/-- Whether a binding is declared outside every function. -/
def isModuleLevel (t : ScopeTree) (id : SymbolId) : Bool :=
  match ((t.definingScope? id).bind t.scope?).map Scope.key with
  | some (.module _) => true
  | _ => false

/-- Declare a new binding of a given kind in the current scope. -/
def declare (t : ScopeTree) (registry : Registry) (kind : SymbolKind) (name : String) :
    SymbolId × ScopeTree × Registry :=
  let (index, registry) := registry.mint kind name
  (⟨index⟩, t.bind name ⟨index⟩, registry)

end ScopeTree

end LuaShape
