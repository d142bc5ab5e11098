import LuaShape.Proofs.Inference.LoadTime
import Mathlib.Tactic.Simproc.ExistsAndEq

/-!
# The effects of loading a file are its free names

The effects of a file are found in one pass that hands down the locals in scope.  Here they
are said without a pass.  A `Site` is a piece of code that is run while the file loads; `Holds`
says which pieces stand directly inside another one, and which locals are in scope there and
not around it; `Stands` follows this down to any depth.  Function bodies are no sites.  At a
site a name is read, assigned, or used to require a module (`Does`), and this is an effect of
the file exactly when the name is none of the locals in scope at the site.

`has_effects_iff` compares the pass with one level of nesting, construct by construct; the
whole comes from it by induction on the size of the code in one direction and on the nesting
in the other.
-/

namespace LuaShape

open List

/-! ## Code that is run while a file loads -/

/-- The expressions that an entry of a table evaluates. -/
def Field.values : Field → List Expr
  | .named _ value => [value]
  | .keyed key value => [key, value]
  | .positional value => [value]

/-- The expressions that are evaluated as parts of an expression; a function is not run. -/
def Expr.operands : Expr → List Expr
  | .member _ object _ => [object]
  | .index _ object key => [object, key]
  | .call _ callee args => callee :: args
  | .methodCall _ object _ args => object :: args
  | .binary _ _ left right => [left, right]
  | .unary _ _ operand => [operand]
  | .paren _ inner => [inner]
  | .table _ fields => fields.flatMap Field.values
  | .nil _ | .boolean _ _ | .number _ _ | .string _ _ | .vararg _ | .name _ _ | .function _ _ => []

namespace Clause

/-- The condition of a guarded block. -/
def condition : Clause → Expr
  | .mk condition _ => condition

/-- The block behind a condition. -/
def body : Clause → Block
  | .mk _ body => body

end Clause

namespace Stmt

/-- The expressions that a statement evaluates where it stands. -/
def values : Stmt → List Expr
  | .localVars _ _ values | .assign _ _ values | .returnValues _ values => values
  | .call _ e => [e]
  | .whileLoop _ condition _ => [condition]
  | .ifElse _ clauses _ => clauses.map Clause.condition
  | .numericFor _ _ start limit step _ => start :: limit :: step.toList
  | .genericFor _ _ iterators _ => iterators
  | .doBlock _ _ | .repeatLoop _ _ _ | .function _ _ _ | .localFunction _ _ _
  | .breakLoop _ | .goto _ _ | .label _ _ => []

/-- The blocks of a statement, each with the loop variables that are in scope in it. -/
def blocks : Stmt → List (List String × Block)
  | .doBlock _ body | .whileLoop _ _ body | .repeatLoop _ body _ => [([], body)]
  | .ifElse _ clauses otherwise => (clauses.map Clause.body ++ otherwise.toList).map ([], ·)
  | .numericFor _ var _ _ _ body => [([var], body)]
  | .genericFor _ names _ body => [(names, body)]
  | .localVars _ _ _ | .assign _ _ _ | .call _ _ | .function _ _ _ | .localFunction _ _ _
  | .returnValues _ _ | .breakLoop _ | .goto _ _ | .label _ _ => []

end Stmt

/-- A piece of code that is run while a file loads. -/
inductive Site where
  /-- An expression that is evaluated. -/
  | value (e : Expr)
  /-- An expression that is assigned to. -/
  | target (e : Expr)
  | statement (s : Stmt)
  | block (body : Block)

namespace Site

/-- A piece of code stands directly inside another one, and certain locals are in scope there
that the outer one brings in. -/
inductive Holds : Site → List String → Site → Prop where
  | operand {e inner : Expr} (h : inner ∈ e.operands) : Holds (.value e) [] (.value inner)
  /-- What is assigned to is evaluated, unless it is a name. -/
  | place {e : Expr} (h : e.nameValue? = none) : Holds (.target e) [] (.value e)
  | value {s : Stmt} {e : Expr} (h : e ∈ s.values) : Holds (.statement s) [] (.value e)
  | target {span : Span} {targets values : List Expr} {e : Expr} (h : e ∈ targets) :
      Holds (.statement (.assign span targets values)) [] (.target e)
  /-- The variables of a loop are in scope in its block. -/
  | block {s : Stmt} {names : List String} {body : Block} (h : (names, body) ∈ s.blocks) :
      Holds (.statement s) names (.block body)
  /-- The condition behind `until` sees the locals of the block before it. -/
  | condition {span : Span} {body : Block} {condition : Expr} :
      Holds (.statement (.repeatLoop span body condition))
        (Effects.declaredAll body.statements) (.value condition)
  /-- A statement sees the locals of the statements before it. -/
  | statement {front rest : List Stmt} {s : Stmt} {span : Span} :
      Holds (.block (.mk (front ++ s :: rest) span)) (Effects.declaredAll front) (.statement s)

/-- A piece of code stands somewhere inside another one, or is all of it, and certain locals
are in scope there that are not around the outer one. -/
inductive Stands : Site → List String → Site → Prop where
  | here (site : Site) : Stands site [] site
  | inside {outer middle inner : Site} {names more : List String} (h : Holds outer names middle)
      (rest : Stands middle more inner) : Stands outer (more ++ names) inner

end Site

/-! ## What is done with a name -/

/-- Something that loading a file does with the global environment. -/
inductive Deed where
  | read (name : String)
  | write (name : String)
  | require (module : String)

/-- A deed is among effects. -/
def Effects.Has (effects : Effects) : Deed → Prop
  | .read name => name ∈ effects.reads
  | .write name => name ∈ effects.writes
  | .require module => module ∈ effects.requires

/-- A site does something through a name, if the name is global there. -/
inductive Site.Does : Site → Deed → String → Prop where
  | read (mark : Mark) (name : String) : Does (.value (.name mark name)) (.read name) name
  | write (mark : Mark) (name : String) : Does (.target (.name mark name)) (.write name) name
  /-- A function statement with a plain name assigns it. -/
  | define (span : Span) {name : FunctionName} (body : FunctionBody) (hMembers : name.members = [])
      (hMethod : name.method = none) :
      Does (.statement (.function span name body)) (.write name.root) name.root
  /-- A function statement with a longer path, or with a method, reads its first name. -/
  | extend (span : Span) {name : FunctionName} (body : FunctionBody)
      (h : name.members ≠ [] ∨ name.method ≠ none) :
      Does (.statement (.function span name body)) (.read name.root) name.root
  /-- A call of `require` by name, whose first argument is a string, parentheses aside. -/
  | require (mark mark' mark'' : Mark) {first : Expr} {rest : List Expr} {argument : String}
      (h : first.unparen = .string mark'' argument) :
      Does (.value (.call mark (.name mark' "require") (first :: rest)))
        (.require (ModuleName.ofRequire argument)) "require"

/-- Somewhere in a chunk, outside all function bodies, a deed is done through a name that no
local in scope there has. -/
def Chunk.DoesFree (chunk : Chunk) (deed : Deed) : Prop :=
  ∃ site scope name, Site.Stands (.block chunk.block) scope site ∧ site.Does deed name ∧
    name ∉ scope

/-! ## Effects, deed by deed -/

namespace Effects

variable {a b : Effects} {scope : List String} {name : String} {d : Deed}

@[simp]
theorem has_append : (a ++ b).Has d ↔ a.Has d ∨ b.Has d := by
  cases d <;> exact SortedSet.mem_union

@[simp]
theorem not_has_none : ¬ none.Has d := by
  cases d <;> exact SortedSet.not_mem_empty _

theorem has_read_iff : (read scope name).Has d ↔ d = .read name ∧ name ∉ scope := by
  rw [read]
  split
  · rename_i hLocal
    simp [hLocal]
  · rename_i hFree
    cases d <;> simp [Has, hFree, EmptyCollection.emptyCollection]

theorem has_write_iff : (write scope name).Has d ↔ d = .write name ∧ name ∉ scope := by
  rw [write]
  split
  · rename_i hLocal
    simp [hLocal]
  · rename_i hFree
    cases d <;> simp [Has, hFree, EmptyCollection.emptyCollection]

theorem has_require_iff {module : Option String} :
    (require module).Has d ↔ ∃ name, module = some name ∧ d = .require name := by
  cases module with
  | none => simp [require]
  | some name => cases d <;> simp [require, Has, EmptyCollection.emptyCollection, eq_comm]

theorem has_ofExprs_iff {es : List Expr} :
    (ofExprs scope es).Has d ↔ ∃ e ∈ es, (ofExpr scope e).Has d := by
  induction es with
  | nil => simp [ofExprs]
  | cons e es ih => simp [ofExprs, ih]

theorem has_ofFields_iff {fields : List Field} :
    (ofFields scope fields).Has d ↔ ∃ e ∈ fields.flatMap Field.values, (ofExpr scope e).Has d := by
  induction fields with
  | nil => simp [ofFields]
  | cons field fields ih => cases field <;> simp [ofFields, Field.values, ih, or_assoc]

theorem has_ofTargets_iff {targets : List Expr} :
    (ofTargets scope targets).Has d ↔ ∃ e ∈ targets, (ofTarget scope e).Has d := by
  induction targets with
  | nil => simp [ofTargets]
  | cons e targets ih =>
    rw [ofTargets, foldr_cons, has_append, ← ofTargets, ih]
    simp

theorem has_ofClauses_iff {clauses : List Clause} :
    (ofClauses scope clauses).Has d ↔
      (∃ e ∈ clauses.map Clause.condition, (ofExpr scope e).Has d) ∨
        ∃ body ∈ clauses.map Clause.body, (ofBlock scope body).Has d := by
  induction clauses with
  | nil => simp [ofClauses]
  | cons clause clauses ih =>
    cases clause
    simp only [ofClauses, has_append, ih, map_cons, mem_cons, exists_eq_or_imp,
      Clause.condition, Clause.body]
    grind

/-- Among the effects of statements are those of each one with the locals before it. -/
theorem has_ofStmts_iff {statements : List Stmt} :
    (ofStmts scope statements).1.Has d ↔ ∃ front s rest, statements = front ++ s :: rest ∧
      (ofStmt (declaredAll front ++ scope) s).1.Has d := by
  induction statements generalizing scope with
  | nil => simp [ofStmts]
  | cons s statements ih =>
    show ((ofStmt scope s).1 ++ (ofStmts (ofStmt scope s).2 statements).1).Has d ↔ _
    rw [has_append, ih, ofStmt_snd]
    constructor
    · rintro (hFirst | ⟨front, s', rest, rfl, hLater⟩)
      · exact ⟨[], s, statements, rfl, hFirst⟩
      · refine ⟨s :: front, s', rest, rfl, ?_⟩
        rwa [declaredAll, append_assoc]
    · rintro ⟨front, s', rest, hSplit, hHas⟩
      cases front with
      | nil =>
        cases hSplit
        exact Or.inl hHas
      | cons first front =>
        cases hSplit
        rw [declaredAll, append_assoc] at hHas
        exact Or.inr ⟨front, s', rest, rfl, hHas⟩

end Effects

/-! ## One level of nesting -/

namespace Expr

theorem nameValue?_eq_some_iff {e : Expr} {text : String} :
    e.nameValue? = some text ↔ ∃ mark, e = .name mark text := by
  cases e <;> simp [nameValue?]

theorem stringValue?_eq_some_iff {e : Expr} {value : String} :
    e.stringValue? = some value ↔ ∃ mark, e = .string mark value := by
  cases e <;> simp [stringValue?]

end Expr

namespace Site

/-- The effects of a piece of code with locals in scope around it. -/
def effects (scope : List String) : Site → Effects
  | .value e => Effects.ofExpr scope e
  | .target e => Effects.ofTarget scope e
  | .statement s => (Effects.ofStmt scope s).1
  | .block body => Effects.ofBlock scope body

/-- What stands directly inside a statement. -/
theorem exists_holds_statement_iff {s : Stmt} {P : List String → Site → Prop} :
    (∃ names inner, Holds (.statement s) names inner ∧ P names inner) ↔
      (∃ e ∈ s.values, P [] (.value e)) ∨ (∃ part ∈ s.blocks, P part.1 (.block part.2)) ∨
        (∃ span targets values, s = .assign span targets values ∧ ∃ e ∈ targets, P [] (.target e)) ∨
          ∃ span body condition, s = .repeatLoop span body condition ∧
            P (Effects.declaredAll body.statements) (.value condition) := by
  constructor
  · rintro ⟨names, inner, hHolds, h⟩
    cases hHolds with
    | value hValue => exact Or.inl ⟨_, hValue, h⟩
    | block hBlock => exact Or.inr (Or.inl ⟨_, hBlock, h⟩)
    | target hTarget => exact Or.inr (Or.inr (Or.inl ⟨_, _, _, rfl, _, hTarget, h⟩))
    | condition => exact Or.inr (Or.inr (Or.inr ⟨_, _, _, rfl, h⟩))
  · rintro (⟨e, hValue, h⟩ | ⟨part, hBlock, h⟩ | ⟨span, targets, values, rfl, e, hTarget, h⟩ |
      ⟨span, body, condition, rfl, h⟩)
    · exact ⟨_, _, .value hValue, h⟩
    · exact ⟨_, _, .block hBlock, h⟩
    · exact ⟨_, _, .target hTarget, h⟩
    · exact ⟨_, _, .condition, h⟩

end Site

namespace Effects

variable {scope : List String} {d : Deed}

/-- What a call requires is what its site does. -/
theorem has_require_required?_iff (mark : Mark) {callee : Expr} {args : List Expr} :
    (require (required? scope callee args)).Has d ↔
      ∃ name, Site.Does (.value (.call mark callee args)) d name ∧ name ∉ scope := by
  rw [has_require_iff]
  constructor
  · rintro ⟨module, hModule, rfl⟩
    rw [required?] at hModule
    split at hModule
    · rename_i hCallee
      obtain ⟨argument, hFirst, rfl⟩ := Option.map_eq_some_iff.1 hModule
      obtain ⟨first, hHead, hString⟩ := Option.bind_eq_some_iff.1 hFirst
      obtain ⟨mark', rfl⟩ := Expr.nameValue?_eq_some_iff.1 hCallee.1
      obtain ⟨mark'', hString⟩ := Expr.stringValue?_eq_some_iff.1 hString
      obtain ⟨rest, rfl⟩ := head?_eq_some_iff.1 hHead
      exact ⟨"require", .require mark mark' mark'' hString, hCallee.2⟩
    · contradiction
  · rintro ⟨name, hDoes, hFree⟩
    cases hDoes with
    | require _ mark' mark'' h =>
      refine ⟨_, ?_, rfl⟩
      rw [required?, if_pos ⟨rfl, hFree⟩, head?_cons, Option.bind_some, h]
      rfl

/-- The effects of an expression are what it does itself and those of its operands. -/
theorem has_ofExpr_iff {e : Expr} :
    (ofExpr scope e).Has d ↔ (∃ name, Site.Does (.value e) d name ∧ name ∉ scope) ∨
      ∃ inner ∈ e.operands, (ofExpr scope inner).Has d := by
  cases e with
  | name mark text =>
    rw [ofExpr, has_read_iff]
    constructor
    · rintro ⟨rfl, hFree⟩
      exact Or.inl ⟨text, .read mark text, hFree⟩
    · rintro (⟨name, hDoes, hFree⟩ | ⟨inner, hInner, -⟩)
      · cases hDoes
        exact ⟨rfl, hFree⟩
      · cases hInner
  | call mark callee args =>
    rw [ofExpr, has_append, has_append, has_ofExprs_iff, has_require_required?_iff mark]
    simp [Expr.operands, or_assoc]
  | _ =>
    rw [or_iff_right (by rintro ⟨name, hDoes, -⟩; cases hDoes)]
    simp [ofExpr, Expr.operands, has_ofExprs_iff, has_ofFields_iff]

/-- A name that is assigned is written; anything else is evaluated. -/
theorem has_ofTarget_iff {e : Expr} :
    (ofTarget scope e).Has d ↔ (∃ name, Site.Does (.target e) d name ∧ name ∉ scope) ∨
      e.nameValue? = Option.none ∧ (ofExpr scope e).Has d := by
  cases e with
  | name mark text =>
    rw [ofTarget, has_write_iff]
    constructor
    · rintro ⟨rfl, hFree⟩
      exact Or.inl ⟨text, .write mark text, hFree⟩
    · rintro (⟨name, hDoes, hFree⟩ | ⟨hNone, -⟩)
      · cases hDoes
        exact ⟨rfl, hFree⟩
      · cases hNone
  | _ =>
    rw [or_iff_right (by rintro ⟨name, hDoes, -⟩; cases hDoes)]
    simp [ofTarget, Expr.nameValue?]

/-- The name of a function statement is assigned or read. -/
theorem has_ofFunctionName_iff (span : Span) {name : FunctionName} (body : FunctionBody) :
    (ofFunctionName scope name).Has d ↔
      ∃ via, Site.Does (.statement (.function span name body)) d via ∧ via ∉ scope := by
  rw [ofFunctionName]
  split
  · rename_i hPlain
    rw [has_write_iff]
    constructor
    · rintro ⟨rfl, hFree⟩
      rw [List.isEmpty_iff, Option.isNone_iff_eq_none] at hPlain
      exact ⟨_, .define span body hPlain.1 hPlain.2, hFree⟩
    · rintro ⟨via, hDoes, hFree⟩
      cases hDoes with
      | define => exact ⟨rfl, hFree⟩
      | extend _ _ h => simp_all
  · rename_i hLonger
    rw [has_read_iff]
    constructor
    · rintro ⟨rfl, hFree⟩
      refine ⟨_, .extend span body ?_, hFree⟩
      rwa [List.isEmpty_iff, Option.isNone_iff_eq_none, Decidable.not_and_iff_not_or_not] at hLonger
    · rintro ⟨via, hDoes, hFree⟩
      cases hDoes with
      | define _ _ hMembers hMethod => simp_all
      | extend => exact ⟨rfl, hFree⟩

/-- Function statements aside, what a statement does is done by its parts. -/
theorem not_does_statement {s : Stmt} (h : ∀ span name body, s ≠ .function span name body) :
    ¬ ∃ name, Site.Does (.statement s) d name ∧ name ∉ scope := by
  rintro ⟨name, hDoes, -⟩
  cases hDoes with
  | define span body => exact h span _ body rfl
  | extend span body => exact h span _ body rfl

/-- The effects of a statement are what it does itself and those of its parts. -/
theorem has_ofStmt_iff {s : Stmt} :
    (ofStmt scope s).1.Has d ↔ (∃ name, Site.Does (.statement s) d name ∧ name ∉ scope) ∨
      ∃ names inner, Site.Holds (.statement s) names inner ∧
        (inner.effects (names ++ scope)).Has d := by
  rw [Site.exists_holds_statement_iff
    (P := fun names inner => (inner.effects (names ++ scope)).Has d)]
  -- Only a function statement does something itself; the others are compared part by part.
  cases s with
  | function span name body =>
    simp [ofStmt, has_ofFunctionName_iff span body, Stmt.values, Stmt.blocks]
  | ifElse span clauses otherwise =>
    rw [or_iff_right (not_does_statement (by simp))]
    cases otherwise <;>
      simp [ofStmt, has_ofClauses_iff, Stmt.values, Stmt.blocks, Site.effects, -Prod.exists,
        or_assoc, or_and_right, exists_or]
  | numericFor span var start limit step body =>
    rw [or_iff_right (not_does_statement (by simp))]
    cases step <;> simp [ofStmt, Stmt.values, Stmt.blocks, Site.effects, or_assoc]
  | repeatLoop span body condition =>
    rw [or_iff_right (not_does_statement (by simp))]
    cases body
    simp [ofStmt, ofStmts_snd, ofBlock, Block.statements, Stmt.values, Stmt.blocks, Site.effects]
  | _ =>
    rw [or_iff_right (not_does_statement (by simp))]
    simp [ofStmt, Stmt.values, Stmt.blocks, Site.effects, has_ofExprs_iff, has_ofTargets_iff]

end Effects

namespace Site

/-- The effects of a piece of code are what it does itself, through names that are not in scope
around it, and the effects of what stands directly inside. -/
theorem has_effects_iff {scope : List String} {site : Site} {d : Deed} :
    (site.effects scope).Has d ↔ (∃ name, site.Does d name ∧ name ∉ scope) ∨
      ∃ names inner, Holds site names inner ∧ (inner.effects (names ++ scope)).Has d := by
  cases site with
  | value e =>
    refine Effects.has_ofExpr_iff.trans (or_congr_right ⟨?_, ?_⟩)
    · rintro ⟨inner, hInner, h⟩
      exact ⟨[], .value inner, .operand hInner, h⟩
    · rintro ⟨names, _, hHolds, h⟩
      cases hHolds with
      | operand hInner => exact ⟨_, hInner, h⟩
  | target e =>
    refine Effects.has_ofTarget_iff.trans (or_congr_right ⟨?_, ?_⟩)
    · rintro ⟨hPlace, h⟩
      exact ⟨[], .value e, .place hPlace, h⟩
    · rintro ⟨names, _, hHolds, h⟩
      cases hHolds with
      | place hPlace => exact ⟨hPlace, h⟩
  | statement s => exact Effects.has_ofStmt_iff
  | block body =>
    obtain ⟨statements, span⟩ := body
    refine Effects.has_ofStmts_iff.trans ((or_iff_right ?_).trans ⟨?_, ?_⟩).symm
    · rintro ⟨name, hDoes, -⟩
      cases hDoes
    · rintro ⟨names, _, hHolds, h⟩
      cases hHolds with
      | statement => exact ⟨_, _, _, rfl, h⟩
    · rintro ⟨front, s, rest, rfl, h⟩
      exact ⟨_, .statement s, .statement, h⟩

/-! ## Any depth -/

/-- How large a piece of code is.  An expression counts more where it is assigned to, since it
may then stand inside as an expression that is evaluated. -/
noncomputable def size : Site → Nat
  | .value e => 2 * sizeOf e
  | .target e => 2 * sizeOf e + 1
  | .statement s => 2 * sizeOf s
  | .block body => 2 * sizeOf body

end Site

theorem Field.sizeOf_value_lt {field : Field} {e : Expr} (h : e ∈ field.values) :
    sizeOf e < sizeOf field := by
  cases field <;> grind [values]

theorem Expr.sizeOf_operand_lt {e inner : Expr} (h : inner ∈ e.operands) :
    sizeOf inner < sizeOf e := by
  cases e with
  | table mark fields =>
    obtain ⟨field, hField, hInner⟩ := mem_flatMap.1 h
    have hFields := sizeOf_lt_of_mem hField
    have hValue := Field.sizeOf_value_lt hInner
    grind
  | call mark callee args => grind [operands, → sizeOf_lt_of_mem]
  | methodCall mark object method args => grind [operands, → sizeOf_lt_of_mem]
  | _ => grind [operands]

theorem Stmt.sizeOf_value_lt {s : Stmt} {e : Expr} (h : e ∈ s.values) : sizeOf e < sizeOf s := by
  cases s with
  | ifElse span clauses otherwise =>
    obtain ⟨clause, hClause, rfl⟩ := mem_map.1 h
    have hClauses := sizeOf_lt_of_mem hClause
    cases clause
    grind [Clause.condition]
  | numericFor span var start limit step body => cases step <;> grind [values]
  | _ => grind [values, → sizeOf_lt_of_mem]

theorem Stmt.sizeOf_block_lt {s : Stmt} {names : List String} {body : Block}
    (h : (names, body) ∈ s.blocks) : sizeOf body < sizeOf s := by
  cases s with
  | ifElse span clauses otherwise =>
    obtain ⟨_, hBody, hPair⟩ := mem_map.1 h
    cases hPair
    rcases mem_append.1 hBody with hClauses | hElse
    · obtain ⟨clause, hClause, rfl⟩ := mem_map.1 hClauses
      have hClauses := sizeOf_lt_of_mem hClause
      cases clause
      grind [Clause.body]
    · rw [Option.mem_toList] at hElse
      cases hElse
      grind
  | _ => grind [blocks]

namespace Site

theorem Holds.size_lt {outer inner : Site} {names : List String} (h : Holds outer names inner) :
    inner.size < outer.size := by
  cases h with
  | operand h =>
    have hLt := Expr.sizeOf_operand_lt h
    simp only [size]
    omega
  | place h => exact Nat.lt_succ_self _
  | value h =>
    have hLt := Stmt.sizeOf_value_lt h
    simp only [size]
    omega
  | target h =>
    have hLt := sizeOf_lt_of_mem h
    simp only [size, Stmt.assign.sizeOf_spec]
    omega
  | block h =>
    have hLt := Stmt.sizeOf_block_lt h
    simp only [size]
    omega
  | condition =>
    simp only [size, Stmt.repeatLoop.sizeOf_spec]
    omega
  | @statement front rest s span =>
    have hMem : s ∈ front ++ s :: rest := mem_append_cons_self
    have hLt := sizeOf_lt_of_mem hMem
    simp only [size, Block.mk.sizeOf_spec]
    omega

/-- What is done anywhere inside a piece of code is among its effects. -/
theorem Stands.has_effects {scope names : List String} {outer inner : Site} {d : Deed}
    {name : String} (h : Stands outer names inner) (hDoes : inner.Does d name)
    (hFree : name ∉ names ++ scope) : (outer.effects scope).Has d := by
  induction h generalizing scope with
  | here site => exact has_effects_iff.2 (Or.inl ⟨name, hDoes, hFree⟩)
  | inside hHolds rest ih =>
    refine has_effects_iff.2 (Or.inr ⟨_, _, hHolds, ih hDoes ?_⟩)
    rwa [← append_assoc]

/-- The effects of a piece of code are done somewhere inside. -/
theorem exists_stands_of_has (scope : List String) {d : Deed} (outer : Site)
    (h : (outer.effects scope).Has d) :
    ∃ names inner name, Stands outer names inner ∧ inner.Does d name ∧ name ∉ names ++ scope := by
  -- By recursion on the size of the code: no single structure is shared by the four kinds of sites.
  rcases has_effects_iff.1 h with ⟨name, hDoes, hFree⟩ | ⟨names, middle, hHolds, hMiddle⟩
  · exact ⟨[], outer, name, .here outer, hDoes, hFree⟩
  · obtain ⟨more, inner, name, hStands, hDoes, hFree⟩ := exists_stands_of_has _ middle hMiddle
    refine ⟨more ++ names, inner, name, .inside hHolds hStands, hDoes, ?_⟩
    rwa [append_assoc]
termination_by outer.size
decreasing_by exact hHolds.size_lt

end Site

/-- The effects of a file are what it does with names that are free where they stand. -/
theorem Effects.has_ofChunk_iff (chunk : Chunk) (d : Deed) :
    (Effects.ofChunk chunk).Has d ↔ chunk.DoesFree d := by
  show (Site.effects [] (.block chunk.block)).Has d ↔ _
  constructor
  · intro h
    obtain ⟨scope, site, name, hStands, hDoes, hFree⟩ := Site.exists_stands_of_has [] _ h
    rw [append_nil] at hFree
    exact ⟨site, scope, name, hStands, hDoes, hFree⟩
  · rintro ⟨site, scope, name, hStands, hDoes, hFree⟩
    rw [← append_nil scope] at hFree
    exact hStands.has_effects hDoes hFree

end LuaShape
