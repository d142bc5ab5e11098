import LuaShape.Proofs.LoadOrder.FreeNames
import LuaShape.Proofs.Scope.Renaming

/-!
# What does not matter to the effects of loading a file

The effects of a file are what it does with names that are free where they stand, outside all
function bodies.  So they stay the same when functions get other bodies, and when locals get
names that occur nowhere.  Both are cases of rewritten code (`ofChunk_rewrite`).  The locals in
scope before and after are told apart in the induction: `Tracks` says how both are related to
the names that the walk hands down.

Main result: `effects_are_free_names`.
-/

namespace LuaShape

open List

open Rewriting (Names)

namespace Rewriting

variable {r : Rewriting} {names : Names} {scope scope' : List String} {text : String} {n : Nat}

/-- Some local gets a name that it did not have. -/
def Brings (r : Rewriting) (text : String) : Prop := ∃ n old, r.rename n old = text ∧ old ≠ text

/-- The names that locals get are no variables of the code. -/
def Fresh (r : Rewriting) (nodes : List Node) : Prop := ∀ text, r.Brings text → Node.Lack nodes text

theorem fresh_nil (r : Rewriting) : r.Fresh [] := fun _ _ => Node.lack_nil _

theorem fresh_cons {node : Node} {nodes : List Node} :
    r.Fresh (node :: nodes) ↔ (∀ text ∈ node.names, ¬ r.Brings text) ∧ r.Fresh nodes := by
  simp only [Fresh, Node.lack_cons]
  grind

theorem fresh_append {nodes nodes' : List Node} :
    r.Fresh (nodes ++ nodes') ↔ r.Fresh nodes ∧ r.Fresh nodes' := by
  simp only [Fresh, Node.lack_append]
  grind

/-- The names that are handed down are those of the locals in scope, before and after. -/
structure Tracks (r : Rewriting) (names : Names) (scope scope' : List String) : Prop where
  old : ∀ text, text ∈ scope ↔ text ∈ names.map Prod.fst
  new : ∀ text, text ∈ scope' ↔ text ∈ names.map Prod.snd
  kept : ∀ entry ∈ names, entry.2 = entry.1 ∨ r.Brings entry.2

namespace Tracks

theorem nil (r : Rewriting) : Tracks r [] [] [] := ⟨by simp, by simp, by simp⟩

variable (h : Tracks r names scope scope')
include h

/-- One more local. -/
theorem cons (n : Nat) (text : String) :
    Tracks r ((text, r.rename n text) :: names) (text :: scope) (r.rename n text :: scope') where
  old other := by simp [h.old]
  new other := by simp [h.new]
  kept entry hEntry := by
    rcases mem_cons.1 hEntry with rfl | hEntry
    · by_cases hSame : r.rename n text = text
      · exact Or.inl hSame
      · exact Or.inr ⟨n, text, rfl, Ne.symm hSame⟩
    · exact h.kept entry hEntry

/-- The order of the locals in scope does not matter. -/
theorem congr {other other' : List String} (hOld : ∀ text, text ∈ other ↔ text ∈ scope)
    (hNew : ∀ text, text ∈ other' ↔ text ∈ scope') : Tracks r names other other' where
  old text := (hOld text).trans (h.old text)
  new text := (hNew text).trans (h.new text)
  kept := h.kept

/-- More locals, declared one after the other. -/
theorem declare (n : Nat) (texts : List String) :
    Tracks r (r.declare names n texts) (texts ++ scope) (r.renameAll n texts ++ scope') := by
  induction texts generalizing names scope scope' n with
  | nil => exact h
  | cons text rest ih =>
    refine (ih (h.cons n text) (n + 1)).congr ?_ ?_
    · intro other
      simp [or_left_comm]
    · intro other
      simp [renameAll, or_left_comm]

/-- A name of a local becomes the name of a local. -/
theorem apply_mem (hText : text ∈ scope) : names.apply text ∈ scope' := by
  obtain ⟨entry, hEntry, rfl⟩ := mem_map.1 ((h.old text).1 hText)
  rw [h.new, Names.apply]
  cases hFound : names.lookup entry.1 with
  | none => simpa using lookup_eq_none_iff.1 hFound entry hEntry
  | some new =>
    obtain ⟨before, behind, rfl, -⟩ := lookup_eq_some_iff.1 hFound
    simp

/-- A global keeps its name. -/
theorem apply_eq_self (hText : text ∉ scope) : names.apply text = text := by
  have hFound : names.lookup text = none := by
    refine lookup_eq_none_iff.2 fun entry hEntry => bne_iff_ne.2 ?_
    rintro rfl
    exact hText ((h.old _).2 (mem_map_of_mem hEntry))
  rw [Names.apply, hFound, Option.getD_none]

/-- A global does not become the name of a local. -/
theorem not_mem_of_not_brings (hText : text ∉ scope) (hFresh : ¬ r.Brings text) :
    text ∉ scope' := by
  rw [h.new]
  intro hNew
  obtain ⟨entry, hEntry, rfl⟩ := mem_map.1 hNew
  rcases h.kept entry hEntry with hKept | hBrings
  · rw [hKept, h.old] at hText
    exact hText (mem_map_of_mem hEntry)
  · exact hFresh hBrings

/-- Reading a name. -/
theorem read (hFresh : ¬ r.Brings text) :
    Effects.read scope' (names.apply text) = Effects.read scope text := by
  by_cases hLocal : text ∈ scope
  · rw [Effects.read, Effects.read, if_pos (h.apply_mem hLocal), if_pos hLocal]
  · rw [h.apply_eq_self hLocal, Effects.read, Effects.read,
      if_neg (h.not_mem_of_not_brings hLocal hFresh), if_neg hLocal]

/-- Assigning a name. -/
theorem write (hFresh : ¬ r.Brings text) :
    Effects.write scope' (names.apply text) = Effects.write scope text := by
  by_cases hLocal : text ∈ scope
  · rw [Effects.write, Effects.write, if_pos (h.apply_mem hLocal), if_pos hLocal]
  · rw [h.apply_eq_self hLocal, Effects.write, Effects.write,
      if_neg (h.not_mem_of_not_brings hLocal hFresh), if_neg hLocal]

/-- Meaning a certain global. -/
theorem apply_eq_free_iff (hFresh : ¬ r.Brings text) (name : String) :
    names.apply text = name ∧ name ∉ scope' ↔ text = name ∧ name ∉ scope := by
  -- A local may get the global's name only where it had it before, so neither side holds then.
  by_cases hLocal : text ∈ scope
  · have hNew := h.apply_mem hLocal
    grind
  · have hNew := h.not_mem_of_not_brings hLocal hFresh
    rw [h.apply_eq_self hLocal]
    grind

end Tracks

/-! ## Expressions -/

theorem nameValue?_ofExpr (names : Names) (n : Nat) (e : Expr) :
    (r.ofExpr names n e).nameValue? = e.nameValue?.map names.apply := by
  cases e <;> simp [ofExpr, Expr.nameValue?]

theorem stringValue?_unparen_ofExpr (names : Names) (n : Nat) :
    ∀ e : Expr, (r.ofExpr names n e).unparen.stringValue? = e.unparen.stringValue?
  | .paren _ inner => stringValue?_unparen_ofExpr names n inner
  | .nil _ | .boolean _ _ | .number _ _ | .string _ _ | .vararg _ | .function _ _ | .table _ _
  | .name _ _ | .member _ _ _ | .index _ _ _ | .call _ _ _ | .methodCall _ _ _ _
  | .binary _ _ _ _ | .unary _ _ _ => by simp [ofExpr, Expr.unparen, Expr.stringValue?]

/-- The first argument of a call, if it is a string. -/
theorem literal_ofExprs (names : Names) (n : Nat) (args : List Expr) :
    ((r.ofExprs names n args).head?.bind fun arg => arg.unparen.stringValue?) =
      args.head?.bind fun arg => arg.unparen.stringValue? := by
  cases args with
  | nil => rfl
  | cons arg rest => exact stringValue?_unparen_ofExpr names n arg

/-- What a call requires. -/
theorem Tracks.required? (h : Tracks r names scope scope') (n n' : Nat) {callee : Expr}
    (hFresh : r.Fresh callee.parts) (args : List Expr) :
    Effects.required? scope' (r.ofExpr names n callee) (r.ofExprs names n' args) =
      Effects.required? scope callee args := by
  have hCallee : (r.ofExpr names n callee).nameValue? = some "require" ∧ "require" ∉ scope' ↔
      callee.nameValue? = some "require" ∧ "require" ∉ scope := by
    rw [nameValue?_ofExpr]
    cases callee with
    | name mark text =>
      have hText : ¬ r.Brings text := by
        simpa [Expr.parts, fresh_cons, fresh_nil, Node.names] using hFresh
      simpa [Expr.nameValue?] using h.apply_eq_free_iff hText "require"
    | _ => simp [Expr.nameValue?]
  rw [Effects.required?, Effects.required?, literal_ofExprs]
  simp only [hCallee]

section Syntax

attribute [local simp] fresh_append fresh_cons Node.names FunctionName.names Expr.parts exprParts
  Field.parts fieldParts Stmt.parts stmtParts stepParts otherwiseParts
  Block.parts Clause.parts clauseParts ofExpr ofExprs ofField ofFields ofStmt ofStmts ofClause
  ofClauses ofStep ofOtherwise declare Effects.ofExpr Effects.ofExprs Effects.ofFields
  Effects.ofStmt Effects.ofStmts Effects.ofClauses Effects.ofFunctionName
  Effects.ofStmt_snd Effects.ofStmts_snd

mutual

/-- Rewritten expressions have the effects of the expressions. -/
theorem effects_ofExpr (h : Tracks r names scope scope') (n : Nat) (e : Expr)
    (hFresh : r.Fresh e.parts) :
    Effects.ofExpr scope' (r.ofExpr names n e) = Effects.ofExpr scope e := by
  cases e with
  | name mark text => simp_all [h.read]
  | call mark callee args =>
    simp_all [h.required?, effects_ofExpr h _ callee, effects_ofExprs h _ args]
  | table mark fields => simp_all [effects_ofFields h _ fields]
  | member mark object text => simp_all [effects_ofExpr h _ object]
  | index mark object key => simp_all [effects_ofExpr h _ object, effects_ofExpr h _ key]
  | methodCall mark object method args =>
    simp_all [effects_ofExpr h _ object, effects_ofExprs h _ args]
  | binary mark op left right => simp_all [effects_ofExpr h _ left, effects_ofExpr h _ right]
  | unary mark op operand => simp_all [effects_ofExpr h _ operand]
  | paren mark inner => simp_all [effects_ofExpr h _ inner]
  | _ => simp

theorem effects_ofExprs (h : Tracks r names scope scope') (n : Nat) (es : List Expr)
    (hFresh : r.Fresh (exprParts es)) :
    Effects.ofExprs scope' (r.ofExprs names n es) = Effects.ofExprs scope es := by
  cases es with
  | nil => rfl
  | cons e rest => simp_all [effects_ofExpr h _ e, effects_ofExprs h _ rest]

theorem effects_ofFields (h : Tracks r names scope scope') (n : Nat) (fields : List Field)
    (hFresh : r.Fresh (fieldParts fields)) :
    Effects.ofFields scope' (r.ofFields names n fields) = Effects.ofFields scope fields := by
  cases fields with
  | nil => rfl
  | cons field rest =>
    cases field with
    | named name value => simp_all [effects_ofExpr h _ value, effects_ofFields h _ rest]
    | keyed key value =>
      simp_all [effects_ofExpr h _ key, effects_ofExpr h _ value, effects_ofFields h _ rest]
    | positional value => simp_all [effects_ofExpr h _ value, effects_ofFields h _ rest]

end

/-- A rewritten place is assigned to as the place is. -/
theorem effects_ofTarget (h : Tracks r names scope scope') (n : Nat) (e : Expr)
    (hFresh : r.Fresh e.parts) :
    Effects.ofTarget scope' (r.ofExpr names n e) = Effects.ofTarget scope e := by
  cases e with
  | name mark text => simp_all [Effects.ofTarget, h.write]
  | _ => exact effects_ofExpr h n _ hFresh

theorem effects_ofTargets (h : Tracks r names scope scope') (n : Nat) (targets : List Expr)
    (hFresh : r.Fresh (exprParts targets)) :
    Effects.ofTargets scope' (r.ofExprs names n targets) = Effects.ofTargets scope targets := by
  induction targets generalizing n with
  | nil => rfl
  | cons e rest ih => simp_all [Effects.ofTargets, effects_ofTarget h _ e]

/-! ## Statements -/

/-- The locals behind a statement. -/
theorem Tracks.behind (h : Tracks r names scope scope') (n : Nat) (s : Stmt) :
    Tracks r (r.behind names n s) (Effects.declared s ++ scope)
      (Effects.declared (r.ofStmt names n s) ++ scope') := by
  cases s with
  | localVars span texts values => exact h.declare _ texts
  | localFunction span text body => exact h.cons n text
  | repeatLoop span body condition =>
    cases body
    exact h
  | _ => exact h

/-- The locals behind statements. -/
theorem Tracks.behindAll (h : Tracks r names scope scope') (n : Nat) (statements : List Stmt) :
    Tracks r (r.behindAll names n statements) (Effects.declaredAll statements ++ scope)
      (Effects.declaredAll (r.ofStmts names n statements) ++ scope') := by
  induction statements generalizing names scope scope' n with
  | nil => exact h
  | cons s rest ih =>
    rw [ofStmts, Effects.declaredAll, Effects.declaredAll, append_assoc, append_assoc]
    exact ih (h.behind n s) _

mutual

theorem effects_ofStmts {names : Names} {scope scope' : List String}
    (h : Tracks r names scope scope') (n : Nat) (statements : List Stmt)
    (hFresh : r.Fresh (stmtParts statements)) :
    (Effects.ofStmts scope' (r.ofStmts names n statements)).1 =
      (Effects.ofStmts scope statements).1 := by
  cases statements with
  | nil => rfl
  | cons s rest => simp_all [effects_ofStmt h n s, effects_ofStmts (h.behind n s) _ rest]

/-- Rewritten statements have the effects of the statements. -/
theorem effects_ofStmt {names : Names} {scope scope' : List String}
    (h : Tracks r names scope scope') (n : Nat) (s : Stmt) (hFresh : r.Fresh s.parts) :
    (Effects.ofStmt scope' (r.ofStmt names n s)).1 = (Effects.ofStmt scope s).1 := by
  cases s with
  | localVars span texts values => simp_all [effects_ofExprs h _ values]
  | assign span targets values =>
    simp_all [effects_ofTargets h _ targets, effects_ofExprs h _ values]
  | call span e => simp_all [effects_ofExpr h _ e]
  | doBlock span body => simp_all [effects_ofBlock h _ body]
  | whileLoop span condition body =>
    simp_all [effects_ofExpr h _ condition, effects_ofBlock h _ body]
  | repeatLoop span body condition =>
    obtain ⟨statements, bodySpan⟩ := body
    simp_all [effects_ofStmts h _ statements,
      effects_ofExpr (h.behindAll n statements) _ condition]
  | ifElse span clauses otherwise =>
    cases otherwise with
    | none => simp_all [effects_ofClauses h _ clauses]
    | some body => simp_all [effects_ofClauses h _ clauses, effects_ofBlock h _ body]
  | numericFor span var start limit step body =>
    cases step with
    | none =>
      simp_all [effects_ofExpr h _ start, effects_ofExpr h _ limit,
        effects_ofBlock (h.cons _ var) _ body]
    | some e =>
      simp_all [effects_ofExpr h _ start, effects_ofExpr h _ limit, effects_ofExpr h _ e,
        effects_ofBlock (h.cons _ var) _ body]
  | genericFor span texts iterators body =>
    simp_all [effects_ofExprs h _ iterators, effects_ofBlock (h.declare _ texts) _ body]
  | function span name body => simp_all [h.write, h.read]
  | returnValues span values => simp_all [effects_ofExprs h _ values]
  | _ => rfl

theorem effects_ofBlock {names : Names} {scope scope' : List String}
    (h : Tracks r names scope scope') (n : Nat) (body : Block) (hFresh : r.Fresh body.parts) :
    Effects.ofBlock scope' (r.ofBlock names n body) = Effects.ofBlock scope body := by
  cases body with
  | mk statements span => exact effects_ofStmts h n statements (fresh_append.1 hFresh).1

theorem effects_ofClauses {names : Names} {scope scope' : List String}
    (h : Tracks r names scope scope') (n : Nat) (clauses : List Clause)
    (hFresh : r.Fresh (clauseParts clauses)) :
    Effects.ofClauses scope' (r.ofClauses names n clauses) = Effects.ofClauses scope clauses := by
  cases clauses with
  | nil => rfl
  | cons clause rest =>
    obtain ⟨condition, body⟩ := clause
    simp_all [effects_ofExpr h _ condition, effects_ofBlock h _ body, effects_ofClauses h _ rest]

end

end Syntax

/-! ## Files -/

theorem fresh_ofBodies (body : Nat → FunctionBody → FunctionBody) (nodes : List Node) :
    (ofBodies body).Fresh nodes := by
  rintro text ⟨n, old, hSame, hNe⟩
  exact absurd hSame hNe

theorem fresh_oneLocal {name : String} {nodes : List Node} (h : Node.Lack nodes name)
    (number : Nat) : (oneLocal number name).Fresh nodes := by
  rintro text ⟨n, old, hRename, hNe⟩
  simp only [ofNames] at hRename
  split at hRename
  · rwa [← hRename]
  · exact absurd hRename hNe

end Rewriting

/-- The effects of a file are those of the rewritten file, if locals get names only that are no
variables of the file. -/
theorem Effects.ofChunk_rewrite {chunk : Chunk} {r : Rewriting} (h : r.Fresh chunk.parts) :
    ofChunk (chunk.rewrite r) = ofChunk chunk :=
  Rewriting.effects_ofBlock (.nil r) 0 chunk.block h

/-- **The effects of loading a file are its free names.**  What a file reads, assigns and
requires while it loads is what it does outside all function bodies through names that no local
in scope there has.  So the effects do not depend on what is in the bodies of functions, and
not on what locals are called: they stay the same when a local gets a name that occurs nowhere,
which changes no name's meaning. -/
theorem effects_are_free_names (chunk : Chunk) :
    let effects := Effects.ofChunk chunk
    (∀ name, name ∈ effects.reads ↔ chunk.DoesFree (.read name)) ∧
      (∀ name, name ∈ effects.writes ↔ chunk.DoesFree (.write name)) ∧
      (∀ module, module ∈ effects.requires ↔ chunk.DoesFree (.require module)) ∧
      (∀ body, Effects.ofChunk (chunk.replaceBodies body) = effects) ∧
      ∀ number name, chunk.Lacks name →
        (∀ label, (chunk.renameLocal number name).nameLocals label = chunk.nameLocals label) ∧
          Effects.ofChunk (chunk.renameLocal number name) = effects := by
  intro effects
  have hFree := Effects.has_ofChunk_iff chunk
  refine ⟨fun name => hFree (.read name), fun name => hFree (.write name),
    fun module => hFree (.require module), ?_, ?_⟩
  · intro body
    exact Effects.ofChunk_rewrite (Rewriting.fresh_ofBodies body chunk.parts)
  · intro number name hLacks
    exact ⟨Chunk.nameLocals_renameLocal hLacks number,
      Effects.ofChunk_rewrite (Rewriting.fresh_oneLocal hLacks number)⟩

/-- In `local a = a f(a)` the value of the local is the global of its name; the argument is the
local, which may be called otherwise. -/
theorem effects_of_renamed_shadow :
    let span : Span := ⟨0, 0⟩
    let name := fun id text => Expr.name ⟨id, span⟩ text
    let chunk : Chunk := ⟨.mk [.localVars span ["a"] [name 0 "a"],
      .call span (.call ⟨3, span⟩ (name 1 "f") [name 2 "a"])] span, span, 4⟩
    chunk.Lacks "b" ∧ (Effects.ofChunk chunk).reads.toList = ["a", "f"] ∧
      Effects.ofChunk (chunk.renameLocal 0 "b") = Effects.ofChunk chunk := by
  intro span name chunk
  have hLacks : chunk.Lacks "b" := by decide
  refine ⟨hLacks, by decide, ?_⟩
  exact ((effects_are_free_names chunk).2.2.2.2 0 "b" hLacks).2

end LuaShape
