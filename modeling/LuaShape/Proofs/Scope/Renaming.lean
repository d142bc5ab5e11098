import LuaShape.Chunk.Parser
import LuaShape.Proofs.Scope.Rewriting

/-!
# Renaming a local keeps what names mean

`Chunk.nameLocals` calls every local by its number and shows so which local each name means.
A local that gets a name which occurs nowhere does not change this (`nameLocals_renameLocal`):
the walk over the renamed code is compared with the walk over the code, construct by construct.
Both meet the same numbers, and the names that both hand down agree (`Agree`).
-/

namespace LuaShape.Rewriting

open Node (width Lack)

/-! ## Names -/

section Meaning

variable {number n : Nat} {fresh : String} {label : Nat → String} {names old new : Names}

/-- Names that are handed down where numbers start at `n`: by the walk that renames a local, by
the walk that calls locals by number, and by the latter over the renamed code.  Each name of the
code has the same meaning in both, and stays as it is unless it means the local, which then
has been declared. -/
structure Agree (number : Nat) (fresh : String) (n : Nat) (names old new : Names) : Prop where
  same : ∀ text, text ≠ fresh → new.apply (names.apply text) = old.apply text
  kept : ∀ text, text ≠ fresh → names.apply text = text ∨ names.apply text = fresh ∧ number < n

namespace Agree

theorem nil (number : Nat) (fresh : String) (n : Nat) : Agree number fresh n [] [] [] :=
  ⟨fun _ _ => rfl, fun _ _ => Or.inl rfl⟩

variable (h : Agree number fresh n names old new)
include h

theorem mono {m : Nat} (hLe : n ≤ m) : Agree number fresh m names old new where
  same := h.same
  kept text hText := (h.kept text hText).imp id fun hMeant => ⟨hMeant.1, by omega⟩

/-- One more local. -/
theorem cons (label : String) {text : String} (hText : text ≠ fresh) :
    Agree number fresh (n + 1) ((text, (oneLocal number fresh).rename n text) :: names)
      ((text, label) :: old) (((oneLocal number fresh).rename n text, label) :: new) where
  same other hOther := by
    have hSame := h.same other hOther
    -- No other name becomes that of the new local: either it stays as it is, or it means the
    -- renamed local, and this has been declared before.
    have hKept := h.kept other hOther
    simp only [Names.apply_cons, oneLocal, ofNames]
    grind
  kept other hOther := by
    have hKept := h.kept other hOther
    simp only [Names.apply_cons, oneLocal, ofNames]
    grind

/-- `self` inside a method. -/
theorem inside (isMethod : Bool) (hSelf : fresh ∉ if isMethod then ["self"] else []) :
    Agree number fresh n (if isMethod then ("self", "self") :: names else names)
      (if isMethod then ("self", "self") :: old else old)
      (if isMethod then ("self", "self") :: new else new) := by
  cases isMethod with
  | false => exact h
  | true =>
    have hSelf : fresh ≠ "self" := List.ne_of_not_mem_cons hSelf
    constructor
    · intro other hOther
      have hSame := h.same other hOther
      have hKept := h.kept other hOther
      simp only [if_true, Names.apply_cons]
      grind
    · intro other hOther
      have hKept := h.kept other hOther
      simp only [if_true, Names.apply_cons]
      grind

/-- More locals, declared one after the other. -/
theorem declare (label : Nat → String) {texts : List String} (hTexts : fresh ∉ texts) :
    Agree number fresh (n + texts.length) ((oneLocal number fresh).declare names n texts)
      ((byNumber label).declare old n texts)
      ((byNumber label).declare new n ((oneLocal number fresh).renameAll n texts)) := by
  induction texts generalizing names old new n with
  | nil => exact h
  | cons text rest ih =>
    rw [List.mem_cons, not_or] at hTexts
    rw [List.length_cons, Nat.add_comm rest.length, ← Nat.add_assoc]
    exact ih (h.cons (label n) (Ne.symm hTexts.1)) hTexts.2

end Agree

theorem renameAll_byNumber (texts : List String) (m : Nat) :
    (byNumber label).renameAll n ((oneLocal number fresh).renameAll m texts) =
      (byNumber label).renameAll n texts := by
  induction texts generalizing n m with
  | nil => rfl
  | cons text rest ih =>
    rw [renameAll, renameAll, renameAll, ih]
    rfl

/-- The names behind a statement that takes as many numbers under its new names. -/
theorem Agree.behind (h : Agree number fresh n names old new) (label : Nat → String) {s : Stmt}
    (hLack : Lack s.parts fresh)
    (hWidth : width ((oneLocal number fresh).ofStmt names n s).parts = width s.parts) :
    Agree number fresh (n + width s.parts) ((oneLocal number fresh).behind names n s)
      ((byNumber label).behind old n s)
      ((byNumber label).behind new n ((oneLocal number fresh).ofStmt names n s)) := by
  cases s with
  | localVars span texts values =>
    simp only [Stmt.parts, Node.lack_append, Node.lack_cons, Node.names, Stmt.locals] at hLack
    have hValues := h.mono (Nat.le_add_right n (width (exprParts values)))
    have hTexts := hValues.declare label hLack.2.1
    simp [ofStmt, Stmt.parts, Node.places, Stmt.locals] at hWidth
    simpa [ofStmt, Rewriting.behind, hWidth, Stmt.parts, Node.places, Stmt.locals,
      Nat.add_assoc] using hTexts
  | localFunction span text body =>
    simp only [Stmt.parts, Node.lack_append, Node.lack_cons, Node.names, Stmt.locals] at hLack
    have hText : fresh ∉ [text] := hLack.2.1
    exact (h.declare label hText).mono (by simp [Stmt.parts, Node.places, Stmt.locals])
  | repeatLoop span body condition =>
    cases body
    exact h.mono (Nat.le_add_right n _)
  | _ => exact h.mono (Nat.le_add_right n _)

/-- Calling locals by number in renamed code is doing so in the code, and both take as many
numbers. -/
abbrev Agree.Kept {α : Type} (_ : Agree number fresh n names old new) (label : Nat → String)
    (of : Rewriting → Names → Nat → α → α) (parts : α → List Node) (a : α) : Prop :=
  of (byNumber label) new n (of (oneLocal number fresh) names n a) = of (byNumber label) old n a ∧
    width (parts (of (oneLocal number fresh) names n a)) = width (parts a)

end Meaning

section Walk

variable {number : Nat} {fresh : String} (label : Nat → String)

attribute [local simp] Agree.Kept Node.names Node.places Stmt.locals FunctionBody.params
  FunctionName.names Expr.parts exprParts Field.parts fieldParts FunctionBody.parts Block.parts
  Stmt.parts stmtParts Clause.parts clauseParts stepParts otherwiseParts ofExpr ofExprs ofField
  ofFields ofBlock ofStmt ofStmts ofClause ofClauses ofStep ofOtherwise renameAll_byNumber

mutual

/-- Calling locals by number in a renamed expression is doing so in the expression. -/
theorem agree_ofExpr {n : Nat} {names old new : Names} (h : Agree number fresh n names old new)
    (e : Expr) (hLack : Lack e.parts fresh) : h.Kept label ofExpr Expr.parts e := by
  have hLater := fun m => h.mono (Nat.le_add_right n m)
  cases e with
  | name mark text => simp_all [h.same text, Ne.symm]
  | function mark body => simp_all [agree_ofFunction h body]
  | table mark fields => simp_all [agree_ofFields h fields]
  | member mark object text => simp_all [agree_ofExpr h object]
  | index mark object key => simp_all [agree_ofExpr h object, agree_ofExpr (hLater _) key]
  | call mark callee args => simp_all [agree_ofExpr h callee, agree_ofExprs (hLater _) args]
  | methodCall mark object method args =>
    simp_all [agree_ofExpr h object, agree_ofExprs (hLater _) args]
  | binary mark op left right => simp_all [agree_ofExpr h left, agree_ofExpr (hLater _) right]
  | unary mark op operand => simp_all [agree_ofExpr h operand]
  | paren mark inner => simp_all [agree_ofExpr h inner]
  | _ => exact ⟨rfl, rfl⟩

theorem agree_ofExprs {n : Nat} {names old new : Names} (h : Agree number fresh n names old new)
    (es : List Expr) (hLack : Lack (exprParts es) fresh) :
    h.Kept label ofExprs exprParts es := by
  cases es with
  | nil => exact ⟨rfl, rfl⟩
  | cons e rest =>
    simp_all [agree_ofExpr h e, agree_ofExprs (h.mono (Nat.le_add_right n _)) rest]

theorem agree_ofField {n : Nat} {names old new : Names} (h : Agree number fresh n names old new)
    (f : Field) (hLack : Lack f.parts fresh) : h.Kept label ofField Field.parts f := by
  cases f with
  | named name value => simp_all [agree_ofExpr h value]
  | keyed key value =>
    simp_all [agree_ofExpr h key, agree_ofExpr (h.mono (Nat.le_add_right n _)) value]
  | positional value => simp_all [agree_ofExpr h value]

theorem agree_ofFields {n : Nat} {names old new : Names} (h : Agree number fresh n names old new)
    (fields : List Field) (hLack : Lack (fieldParts fields) fresh) :
    h.Kept label ofFields fieldParts fields := by
  cases fields with
  | nil => exact ⟨rfl, rfl⟩
  | cons f rest =>
    simp_all [agree_ofField h f, agree_ofFields (h.mono (Nat.le_add_right n _)) rest]

theorem agree_ofFunction {n : Nat} {names old new : Names} (h : Agree number fresh n names old new)
    (body : FunctionBody) (hLack : Lack body.parts fresh) :
    h.Kept label ofFunction FunctionBody.parts body := by
  cases body with
  | mk id params isVararg body span =>
    obtain ⟨hParams, hBlock⟩ : fresh ∉ params ∧ Lack body.parts fresh := Node.lack_cons.1 hLack
    have hBody := agree_ofBlock ((h.mono (Nat.le_succ n)).declare label hParams) body hBlock
    constructor
    · show FunctionBody.mk _ _ _ _ _ = FunctionBody.mk _ _ _ _ _
      rw [renameAll_byNumber, length_renameAll, hBody.1]
    · simpa [ofFunction, ofNames] using hBody.2

theorem agree_ofBlock {n : Nat} {names old new : Names} (h : Agree number fresh n names old new)
    (body : Block) (hLack : Lack body.parts fresh) : h.Kept label ofBlock Block.parts body := by
  cases body with
  | mk statements span => simp_all [(agree_ofStmts h statements _).1]

theorem agree_ofStmts {n : Nat} {names old new : Names} (h : Agree number fresh n names old new)
    (statements : List Stmt) (hLack : Lack (stmtParts statements) fresh) :
    h.Kept label ofStmts stmtParts statements ∧
      Agree number fresh (n + width (stmtParts statements))
        ((oneLocal number fresh).behindAll names n statements)
        ((byNumber label).behindAll old n statements)
        ((byNumber label).behindAll new n
          ((oneLocal number fresh).ofStmts names n statements)) := by
  cases statements with
  | nil => exact ⟨⟨rfl, rfl⟩, h⟩
  | cons s rest =>
    obtain ⟨hFirst, hLast⟩ := Node.lack_append.1 hLack
    have hStmt := agree_ofStmt h s hFirst
    obtain ⟨hRest, hBehind⟩ := agree_ofStmts (h.behind label hFirst hStmt.2) rest hLast
    exact ⟨by simp [hStmt, hRest], by simpa [behindAll, hStmt.2, Nat.add_assoc] using hBehind⟩

/-- Calling locals by number in a renamed statement is doing so in the statement. -/
theorem agree_ofStmt {n : Nat} {names old new : Names} (h : Agree number fresh n names old new)
    (s : Stmt) (hLack : Lack s.parts fresh) : h.Kept label ofStmt Stmt.parts s := by
  have hLater := fun m => h.mono (Nat.le_add_right n m)
  cases s with
  | localVars span texts values => simp_all [agree_ofExprs h values]
  | assign span targets values =>
    simp_all [agree_ofExprs h targets, agree_ofExprs (hLater _) values]
  | call span e => simp_all [agree_ofExpr h e]
  | doBlock span body => simp_all [agree_ofBlock h body]
  | whileLoop span condition body =>
    simp_all [agree_ofExpr h condition, agree_ofBlock (hLater _) body]
  | repeatLoop span body condition =>
    obtain ⟨statements, bodySpan⟩ := body
    simp only [Stmt.parts, Block.parts, Node.lack_append] at hLack
    obtain ⟨hBody, hBehind⟩ := agree_ofStmts h statements hLack.1.1
    simp [hBody, agree_ofExpr hBehind condition hLack.2.1]
  | ifElse span clauses otherwise =>
    simp_all [agree_ofClauses h clauses, agree_ofOtherwise (hLater _) otherwise]
  | numericFor span var start limit step body =>
    obtain ⟨hStart, hLimit, hStep, hBody, hVar⟩ : _ ∧ _ ∧ _ ∧ _ ∧ fresh ∉ [var] := by
      simpa using hLack
    have hLimits := hLater (width start.parts)
    have hSteps := hLimits.mono (Nat.le_add_right _ (width limit.parts))
    have hInside := (hSteps.mono (Nat.le_add_right _ (width (stepParts step)))).declare label hVar
    have hBodies := agree_ofBlock hInside body hBody
    simp [agree_ofExpr h start hStart, agree_ofExpr hLimits limit hLimit,
      agree_ofStep hSteps step hStep]
    exact ⟨⟨rfl, hBodies.1⟩, hBodies.2⟩
  | genericFor span texts iterators body =>
    obtain ⟨hIterators, hBody, hTexts⟩ : _ ∧ _ ∧ fresh ∉ texts := by simpa using hLack
    have hInside := (hLater (width (exprParts iterators))).declare label hTexts
    simp [agree_ofExprs h iterators hIterators, agree_ofBlock hInside body hBody]
  | function span name body =>
    simp only [Stmt.parts, Node.lack_append, Node.lack_cons, Node.names,
      FunctionName.names, List.mem_cons, not_or] at hLack
    obtain ⟨hBody, ⟨hRoot, hSelf⟩, -⟩ := hLack
    simp [h.same name.root (Ne.symm hRoot),
      agree_ofFunction (h.inside name.method.isSome hSelf) body hBody]
  | localFunction span text body =>
    obtain ⟨hBody, hText⟩ : _ ∧ fresh ∉ [text] := by simpa using hLack
    have hBodies := agree_ofFunction (h.declare label hText) body hBody
    exact ⟨congrArg _ hBodies.1, by simpa using hBodies.2⟩
  | returnValues span values => simp_all [agree_ofExprs h values]
  | _ => exact ⟨rfl, rfl⟩

theorem agree_ofClause {n : Nat} {names old new : Names} (h : Agree number fresh n names old new)
    (clause : Clause) (hLack : Lack clause.parts fresh) :
    h.Kept label ofClause Clause.parts clause := by
  cases clause with
  | mk condition body =>
    simp_all [agree_ofExpr h condition, agree_ofBlock (h.mono (Nat.le_add_right n _)) body]

theorem agree_ofClauses {n : Nat} {names old new : Names} (h : Agree number fresh n names old new)
    (clauses : List Clause) (hLack : Lack (clauseParts clauses) fresh) :
    h.Kept label ofClauses clauseParts clauses := by
  cases clauses with
  | nil => exact ⟨rfl, rfl⟩
  | cons clause rest =>
    simp_all [agree_ofClause h clause, agree_ofClauses (h.mono (Nat.le_add_right n _)) rest]

theorem agree_ofOtherwise {n : Nat} {names old new : Names} (h : Agree number fresh n names old new)
    (otherwise : Option Block) (hLack : Lack (otherwiseParts otherwise) fresh) :
    h.Kept label ofOtherwise otherwiseParts otherwise := by
  cases otherwise with
  | none => exact ⟨rfl, rfl⟩
  | some body => simp [agree_ofBlock h body hLack]

theorem agree_ofStep {n : Nat} {names old new : Names} (h : Agree number fresh n names old new)
    (step : Option Expr) (hLack : Lack (stepParts step) fresh) :
    h.Kept label ofStep stepParts step := by
  cases step with
  | none => exact ⟨rfl, rfl⟩
  | some e => simp [agree_ofExpr h e hLack]

end

end Walk

end LuaShape.Rewriting

namespace LuaShape.Chunk

/-- **Renaming a local keeps what names mean.**  Give a local a name that occurs nowhere in the
file: then every name of the file still means the same local, or the same global. -/
theorem nameLocals_renameLocal {chunk : Chunk} {name : String} (h : chunk.Lacks name)
    (number : Nat) (label : Nat → String) :
    (chunk.renameLocal number name).nameLocals label = chunk.nameLocals label := by
  have hBlock := Rewriting.agree_ofBlock label (.nil number name 0) chunk.block h
  simp only [nameLocals, renameLocal, rewrite, hBlock]

/-- The value of a local is not yet in its scope. -/
example :
    ((parse "local a = a f(a)").toOption.map fun chunk =>
      (chunk.renameLocal 0 "b").parts.flatMap Node.names) = some ["a", "b", "f", "b"] := by
  decide +kernel

end LuaShape.Chunk
