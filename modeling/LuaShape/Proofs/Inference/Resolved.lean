import LuaShape.Proofs.Chunk.Consumed
import LuaShape.Proofs.Inference.Following
import LuaShape.Proofs.Inference.Trace
import LuaShape.Proofs.Scope.Account

/-!
# Names mean what the rules of scope say

Reading follows the walk by the rules of scope over the whole syntax
(`follows_readBlock`).  In front of the induction stands what the term of an expression can
be: it is a global only if the expression is a name without binding, and a require only if
the expression is a call that requires a module by a literal name.

For a chunk as a whole, the bindings that come to be are those that the rules of scope
declare, and the references are the names of the chunk, each to the innermost binding in
scope.
-/

namespace LuaShape

open List

namespace Agrees

variable {start : Inference} {c : Setting} {r : Reading} {account : Lexical.Account}

/-- Reading and the rules of scope agree on which calls require a module. -/
theorem requireArgument?_eq (h : Agrees start c r account) (callee : Expr) (args : List Expr) :
    Read.requireArgument? r.scope callee args = c.place.requiredName? callee args := by
  have hGlobal := h.ident_eq_global_iff "require" "require"
  rw [ScopeTree.ident] at hGlobal
  rw [Read.requireArgument?, Lexical.Place.requiredName?, ScopeTree.isBound]
  cases hLookup : r.scope.lookup? "require" <;> simp_all

end Agrees

theorem Act.grows (r : Reading) (d : Act) : r.inference.Grows (d.run r).inference := by
  cases d with
  | tell report => exact r.inference.grows_tell report
  | construct =>
    exact (r.inference.grows_tell (.table "table")).trans
      (Inference.grows_tell _ (.term (.literal (.table ⟨r.inference.registry.size⟩))))
  | further slot first => exact r.inference.grows_tell (.term _)
  | bind kind name => exact r.inference.grows_tell (.binding kind name)
  | _ => exact .refl _

namespace Read

theorem Reads.grows {slot : Nat} {hand : List Item} {nodes : List Nat} {α : Type} {x : Read α}
    {left : α → List Item} (h : Reads slot hand nodes x left) (r : Reading) :
    r.inference.Grows (x.run r).2.inference := by
  obtain ⟨acts, hRun, -⟩ := h r
  rw [hRun]
  clear hRun
  induction acts generalizing r with
  | nil => exact .refl _
  | cons d acts ih => exact (d.grows r).trans (ih (d.run r))

/-! ## What the term of an expression can be -/

/-- A term is what an expression is turned into in a scope, parentheses aside. -/
def Renders (scope : ScopeTree) : Expr → Term → Prop
  | .nil _, t => t = .literal .nil
  | .boolean _ value, t => t = .literal (.boolean value)
  | .number _ text, t => t = .literal (.number text)
  | .string _ value, t => t = .literal (.string value)
  | .vararg _, t => t = .vararg
  | .function _ _, t => ∃ id, t = .literal (.function id)
  | .table _ _, t => ∃ id, t = .literal (.table id)
  | .name _ text, t => t = .reference (scope.ident text)
  | .member _ _ text, t => ∃ base, t = .member base text
  | .index _ _ _, t => ∃ base key, t = .index base key
  | .call _ callee args, t =>
    (∃ argument target, requireArgument? scope callee args = some argument ∧
      t = .require argument target 0) ∨ ∃ operands, t = .operation (.call 0) operands
  | .methodCall _ _ _ _, t => ∃ operands, t = .operation (.call 0) operands
  | .binary _ op _ _, t => ∃ operands, t = .operation (.binary op) operands
  | .unary _ op _, t => ∃ operands, t = .operation (.unary op) operands
  | .paren _ inner, t => Renders scope inner t

/-- A term is that of an expression at a place, as far as names and requires are concerned. -/
structure Describes (place : Lexical.Place) (e : Expr) (t : Term) : Prop where
  global_iff : ∀ name, t.ident? = some (.global name) ↔
    e.unparen.nameValue? = some name ∧ place.meaning? name = none
  require : ∀ argument target slot, t = .require argument target slot →
    place.requiredBy? e = some argument

/-- A step gives a known term with a property. -/
def Gives (P : Term → Prop) (x : Read TermId) (r : Reading) : Prop :=
  (x.run r).1.index < (x.run r).2.inference.terms.size ∧
    P ((x.run r).2.inference.term (x.run r).1)

theorem Gives.bind {P : Term → Prop} {α : Type} {x : Read α} {f : α → Read TermId} {r : Reading}
    (h : ∀ a r', Gives P (f a) r') : Gives P (x >>= f) r :=
  h (x.run r).1 (x.run r).2

theorem Gives.imp {P Q : Term → Prop} {x : Read TermId} {r : Reading} (h : Gives P x r)
    (hImp : ∀ t, P t → Q t) : Gives Q x r :=
  ⟨h.1, hImp _ h.2⟩

theorem gives_make {P : Term → Prop} (mark : Mark) {t : Term} (h : P t) (r : Reading) :
    Gives P (make mark t) r := by
  refine ⟨alloc_lt r t, ?_⟩
  show P (((alloc t).run r).2.inference.term ((alloc t).run r).1)
  rw [term_alloc]
  exact h

/-- A new term is noted after steps that make other terms. -/
theorem gives_allocNote {P : Term → Prop} {t : Term} (h : P t) {α : Type} {y : TermId → Read α}
    {r : Reading}
    (hy : ((alloc t).run r).2.inference.Grows
      ((y ((alloc t).run r).1).run ((alloc t).run r).2).2.inference) (node : Nat) :
    Gives P (do
      let id ← alloc t
      let _ ← y id
      note node 0 id) r := by
  refine ⟨Nat.lt_of_lt_of_le (alloc_lt r t) hy.terms_le, ?_⟩
  show P (((y ((alloc t).run r).1).run ((alloc t).run r).2).2.inference.term ((alloc t).run r).1)
  rw [hy.term_eq (alloc_lt r t), term_alloc]
  exact h

theorem gives_makeCall {P : Term → Prop} (mark : Mark) (callee : TermId) (args : List TermId)
    (h : P (.operation (.call 0) (callee :: args))) (r : Reading) :
    Gives P (makeCall mark callee args) r :=
  .bind fun _ r' => gives_allocNote (r := r') h (y := fun id => learn fun s => s.addCall id)
    (Inference.calm_addCall _ _).grows mark.id

theorem renders_readExpr : (e : Expr) → (hint : Option String) → (r : Reading) →
    Gives (Renders r.scope e) (readExpr hint e) r
  | .nil mark, _, r | .boolean mark _, _, r | .number mark _, _, r | .string mark _, _, r
  | .vararg mark, _, r | .name mark _, _, r => gives_make mark (by exact rfl) r
  | .function mark _, _, _ => .bind fun id r' => gives_make mark ⟨id, rfl⟩ r'
  | .table mark fields, _, _ => .bind fun id r' => gives_allocNote (r := r') ⟨id, rfl⟩
      (y := fun _ => readFields id 1 fields)
      ((@reads_readFields 0 [.table id] _ fields mem_cons_self 1).grows _) mark.id
  | .member mark _ _, _, _ => .bind fun base _ => .bind fun _ r' => gives_make mark ⟨base, rfl⟩ r'
  | .index mark _ _, _, _ =>
    .bind fun base _ => .bind fun _ _ => .bind fun key r' => gives_make mark ⟨base, key, rfl⟩ r'
  | .call mark callee args, _, r => by
      rw [Gives, readExpr, run_get_bind]
      cases hFound : requireArgument? r.scope callee args with
      | some argument =>
        exact Gives.bind fun target r' =>
          gives_make mark (.inl ⟨argument, target, hFound, rfl⟩) r'
      | none =>
        exact Gives.bind fun _ _ => .bind fun _ r' =>
          gives_makeCall mark _ _ (.inr ⟨_, rfl⟩) r'
  | .methodCall mark _ _ _, _, _ => .bind fun _ _ => .bind fun _ _ => .bind fun _ _ =>
      .bind fun _ r' => gives_makeCall mark _ _ ⟨_, rfl⟩ r'
  | .binary mark _ _ _, _, _ => .bind fun _ _ => .bind fun _ _ => .bind fun _ _ =>
      .bind fun _ r' => gives_make mark ⟨_, rfl⟩ r'
  | .unary mark _ _, _, _ => .bind fun _ _ => .bind fun _ r' => gives_make mark ⟨_, rfl⟩ r'
  | .paren _ inner, hint, r => renders_readExpr inner hint r

/-- A term that is neither a name nor a require describes every expression that is neither. -/
theorem Describes.of_other {place : Lexical.Place} {e : Expr} {t : Term}
    (hName : e.unparen.nameValue? = none) (hIdent : t.ident? = none)
    (hRequire : ∀ argument target slot, t ≠ .require argument target slot) :
    Describes place e t where
  global_iff := by simp [hName, hIdent]
  require := fun argument target slot hTerm => absurd hTerm (hRequire argument target slot)

/-- What a walk has found about the last of several values. -/
theorem mem_required_ofExpr {place : Lexical.Place} {argument : String} :
    (e : Expr) → place.requiredBy? e = some argument → (account : Lexical.Account) →
      (e.mark.id, argument, place.inFunction) ∈
        ((Lexical.ofExpr place e).run account).2.required
  | .call mark callee args, h, account => by
      have hName : place.requiredName? callee args = some argument := h
      rw [Lexical.ofExpr, hName]
      exact mem_append_right _ (mem_singleton.2 rfl)
  | .paren mark inner, h, account => by
      have hInner : place.requiredBy? inner = some argument := h
      rw [Lexical.ofExpr, hInner]
      exact mem_append_right _ (mem_singleton.2 rfl)

/-! ## Assignment targets -/

section Targets

variable {start : Inference} {c : Setting} {r : Reading} {account : Lexical.Account}

/-- An assignment to the term of an expression. -/
theorem followsFrom_assignTo (h : Agrees start c r account) {target : Expr} {id : TermId}
    (hKnown : id.index < r.inference.terms.size)
    (hTarget : Describes c.place target (r.inference.term id)) (value : Option TermId) :
    FollowsFrom start r account (do
      useTarget id
      assign id (← valueOrNil value)) (Lexical.assignTo c.place target) fun _ => c := by
  have hUse := (still_useTarget id r).followsFrom h ()
  have hValue := (still_valueOrNil value ((useTarget id).run r).2).followsFrom hUse.agrees ()
  have hGrows := hUse.grows.trans hValue.grows
  have hTerm := hGrows.term_eq hKnown
  refine hUse.lead (hValue.lead ?_)
  rw [Lexical.assignTo]
  cases hName : target.unparen.nameValue? with
  | some name =>
    refine followsFrom_assign hValue.agrees (fun other => ?_) _
    rw [hTerm, hTarget.global_iff other, hName, Option.some_inj]
    constructor
    · rintro ⟨rfl, hFree⟩
      exact ⟨rfl, hFree⟩
    · rintro ⟨rfl, hFree⟩
      exact ⟨rfl, hFree⟩
  | none =>
    refine (stillFrom_assign (fun other hOther => ?_) _).followsFrom hValue.agrees ()
    rw [hTerm, hTarget.global_iff other, hName] at hOther
    cases hOther.1

end Targets

theorem length_readExprs (hints : List (Option String)) (values : List Expr) (r : Reading) :
    ((readExprs hints values).run r).1.length = values.length := by
  induction values generalizing hints r with
  | nil => rfl
  | cons value values ih =>
    rw [readExprs, run_bind]
    exact congrArg Nat.succ (ih hints.tail _)

/-! ## The syntax -/

section Syntax

variable {start : Inference}

/-- A block in a scope of its own. -/
theorem follows_nested {c : Setting} {x : Read Unit} {w : Lexical.Walk Lexical.Bindings}
    {δ : Type} {b : δ} {after : δ → Setting}
    (hx : Follows start (c.inside false) x w (c.inside false).under) (hAfter : c = after b) :
    Follows start c (do
      enterBlock
      x
      leaveScope) (do
      let _ ← w
      pure b) after :=
  .lead follows_enterBlock fun _ => hx.bind fun _ _ => (follows_leaveScope rfl rfl b).ending hAfter

section Describing

variable {c : Setting} {r : Reading} {account : Lexical.Account}

theorem describes_of_renders (h : Agrees start c r account) : (e : Expr) → (t : Term) →
    Renders r.scope e t → Describes c.place e t
  | .nil _, _, rfl | .boolean _ _, _, rfl | .number _ _, _, rfl | .string _ _, _, rfl
  | .vararg _, _, rfl | .function _ _, _, ⟨_, rfl⟩ | .table _ _, _, ⟨_, rfl⟩
  | .member _ _ _, _, ⟨_, rfl⟩ | .index _ _ _, _, ⟨_, _, rfl⟩ | .call _ _ _, _, .inr ⟨_, rfl⟩
  | .methodCall _ _ _ _, _, ⟨_, rfl⟩ | .binary _ _ _ _, _, ⟨_, rfl⟩
  | .unary _ _ _, _, ⟨_, rfl⟩ => .of_other rfl rfl fun _ _ _ => Term.noConfusion
  | .name _ text, _, rfl => by
      refine ⟨fun other => ?_, fun _ _ _ hTerm => by cases hTerm⟩
      have hGlobal := h.ident_eq_global_iff text other
      show some (r.scope.ident text) = some (.global other) ↔ some text = some other ∧ _
      rw [Option.some_inj, hGlobal, Option.some_inj]
      constructor
      · rintro ⟨rfl, hFree⟩
        exact ⟨rfl, hFree⟩
      · rintro ⟨rfl, hFree⟩
        exact ⟨rfl, hFree⟩
  | .call _ callee args, _, .inl ⟨argument, target, hFound, rfl⟩ => by
      refine ⟨fun name => by simp [Term.ident?, Expr.unparen, Expr.nameValue?], ?_⟩
      intro argument' target' slot hTerm
      cases hTerm
      exact (h.requireArgument?_eq callee args).symm.trans hFound
  | .paren _ inner, t, hTerm => by
      obtain ⟨hGlobal, hRequire⟩ := describes_of_renders h inner t hTerm
      exact ⟨hGlobal, hRequire⟩

/-- What the term of an expression can be, by the form of the expression. -/
theorem describes_readExpr (h : Agrees start c r account) (e : Expr) (hint : Option String) :
    Gives (Describes c.place e) (readExpr hint e) r :=
  (renders_readExpr e hint r).imp (describes_of_renders h e)

end Describing

mutual

theorem follows_readExpr {c : Setting} :
    (e : Expr) → (hint : Option String) →
      Follows start c (readExpr hint e)
        (Lexical.ofExpr c.place e) fun _ => c
  | .nil mark, _ | .boolean mark _, _ | .number mark _, _ | .string mark _, _
  | .vararg mark, _ => follows_make mark rfl (fun _ _ _ => Term.noConfusion) ()
  | .function mark body, hint =>
    (follows_readFunction body hint false none).trail fun _ b =>
      follows_make mark rfl (fun _ _ _ => Term.noConfusion) b
  | .table mark fields, _ => by
      have hTable : Still (learnGet fun s => s.newTable "table") :=
        .learnGet (.table "table") trivial fun _ => rfl
      refine .lead (hTable.follows ()) fun r => ?_
      exact follows_allocNote rfl (fun _ _ _ => Term.noConfusion)
        (fun _ => follows_readFields fields _ 1) mark.id
  | .name mark text, _ => follows_makeName mark text
  | .member mark object _, _ =>
    (follows_readExpr object none).trail fun _ b => .lead ((still_use _ _).follows ()) fun _ =>
      follows_make mark rfl (fun _ _ _ => Term.noConfusion) b
  | .index mark object key, _ =>
    (follows_readExpr object none).bind fun _ _ => .lead ((still_use _ _).follows ()) fun _ =>
      (follows_readExpr key none).trail fun _ b =>
        follows_make mark rfl (fun _ _ _ => Term.noConfusion) b
  | .call mark callee args, hint => by
      refine .get_bind fun r account h => ?_
      have hArgument := h.requireArgument?_eq callee args
      rw [Lexical.ofExpr, ← hArgument]
      cases requireArgument? r.scope callee args with
      | some argument => exact follows_makeRequire mark argument r account h
      | none =>
        refine Follows.bind (follows_readExpr callee none) (fun _ _ => ?_) r account h
        refine Follows.trail (fun r account h => (follows_readExprs args [] r account h).1) ?_
        exact fun _ b => follows_makeCall mark _ _ b
  | .methodCall mark object _ args, _ =>
    (follows_readExpr object none).bind fun _ _ => .lead ((still_use _ _).follows ()) fun _ =>
      .lead ((still_alloc rfl).follows ()) fun _ =>
        .trail (fun r account h => (follows_readExprs args [] r account h).1) fun _ b =>
          follows_makeCall mark _ _ b
  | .binary mark _ left right, _ =>
    (follows_readExpr left none).bind fun _ _ => (follows_readExpr right none).trail fun _ b =>
      .lead ((still_useAs _ _).follows ()) fun _ => .lead ((still_useAs _ _).follows ()) fun _ =>
        follows_make mark rfl (fun _ _ _ => Term.noConfusion) b
  | .unary mark _ operand, _ =>
    (follows_readExpr operand none).trail fun _ b => .lead ((still_useAs _ _).follows ())
      fun _ => follows_make mark rfl (fun _ _ _ => Term.noConfusion) b
  | .paren mark inner, hint => by
      intro r account h
      obtain ⟨hKnown, hInner⟩ := describes_readExpr h inner hint
      have hRead := follows_readExpr inner hint r account h
      exact hRead.bind (followsFrom_noteRequire hRead.agrees mark.id hKnown hInner.require)

/-- Beside the agreement, what the last of the values is. -/
theorem follows_readExprs {c : Setting} :
    (es : List Expr) → (hints : List (Option String)) → (r : Reading) →
      (account : Lexical.Account) → Agrees start c r account →
      FollowsFrom start r account (readExprs hints es)
        (Lexical.ofExprs c.place es)
        (fun _ => c) ∧
      LastKnown es ((readExprs hints es).run r).1 ((readExprs hints es).run r).2.inference
        ((Lexical.ofExprs c.place es).run account).2
  | [], _, r, _, h => ⟨⟨h, .refl r.inference⟩, fun _ _ hLast => by cases hLast⟩
  | e :: es, hints, r, account, h => by
      have hFirst := follows_readExpr e (hints.head?.getD none) r account h
      obtain ⟨hRest, hLast⟩ := follows_readExprs es hints.tail _ _ hFirst.agrees
      refine ⟨⟨hRest.agrees, hFirst.grows.trans hRest.grows⟩, ?_⟩
      cases es with
      | nil =>
        intro last first hValue hId
        cases hValue
        cases hId
        obtain ⟨hKnown, hDescribes⟩ := describes_readExpr h e (hints.head?.getD none)
        refine ⟨hKnown, fun argument target slot hTerm => ?_⟩
        exact ⟨_, mem_required_ofExpr e (hDescribes.require argument target slot hTerm) account⟩
      | cons e' es =>
        intro last first hValue hId
        rw [getLast?_cons_cons] at hValue
        exact hLast last first hValue hId

theorem follows_readFields {c : Setting} :
    (fields : List Field) → (table : TableId) → (position : Nat) →
      Follows start c (readFields table position fields)
        (Lexical.ofFields c.place fields)
        fun _ => c
  | [], _, _ => (Still.pure ()).follows ()
  | .named _ value :: fields, table, position =>
    (follows_readExpr value _).bind fun _ _ => .lead ((still_addEntry _ _ _).follows ())
      fun _ => follows_readFields fields table position
  | .keyed key value :: fields, table, position => by
      refine (follows_readExpr key none).bind fun _ _ => (follows_readExpr value _).bind
        fun _ _ => .lead ((still_entryKey? key _).follows ()) fun r => ?_
      split
      · exact .lead ((still_addEntry _ _ _).follows ()) fun _ =>
          follows_readFields fields table position
      · exact follows_readFields fields table position
  | .positional value :: fields, table, position =>
    (follows_readExpr value none).bind fun _ _ => .lead ((still_addEntry _ _ _).follows ())
      fun _ => follows_readFields fields table (position + 1)

theorem follows_readFunction {c : Setting} :
    (body : FunctionBody) → (name : Option String) → (isColon : Bool) →
      (receiver : Option TermId) →
      Follows start c (readFunction name isColon receiver body)
        (Lexical.ofFunction c.place isColon body)
        fun _ => c
  | .mk node params isVararg body span, name, isColon, receiver => by
      refine (follows_enterFunction (.mk node params isVararg body span) name isColon
        receiver).bind fun _ bound => ?_
      have hPlace : ((c.inside true).under bound).place = ⟨bound ++ c.place.bindings, true⟩ :=
        Setting.place_under _ bound
      rw [← hPlace]
      exact (follows_readBlock body).bind fun _ _ =>
        .lead (follows_leaveFunction rfl rfl _ ()) fun _ => (Still.pure _).follows ()

theorem follows_readBlock {c : Setting} :
    (body : Block) →
      Follows start c (readBlock body)
        (Lexical.ofBlock c.place body)
        c.under
  | .mk statements _ => follows_readStmts statements

theorem follows_readStmts {c : Setting} :
    (statements : List Stmt) →
      Follows start c (readStmts statements)
        (Lexical.ofStmts c.place statements)
        c.under
  | [] => .done rfl
  | statement :: statements =>
    (follows_readStmt statement).bind fun _ new => by
      rw [← c.place_under]
      exact (follows_readStmts statements).giving
        (fun more => more ++ new) fun more => by simp

theorem follows_readStmt {c : Setting} :
    (statement : Stmt) →
      Follows start c (readStmt statement)
        (Lexical.ofStmt c.place statement)
        c.under
  | .localVars _ names values => by
      intro r account h
      obtain ⟨hValues, hLast⟩ := follows_readExprs values (names.map some) r account h
      have hAdjust := followsFrom_adjust hValues.agrees names.length hLast ()
      refine hValues.bind (hAdjust.lead (follows_declareEach ?_ ?_ _ _ hAdjust.agrees))
      · exact length_adjust names.length values _ _
      · intro index hIndex
        rw [length_adjust] at hIndex
        exact isSome_adjust names.length (length_readExprs _ _ _) _ index hIndex
  | .assign _ targets values => by
      intro r account h
      obtain ⟨hValues, hLast⟩ :=
        follows_readExprs values (targets.map Expr.displayName?) r account h
      have hAdjust := followsFrom_adjust hValues.agrees targets.length hLast ()
      refine hValues.bind (hAdjust.lead ?_)
      exact (follows_readTargets (c := c) targets _ (length_adjust _ _ _ _)).giving (fun _ => [])
        (fun _ => rfl) _ _ hAdjust.agrees
  | .call _ e => (follows_readExpr e none).bind fun _ _ => .done rfl
  | .doBlock _ body => follows_nested (follows_readBlock body) rfl
  | .whileLoop _ condition body =>
    (follows_readExpr condition none).bind fun _ _ =>
      follows_nested (follows_readBlock body) rfl
  | .repeatLoop _ body condition => by
      refine .lead follows_enterBlock fun _ =>
        (follows_readBlock body).bind fun _ inside => ?_
      rw [← c.place_inside]
      exact (follows_readExpr condition none).bind fun _ _ =>
        (follows_leaveScope rfl rfl []).ending rfl
  | .ifElse _ clauses otherwise =>
    (follows_readClauses clauses).bind fun _ _ =>
      (follows_readOtherwise otherwise).giving (fun _ => []) fun _ => rfl
  | .numericFor _ var first limit step body =>
    (follows_readExpr first none).bind fun _ _ => (follows_readExpr limit none).bind fun _ _ =>
      (follows_readStep step).bind fun _ _ => .lead ((still_useNumbers _).follows ()) fun _ =>
        .lead follows_enterBlock fun _ => (follows_declareLocal var _).bind fun _ bound =>
          (follows_readBlock body).bind fun _ _ =>
            (follows_leaveScope rfl rfl []).ending rfl
  | .genericFor _ names iterators body => by
      refine .bind (fun r account h => (follows_readExprs iterators [] r account h).1)
        fun _ _ => .lead follows_enterBlock fun _ => (follows_declareAll names).bind
          fun _ bound => ?_
      rw [← c.place_inside]
      exact (follows_readBlock body).bind fun _ _ =>
        (follows_leaveScope rfl rfl []).ending rfl
  | .function _ name body => by
      have hReceiver : Follows start c _ _ _ := follows_readReceiver name
      have hSome := isSome_readReceiver name
      rw [Lexical.ofStmt]
      split
      · rename_i hPlain
        rw [if_pos hPlain] at hReceiver
        refine .lead hReceiver fun r => ?_
        have hNone : ((readReceiver name).run r).1 = none := by simpa [hPlain] using hSome r
        rw [hNone]
        exact (follows_readFunction body _ _ none).bind fun _ _ =>
          (follows_definePlain hPlain _).giving (fun _ => []) fun _ => rfl
      · rename_i hPath
        rw [if_neg hPath] at hReceiver
        refine hReceiver.bind fun r _ => ?_
        obtain ⟨base, hBase⟩ : ∃ base, ((readReceiver name).run r).1 = some base :=
          Option.isSome_iff_exists.1 (by simpa [hPath] using hSome r)
        rw [hBase]
        exact (follows_readFunction body _ _ (some base)).bind fun _ _ =>
          (follows_definePath name base _ []).ending rfl
  | .localFunction _ name body => by
      intro r account h
      have hDeclare := follows_declare .local rfl name r account h
      have hBound := boundSince_declare h (rfl : SymbolKind.local.isBinding = true) name
      have hFunction := follows_readFunction body (some name) false none _ _ hDeclare.agrees
      have hLiteral : ∀ id, Still (alloc (.literal (.function id))) := fun _ => still_alloc rfl
      refine hDeclare.bind (hFunction.bind ?_)
      have hGive := followsFrom_give hFunction.agrees
        (hFunction.grows.getElem?_bindingsFrom hDeclare.agrees.registry_le hBound)
        (hLiteral ((readFunction (some name) false none body).run
          ((declare .local name).run r).2).1)
      exact ⟨hGive.agrees, hGive.grows⟩
  | .returnValues _ values =>
    .get_bind fun r account h => (follows_readReturns (c := c) r.frames.head? values 0).giving
      (fun _ => []) (fun _ => rfl) r account h
  | .breakLoop _ | .goto _ _ | .label _ _ => .done rfl

theorem follows_readTargets {c : Setting} :
    (targets : List Expr) → (values : List (Option TermId)) → values.length = targets.length →
      Follows start c (readTargets values targets)
        (Lexical.ofTargets c.place targets)
        fun _ => c
  | [], [], _ => (Still.pure ()).follows ()
  | target :: targets, value :: values, hLength => by
      intro r account h
      obtain ⟨hKnown, hTarget⟩ := describes_readExpr h target none
      have hRead := follows_readExpr target none r account h
      have hAssign := followsFrom_assignTo hRead.agrees hKnown hTarget value
      have hRest := follows_readTargets targets values (Nat.succ.inj hLength) _ _ hAssign.agrees
      exact ⟨hRest.agrees, hRead.grows.trans (hAssign.grows.trans hRest.grows)⟩

theorem follows_readClauses {c : Setting} :
    (clauses : List Clause) →
      Follows start c (readClauses clauses)
        (Lexical.ofClauses c.place clauses)
        fun _ => c
  | [] => (Still.pure ()).follows ()
  | .mk condition body :: clauses =>
    (follows_readExpr condition none).bind fun _ _ => .lead follows_enterBlock fun _ =>
      (follows_readBlock body).bind fun _ _ =>
        .lead (follows_leaveScope rfl rfl ()) fun _ => follows_readClauses clauses

theorem follows_readOtherwise {c : Setting} :
    (otherwise : Option Block) →
      Follows start c (readOtherwise otherwise)
        (Lexical.ofOtherwise c.place otherwise)
        fun _ => c
  | none => (Still.pure ()).follows ()
  | some body => follows_nested (follows_readBlock body) rfl

theorem follows_readStep {c : Setting} :
    (step : Option Expr) →
      Follows start c (readStep step)
        (Lexical.ofStep c.place step) fun _ => c
  | none => (Still.pure _).follows ()
  | some step => (follows_readExpr step none).trail fun _ b => (Still.pure _).follows b

theorem follows_readReturns {c : Setting}
    (function : Option FunctionId) :
    (values : List Expr) → (slot : Nat) →
      Follows start c (readReturns function slot values)
        (Lexical.ofExprs c.place values)
        fun _ => c
  | [], _ => (Still.pure ()).follows ()
  | value :: values, slot => by
      have hReturn : ∀ id, Still (learn fun s => s.addReturn function slot id) :=
        fun id => .learn (.returned function slot id) trivial fun _ => rfl
      exact (follows_readExpr value none).bind fun _ _ => .lead ((hReturn _).follows ()) fun _ =>
        follows_readReturns function values (slot + 1)

end

end Syntax

end Read

/-! ## Chunks -/

namespace Inference

/-- The state of reading at the end of a chunk that is read as the module of a name. -/
def readThrough (s : Inference) (name : String) (chunk : Chunk) : Reading :=
  ((Read.readBlock chunk.block).run
    { inference := (s.beginModule name).2, scope := (s.beginModule name).1 }).2

theorem readModule_eq (s : Inference) (name : String) (chunk : Chunk) :
    s.readModule name chunk =
      (s.readThrough name chunk).inference.endModule (s.readThrough name chunk).scope := rfl

/-- At its start, reading agrees with a walk that has not begun. -/
theorem agrees_beginModule (s : Inference) (name : String) :
    Agrees (s.beginModule name).2 {}
      { inference := (s.beginModule name).2, scope := (s.beginModule name).1 } {} where
  framed := ⟨_, _, .start _ _, .cons ⟨.nil, rfl⟩ .nil, rfl, by simp⟩
  current_eq := rfl
  registry_le := Nat.le_refl _
  terms_le := Nat.le_refl _
  declared := by
    rw [boundSince, Registry.bindingsFrom_size]
    rfl
  mentions := by
    rw [referencesSince, Arena.referencesFrom_size]
    exact .nil
  assigned := fun name => (append_nil _).symm
  known := fun entry hEntry => by cases hEntry
  required := fun entry hEntry => by cases hEntry
  told := .refl _

/-- At the end of a chunk, reading and the rules of scope agree. -/
theorem agrees_readThrough (s : Inference) (name : String) (chunk : Chunk) :
    ∃ c, Agrees (s.beginModule name).2 c (s.readThrough name chunk) (Lexical.ofChunk chunk) :=
  ⟨_, (Read.follows_readBlock chunk.block _ _ (s.agrees_beginModule name)).agrees⟩

/-- **Names mean the innermost binding in scope**: of a parsed chunk, reading makes one symbol
for each binding that the rules of scope declare, in their order.  The references that it
makes are the names that these rules list, one by one: to the symbol of the innermost binding
in scope, and to the global exactly if there is none.  A name that is an expression is noted
under its number, where nothing else is noted, and the only names that are not listed stand
inside calls that require a module by a literal name. -/
theorem names_mean_innermost_bindings {source : String} {chunk : Chunk}
    (hParse : Chunk.parse source = .ok chunk) (s : Inference) (name : String) :
    ((s.beginModule name).2.boundSince (s.readModule name chunk)).map Prod.snd =
        (Lexical.ofChunk chunk).declared ∧
      List.Forall₂
        (Lexical.Mention.Lowered ((s.beginModule name).2.boundSince (s.readModule name chunk))
          (s.readThrough name chunk).lowered)
        (Lexical.ofChunk chunk).mentions
        ((s.beginModule name).2.referencesSince (s.readModule name chunk)) ∧
      ((s.readThrough name chunk).lowered.map Prod.fst).Nodup ∧
      ∀ n ∈ chunk.parts, (Lexical.ofChunk chunk).Covers chunk.parts n := by
  obtain ⟨c, hAgrees⟩ := s.agrees_readThrough name chunk
  have hNumbers : (Node.numbers chunk.parts).Nodup := by
    rw [Chunk.numbers_of_parse hParse]
    exact nodup_range
  rw [s.readModule_eq name chunk]
  refine ⟨hAgrees.declared, hAgrees.mentions, Read.nodup_lowered hNumbers rfl, ?_⟩
  exact (Lexical.walks_ofBlock {} chunk.block {}).covers

/-- A text in which `x` means a global and three bindings. -/
def textOfScopes : String :=
  "local x = x\nlocal function f() x = f end\nrepeat local x = 1 until x\n" ++
    "for x = x, 2 do print(x) end\nfunction x:m(y) self.y = y end"

set_option maxRecDepth 100000 in
theorem names_mean_innermost_bindings_scopes :
    ∃ chunk, Chunk.parse textOfScopes = .ok chunk ∧
      ((Lexical.ofChunk chunk).mentions.map fun m => (m.name, m.binding)) =
        [("x", none), ("x", some 0), ("f", some 1), ("x", some 0), ("f", some 1), ("x", some 2),
          ("x", some 2), ("x", some 0), ("x", some 3), ("print", none), ("x", some 3),
          ("x", some 0), ("y", some 5), ("self", some 4)] ∧
      let start := ((empty []).beginModule "shared/a").2
      let s := (empty []).readModule "shared/a" chunk
      let lowered := ((empty []).readThrough "shared/a" chunk).lowered
      (start.boundSince s).map Prod.snd = (Lexical.ofChunk chunk).declared ∧
        List.Forall₂ (Lexical.Mention.Lowered (start.boundSince s) lowered)
          (Lexical.ofChunk chunk).mentions (start.referencesSince s) ∧
        (lowered.map Prod.fst).Nodup ∧
        ∀ n ∈ chunk.parts, (Lexical.ofChunk chunk).Covers chunk.parts n := by
  have hMentions : (Chunk.parse textOfScopes).toOption.map (fun chunk =>
      (Lexical.ofChunk chunk).mentions.map fun m => (m.name, m.binding)) =
      some [("x", none), ("x", some 0), ("f", some 1), ("x", some 0), ("f", some 1),
        ("x", some 2), ("x", some 2), ("x", some 0), ("x", some 3), ("print", none),
        ("x", some 3), ("x", some 0), ("y", some 5), ("self", some 4)] := by
    decide +kernel
  cases hParse : Chunk.parse textOfScopes with
  | error e =>
      rw [hParse] at hMentions
      cases hMentions
  | ok chunk =>
      rw [hParse] at hMentions
      exact ⟨chunk, rfl, Option.some.inj hMentions,
        names_mean_innermost_bindings hParse (empty []) "shared/a"⟩

set_option maxRecDepth 100000 in
/-- A call that requires a module by a literal name becomes one term.  Neither the name
`require` in it nor a name among its further arguments becomes a reference. -/
theorem names_in_require_without_reference :
    ∃ chunk, Chunk.parse "local x = 1\nrequire(\"b\", x)" = .ok chunk ∧
      chunk.parts.filterMap Node.occurrence? = [(some 1, "require"), (some 3, "x")] ∧
      ((empty []).readThrough "shared/a" chunk).lowered.map (fun entry => entry.1.1) = [4, 0] := by
  have hRead : (Chunk.parse "local x = 1\nrequire(\"b\", x)").toOption.map (fun chunk =>
      (chunk.parts.filterMap Node.occurrence?,
        ((empty []).readThrough "shared/a" chunk).lowered.map fun entry => entry.1.1)) =
      some ([(some 1, "require"), (some 3, "x")], [4, 0]) := by
    decide +kernel
  cases hParse : Chunk.parse "local x = 1\nrequire(\"b\", x)" with
  | error e =>
      rw [hParse] at hRead
      cases hRead
  | ok chunk =>
      rw [hParse] at hRead
      obtain ⟨hNames, hLowered⟩ := Prod.mk.inj (Option.some.inj hRead)
      exact ⟨chunk, rfl, hNames, hLowered⟩

end Inference

end LuaShape
