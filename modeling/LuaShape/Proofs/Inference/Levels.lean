import LuaShape.Proofs.Inference.Course
import LuaShape.Proofs.Inference.Reached
import LuaShape.Proofs.Inference.Resolved

/-!
# Functions that are being read, and levels of bindings

Two things tell in which function reading is: the stack of functions that are being read, and
the key of the current scope.  `Starts` says, by the course of reading, in which states the parts
of a block start to be read.  In all of them reading agrees with the rules of scope
(`Starts.settled`), and so the two tell the same.

Main result: `levels_agree`.
-/

namespace LuaShape

open List

namespace Read

/-- While a block is read from one state on, a part of it starts to be read in another state. -/
inductive Starts (body : Block) (start : Reading) : Task → Reading → Prop
  | all : Starts body start (.block body) start
  | part {t : Task} {r : Reading} (h : Starts body start t r) {p : Task × Reading}
      (hp : p ∈ t.course.starts r) : Starts body start p.1 p.2

/-! ## Agreement -/

/-- Reading agrees with the rules of scope, whatever the setting. -/
class Settled (start : Inference) (r : Reading) : Prop where
  agrees : ∃ c account, Agrees start c r account

/-- A step does not end the agreement. -/
class Settles (start : Inference) {α : Type} (x : Read α) : Prop where
  settled : ∀ r, Settled start r → Settled start (x.run r).2

section Rules

variable {start : Inference} {α β : Type} {x : Read α}

theorem Settles.of_follows {w : Setting → Lexical.Walk β} {after : Setting → β → Setting}
    (h : ∀ c, Follows start c x (w c) (after c)) : Settles start x := by
  refine ⟨fun r hr => ?_⟩
  obtain ⟨c, account, hAgrees⟩ := hr.agrees
  exact ⟨_, _, (h c r account hAgrees).agrees⟩

theorem Settles.of_still (h : Still x) : Settles start x := .of_follows fun _ => h.follows ()

instance [hx : Settles start x] {r : Reading} [hr : Settled start r] : Settled start (x.run r).2 :=
  hx.settled r hr

section Pieces

variable (hint : Option String) (hints : List (Option String)) (e : Expr) (es : List Expr)
  (body : FunctionBody) (block : Block) (statement : Stmt) (clauses : List Clause)
  (function : Option FunctionId) (slot : Nat) (path : FunctionName) (isColon : Bool)
  (receiver : Option TermId) (name : String) (names : List String) (id : TermId)
  (ids : List TermId) (table : TableId)

instance : Settles start (readExpr hint e) := .of_follows fun _ => follows_readExpr e hint

instance : Settles start (readExprs hints es) :=
  .of_follows fun _ r account h => (follows_readExprs es hints r account h).1

instance : Settles start (addEntry table name id) := .of_still (still_addEntry table name id)

instance : Settles start (entryKey? e id) := .of_still (still_entryKey? e id)

instance : Settles start (readBlock block) := .of_follows fun _ => follows_readBlock block

instance : Settles start (readStmt statement) := .of_follows fun _ => follows_readStmt statement

instance : Settles start (readClauses clauses) := .of_follows fun _ => follows_readClauses clauses

instance : Settles start (readReturns function slot es) :=
  .of_follows fun _ => follows_readReturns function es slot

instance : Settles start (readReceiver path) := .of_follows fun _ => follows_readReceiver path

instance : Settles start (enterFunction body hint isColon receiver) :=
  .of_follows fun _ => follows_enterFunction body hint isColon receiver

instance : Settles start enterBlock := .of_follows fun _ => follows_enterBlock

instance : Settles start (declare .local name) :=
  .of_follows fun _ => follows_declare .local rfl name

instance : Settles start (declareLocal name id) :=
  .of_follows fun _ => follows_declareLocal name id

instance : Settles start (declareAll names) := .of_follows fun _ => follows_declareAll names

instance (allowed : List TypeTag) : Settles start (use id allowed) :=
  .of_still (still_use id allowed)

instance : Settles start (useNumbers ids) := .of_still (still_useNumbers ids)

instance : Settles start (alloc (.member id name)) := .of_still (still_alloc rfl)

instance : Settles start (alloc (.literal (.table table))) := .of_still (still_alloc rfl)

instance : Settles start (learnGet fun s => s.newTable name) :=
  .of_still (.learnGet (.table name) trivial fun _ => rfl)

end Pieces

end Rules

section Syntax

variable {start : Inference} {r : Reading} {α β : Type}

/-- Wherever a part starts in a course, reading agrees with the rules of scope. -/
def Keeps (start : Inference) (c : Course α) (r : Reading) : Prop :=
  ∀ p ∈ c.starts r, Settled start p.2

@[simp]
theorem keeps_done (a : α) : Keeps start (.done a) r := fun _ h => by cases h

@[simp]
theorem keeps_pure (a : α) : Keeps start (pure a) r := keeps_done a

@[simp]
theorem keeps_lift (x : Read α) : Keeps start (monadLift x : Course α) r := fun _ h => by cases h

@[simp]
theorem keeps_get (f : Reading → Course α) : Keeps start (.go get f) r ↔ Keeps start (f r) r :=
  Iff.rfl

@[simp]
theorem keeps_bind (c : Course α) (f : α → Course β) : Keeps start (c >>= f) r ↔
    Keeps start c r ∧ Keeps start (f (c.run.run r).1) (c.run.run r).2 := by
  rw [Keeps, Course.starts_bind, forall_mem_append]
  rfl

variable [hr : Settled start r]

@[simp]
theorem keeps_task (t : Task) (next : t.Answer → Course α) :
    Keeps start (.task t next) r ↔ Keeps start (next (t.read.run r).1) (t.read.run r).2 :=
  forall_mem_cons.trans (and_iff_right hr)

attribute [local simp] Task.course Course.ofExpr Course.ofStmt Course.run Read.start Task.read

theorem keeps_course (t : Task) : Keeps start t.course r := by
  cases t with
  | expr hint e =>
    cases e with
    | call _ callee args =>
      rw [Task.course, Course.ofExpr, keeps_get]
      split <;> simp
    | _ => simp
  | exprs _ es => cases es <;> simp
  | fields table n entries =>
    cases entries with
    | nil => simp
    | cons f rest =>
      cases f with
      | keyed key value =>
        simp only [Task.course, keeps_bind, keeps_lift, Read.start, keeps_task, keeps_done, true_and]
        exact ⟨by simp, by split <;> simp⟩
      | _ => simp
  | stmts statements => cases statements <;> simp
  | stmt s =>
    cases s with
    | assign _ targets values =>
      obtain ⟨c, account, h⟩ := hr.agrees
      obtain ⟨hValues, hLast⟩ :=
        follows_readExprs values (targets.map Expr.displayName?) r account h
      have hAdjust := followsFrom_adjust hValues.agrees targets.length hLast ()
      have hNext : Settled start _ := ⟨_, _, hAdjust.agrees⟩
      simp
    | ifElse _ clauses otherwise => cases otherwise <;> simp
    | _ => simp
  | targets values targets =>
    cases values with
    | nil => simp
    | cons value values =>
      cases targets with
      | nil => simp
      | cons target targets =>
        obtain ⟨c, account, h⟩ := hr.agrees
        have hNext := (follows_readTargets [target] [value] rfl r account h).agrees
        simp only [Task.course, keeps_bind, keeps_lift, Read.start, keeps_task, keeps_done, true_and]
        exact forall_mem_singleton.2 ⟨_, _, hNext⟩
  | clauses clauses =>
    cases clauses with
    | nil => simp
    | cons clause clauses =>
      have hNext : Settled start ((readClauses [clause]).run r).2 := inferInstance
      cases clause
      simp only [Task.course, keeps_bind, keeps_lift, Read.start, keeps_task, keeps_done, true_and]
      exact ⟨by simp, forall_mem_singleton.2 hNext⟩
  | returns function n values =>
    cases values with
    | nil => simp
    | cons value values =>
      have hNext : Settled start ((readReturns function n [value]).run r).2 := inferInstance
      simp only [Task.course, keeps_bind, keeps_lift, Read.start, keeps_task, keeps_done, true_and]
      exact forall_mem_singleton.2 hNext
  | _ => simp

omit hr in
theorem Starts.settled {body : Block} {r' : Reading} {t : Task} (h : Starts body r t r')
    (hr : Settled start r) : Settled start r' := by
  induction h with
  | all => exact hr
  | part _ hp ih => exact keeps_course _ _ hp

omit hr in
/-- The innermost of the functions that are being read has the current scope. -/
theorem Settled.key_eq (h : Settled start r) :
    r.scope.currentKey = r.frames.head?.elim (.module r.scope.home) .function := by
  obtain ⟨c, account, hAgrees⟩ := h.agrees
  obtain ⟨frames, added, hRefined, -, hFrames, -⟩ := hAgrees.framed
  rw [hFrames]
  exact hRefined.currentKey_eq

end Syntax

end Read

namespace Inference

/-- Only numbers that have been handed out are marked. -/
def MarksKnown (s : Inference) : Prop := ∀ id ∈ s.moduleLevel, id.index < s.registry.size

theorem MarksKnown.beginModule {s : Inference} (h : s.MarksKnown) (name : String) :
    (s.beginModule name).2.MarksKnown := by
  obtain ⟨modules, hEq⟩ := s.exists_register_eq name
  simp only [MarksKnown, Inference.beginModule, hEq, Registry.size_mint]
  exact fun id hId => Nat.lt_succ_of_lt (h id hId)

theorem MarksKnown.readModule {s : Inference} (h : s.MarksKnown) (name : String) (chunk : Chunk) :
    (s.readModule name chunk).MarksKnown := by
  intro id hId
  obtain ⟨c, hAgrees⟩ := s.agrees_readThrough name chunk
  obtain ⟨frames, added, hRefined, -, -, hMarked⟩ := hAgrees.framed
  rcases (hMarked id).1 hId with hOld | ⟨b, hb, rfl, -⟩
  · exact Nat.lt_of_lt_of_le (h.beginModule name id hOld) hAgrees.registry_le
  · exact hRefined.fresh b hb

theorem marksKnown_readChunks (buckets : List String) (chunks : List (String × Chunk)) :
    (readChunks buckets chunks).MarksKnown :=
  List.foldlRecOn chunks _ (by simp [MarksKnown, empty])
    fun _ h entry _ => h.readModule entry.1 entry.2

/-- **The two records of what is at module level agree.**  Whatever has been read before, once a
chunk is read, a binding that came to be meanwhile is marked in the context exactly if it is at
module level in the finished tree of scopes.  Whenever a statement or an expression of the chunk
starts to be read, the innermost of the functions that are being read is that of the key of the
current scope, and none is being read exactly if this key is that of the module. -/
theorem levels_agree (buckets : List String) (chunks : List (String × Chunk)) (name : String)
    (chunk : Chunk) :
    let s := readChunks buckets chunks
    (∀ symbol, (s.beginModule name).2.registry.size ≤ symbol.index →
      (symbol ∈ (s.readModule name chunk).moduleLevel ↔
        (s.readThrough name chunk).scope.isModuleLevel symbol = true)) ∧
    ∀ task r, Read.Starts chunk.block
      { inference := (s.beginModule name).2, scope := (s.beginModule name).1 } task r →
      r.scope.currentKey = r.frames.head?.elim (.module r.scope.home) .function ∧
      (r.frames = [] ↔ r.scope.currentKey = .module r.scope.home) := by
  intro s
  refine ⟨fun symbol hNew => ?_, fun task r hStarts => ?_⟩
  · obtain ⟨c, hAgrees⟩ := s.agrees_readThrough name chunk
    obtain ⟨frames, added, hRefined, -, -, hMarked⟩ := hAgrees.framed
    have hOld : symbol ∉ (s.beginModule name).2.moduleLevel := fun hMark =>
      absurd ((marksKnown_readChunks buckets chunks).beginModule name symbol hMark)
        (Nat.not_lt.2 hNew)
    have hLevel : (s.readThrough name chunk).scope.isModuleLevel symbol = true ↔ _ :=
      hRefined.isModuleLevel_iff symbol
    rw [hLevel]
    exact (hMarked symbol).trans (or_iff_right hOld)
  · have hKey := (hStarts.settled ⟨_, _, s.agrees_beginModule name⟩).key_eq
    refine ⟨hKey, ?_⟩
    rw [hKey]
    cases r.frames <;> simp

end Inference

end LuaShape
