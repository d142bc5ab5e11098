import LuaShape.Proofs.Chunk.Parts
import LuaShape.Proofs.Inference.Act
import Mathlib.Data.List.Nodup

/-!
# Reading amounts to acts

Every step of reading amounts to acts that have in hand what they need.  An expression hands
out its term, a function its number, and what was in hand before stays so.  The values of a
local or an assignment are put out of hand one by one.

The induction over the syntax also counts notes.  Every node is noted at most once for each
slot: for slot 0 when it is read, and for further slots only as the last of several values,
behind that value.

Main results: `reads_readBlock` and `nodup_lowered`.
-/

namespace LuaShape

open List

namespace Expr

/-- The numbers under which reading an expression notes terms for a slot. -/
def numbersAt (slot : Nat) (e : Expr) : List Nat :=
  Node.numbers e.inside ++ if slot = 0 then [e.mark.id] else []

theorem count_numbersAt_le (slot : Nat) (e : Expr) (node : Nat) :
    (e.numbersAt slot).count node ≤ (Node.numbers e.parts).count node := by
  rw [numbersAt, numbers_parts, count_append, count_append]
  split <;> simp

end Expr

/-- The number under which further slots of the last of several values are noted. -/
def furtherAt (slot : Nat) (values : List Expr) : List Nat :=
  if slot = 0 then [] else (values.getLast?.map fun last => last.mark.id).toList

/-- Value lists note no more than the numbers of their parts, further slots included. -/
theorem count_further_le (slot : Nat) (values : List Expr) (node : Nat) :
    (values.flatMap (Expr.numbersAt slot)).count node + (furtherAt slot values).count node ≤
      (Node.numbers (exprParts values)).count node := by
  induction values with
  | nil => simp [furtherAt]
  | cons e es ih =>
    have hFirst := e.count_numbersAt_le slot node
    rw [exprParts, Node.numbers_append, flatMap_cons, count_append, count_append]
    cases es with
    | nil =>
      rw [Expr.numbersAt, furtherAt, Expr.numbers_parts]
      by_cases hSlot : slot = 0 <;> simp [hSlot, count_append]
    | cons e' es =>
      have hLast : furtherAt slot (e :: e' :: es) = furtherAt slot (e' :: es) := by
        rw [furtherAt, furtherAt, getLast?_cons_cons]
      rw [hLast]
      omega

/-- Whether a term is neither a table nor a name. -/
def Term.isPlain : Term → Bool
  | .literal (.table _) | .reference _ => false
  | _ => true

/-- The values of targets that have one. -/
def givenItems (given : List (Option TermId)) : List Item := given.filterMap (Option.map .term)

namespace Read

section Steps

variable {slot : Nat} {hand : List Item}

/-! ## Terms -/

theorem reads_tell {α : Type} {x : Read α} {left : α → List Item} (report : Report)
    (hRun : ∀ r, (x.run r).2 = (Act.tell report).run r)
    (hFits : ∀ r, (Act.tell report).Fits hand r)
    (hLeft : ∀ r, (left (x.run r).1).Sublist ((Act.tell report).hand hand r)) :
    Reads slot hand [] x left :=
  .act (fun _ => .tell report) hRun hFits (fun r => (hLeft r).subperm) fun _ => rfl

theorem reads_alloc {t : Term} (hPlain : t.isPlain = true)
    (hItems : ∀ item ∈ (Report.term t).items, item ∈ hand) :
    Reads slot hand [] (alloc t) fun id => .term id :: hand := by
  refine reads_tell (.term t) (fun _ => rfl) (fun _ => ⟨hItems, ?_, ?_⟩) fun _ => .refl _ <;>
    rintro _ rfl <;> cases hPlain

/-- A new reference to a binding in hand. -/
theorem reads_allocBound {symbol : SymbolId} (h : .symbol symbol ∈ hand) :
    Reads slot hand [] (alloc (.reference (.bound symbol))) fun id => .term id :: hand :=
  reads_tell (.term _) (fun _ => rfl)
    (fun _ => ⟨by simp [Report.items, Term.parts], by simp, by simpa using .inl h⟩) fun _ => .refl _

/-- A new reference to what a name means. -/
theorem reads_allocName (name : String) :
    Reads slot hand [] (identOf name >>= fun ident => alloc (.reference ident)) fun id =>
      .term id :: hand := by
  refine .act (fun r => .tell (.term (.reference ((identOf name).run r).1))) (fun _ => rfl)
    (fun r => ⟨by simp [Report.items, Term.parts], by simp, fun symbol hEq => .inr ⟨name, ?_⟩⟩)
    (fun _ => .refl _) fun _ => rfl
  have hIdent := Term.reference.inj hEq
  rw [identOf, run_get_bind] at hIdent
  dsimp only [StateT.run_pure, Id.run] at hIdent
  split at hIdent
  · cases hIdent
    assumption
  · cases hIdent

theorem reads_note (node noted : Nat) {id : TermId} {left : TermId → List Item}
    (h : .term id ∈ hand) (hLeft : (left id).Sublist hand) :
    Reads slot hand (if slot = noted then [node] else []) (note node noted id) left := by
  refine fun r => ⟨[.note node noted id], rfl, ⟨h, hLeft.subperm⟩, fun other => ?_⟩
  by_cases hSlot : slot = noted
  · by_cases hNode : node = other <;> simp [Act.noted?, hSlot, hNode]
  · simp [Act.noted?, hSlot, Ne.symm hSlot]

/-- A term of a node. -/
theorem reads_make (mark : Mark) {kept : List Item} {t : Term}
    (hPlain : t.isPlain = true) (hItems : ∀ item ∈ (Report.term t).items, item ∈ hand)
    (hKept : kept.Sublist hand) :
    Reads slot hand (if slot = 0 then [mark.id] else []) (make mark t) fun id =>
      .term id :: kept :=
  (reads_alloc hPlain hItems).bind fun _ =>
    reads_note mark.id 0 mem_cons_self (hKept.cons_cons _)

theorem reads_makeName (mark : Mark) (name : String) :
    Reads slot hand (if slot = 0 then [mark.id] else [])
      (identOf name >>= fun ident => make mark (.reference ident)) fun id => .term id :: hand :=
  (reads_allocName name).bind fun _ => reads_note mark.id 0 mem_cons_self (.refl _)

theorem reads_use {id : TermId} (h : .term id ∈ hand) (allowed : List TypeTag) :
    Reads slot hand [] (use id allowed) fun _ => hand :=
  reads_tell (.use id allowed) (fun _ => rfl) (fun _ => .inl h) fun _ => .refl _

theorem reads_useAs (allowed : List TypeTag) {id : TermId} (h : .term id ∈ hand) :
    Reads slot hand [] (useAs allowed id) fun _ => hand :=
  .ite (.pure (.refl _)) (reads_use h allowed)

theorem reads_useNumbers {ids : List TermId} (h : ∀ id ∈ ids, .term id ∈ hand) :
    Reads slot hand [] (useNumbers ids) fun _ => hand := by
  induction ids with
  | nil => exact .pure (.refl _)
  | cons id ids ih =>
    exact (reads_use (h id mem_cons_self) _).bind fun _ =>
      ih fun other hOther => h other (mem_cons_of_mem _ hOther)

/-- The base of a target is a part of it. -/
theorem reads_useTarget {target : TermId} (h : .term target ∈ hand) :
    Reads slot hand [] (useTarget target) fun _ => hand := by
  intro r
  cases hTerm : r.inference.term target with
  | member base _ | index base _ =>
    refine ⟨[.tell (.use base [.table])], ?_, ⟨.inr ⟨target, h, by simp [hTerm, Term.parts]⟩,
      .refl _⟩, fun _ => Nat.le_refl _⟩
    rw [useTarget, run_get_bind, hTerm]
    rfl
  | _ =>
    refine ⟨[], ?_, .refl _, fun _ => Nat.le_refl _⟩
    rw [useTarget, run_get_bind, hTerm]
    rfl

theorem reads_makeCall (mark : Mark) {kept : List Item} {callee : TermId} {args : List TermId}
    (h : ∀ id ∈ callee :: args, .term id ∈ hand) (hKept : kept.Sublist hand) :
    Reads slot hand (if slot = 0 then [mark.id] else []) (makeCall mark callee args) fun id =>
      .term id :: kept := by
  refine (reads_use (h callee mem_cons_self) _).bind fun _ =>
    (reads_alloc rfl (by simpa [Report.items, Term.parts] using h)).bind fun id => ?_
  have hCall : Reads slot (.term id :: hand) [] (learn fun s => s.addCall id) fun _ =>
      .term id :: hand :=
    reads_tell (.call id) (fun _ => rfl) (fun _ => by simp [Act.Fits, Report.items])
      fun _ => .refl _
  exact hCall.bind fun _ => reads_note mark.id 0 mem_cons_self (hKept.cons_cons _)

/-! ## Value lists -/

theorem reads_readSlots (node : Nat) {first : TermId} (slots : List Nat)
    (h : .term first ∈ hand) :
    Reads slot hand (List.replicate (slots.count slot) node) (readSlots node first slots)
      fun ids => ids.map .term ++ hand := by
  induction slots generalizing hand with
  | nil => exact .pure (.refl _)
  | cons noted slots ih =>
    have hAlloc : Reads slot hand []
        (get >>= fun r => alloc (atSlot noted (r.inference.term first))) fun id =>
          .term id :: hand :=
      .act (fun _ => .further noted first) (fun _ => rfl) (fun _ => h) (fun _ => .refl _)
        fun _ => rfl
    have hStep : Reads slot hand ((if slot = noted then [node] else []) ++
        List.replicate (slots.count slot) node) (readSlots node first (noted :: slots))
        fun ids => ids.map .term ++ hand := by
      rw [readSlots, ← bind_assoc]
      refine hAlloc.bind fun id => ?_
      have hNote : Reads slot (.term id :: hand) _ (note node noted id) fun _ =>
          .term id :: hand := reads_note node noted mem_cons_self (.refl _)
      exact hNote.bind fun _ => (ih (mem_cons_of_mem _ h)).trail fun _ =>
        .pure perm_middle.symm.subperm
    refine hStep.mono fun other => ?_
    by_cases hSlot : slot = noted
    · simp [hSlot, replicate_succ]
    · simp [hSlot, Ne.symm hSlot]

theorem reads_readFurther (targets : Nat) (values : List Expr) {ids : List TermId}
    (h : ∀ id ∈ ids, .term id ∈ hand) :
    Reads slot hand (furtherAt slot values) (readFurther targets values ids) fun more =>
      more.map .term ++ hand := by
  have hNothing : Reads slot hand (furtherAt slot values) (pure [] : Read (List TermId)) fun more =>
      more.map .term ++ hand :=
    Reads.mono (.pure (.refl _)) fun _ => Nat.zero_le _
  unfold readFurther
  split
  · rename_i last first hValue hFirst
    refine .ite ?_ hNothing
    refine (reads_readSlots last.mark.id _ (h first (mem_of_getLast? hFirst))).mono
      fun node => ?_
    rw [furtherAt, hValue]
    have hOnce : (((List.range (targets - values.length)).map Nat.succ).count slot) ≤
        if slot = 0 then 0 else 1 := by
      cases slot with
      | zero => simp [count_eq_zero]
      | succ before =>
        rw [if_neg (Nat.succ_ne_zero before)]
        exact nodup_iff_count_le_one.1
          (nodup_range.map fun _ _ => Nat.succ.inj) (before + 1)
    by_cases hSlot : slot = 0
    · rw [if_pos hSlot] at hOnce ⊢
      rw [Nat.le_zero.1 hOnce]
      exact Nat.le_refl _
    · rw [if_neg hSlot] at hOnce ⊢
      show (List.replicate _ last.mark.id).count node ≤ [last.mark.id].count node
      exact (replicate_sublist_replicate last.mark.id |>.2 hOnce).count_le node
  · exact hNothing

/-- The values in front of those that are missing. -/
theorem givenItems_adjusted (targets : Nat) (ids : List TermId) :
    (givenItems (((ids.map some) ++ List.replicate (targets - (ids.map some).length) none).take
      targets)).Sublist (ids.map .term) := by
  have hAll : givenItems ((ids.map some) ++
      List.replicate (targets - (ids.map some).length) none) = ids.map .term := by
    simp [givenItems]
  rw [← hAll]
  exact (take_sublist _ _).filterMap _

theorem reads_adjust (targets : Nat) (values : List Expr) (ids : List TermId) :
    Reads slot (ids.map .term ++ hand) (furtherAt slot values) (adjust targets values ids)
      fun given => givenItems given ++ hand := by
  refine (reads_readFurther targets values fun id hId => by simp [hId]).trail fun more =>
    .pure ?_
  refine (((givenItems_adjusted targets (ids ++ more)).append_right hand).subperm).trans ?_
  rw [map_append, append_assoc, ← append_assoc, ← append_assoc]
  exact (perm_append_comm.append_right hand).subperm

/-! ## Values for names and fields -/

theorem reads_inFunction : Reads slot hand [] inFunction fun _ => hand :=
  .get_bind fun _ => .pure (.refl _)

/-- An assignment puts its value out of hand. -/
theorem reads_assign {target value : TermId} {kept : List Item} (hTarget : .term target ∈ hand)
    (hKept : (.term value :: kept).Subperm hand) :
    Reads slot hand [] (assign target value) fun _ => kept := by
  refine .act (fun r => .tell (.assignment target value !r.frames.isEmpty)) (fun _ => rfl)
    (fun _ => ?_) (fun _ => ?_) fun _ => rfl
  · simpa [Act.Fits, Report.items, hTarget] using hKept.subset mem_cons_self
  · have hErased := hKept.erase (.term value)
    rwa [erase_cons_head] at hErased

theorem reads_addEntry {table : TableId} (key : String) {value : TermId}
    (hTable : .table table ∈ hand) :
    Reads slot (.term value :: hand) [] (addEntry table key value) fun _ => hand := by
  refine .act (fun r => .tell (.entry table key value !r.frames.isEmpty)) (fun _ => rfl)
    (fun _ => ?_) (fun _ => ?_) fun _ => rfl
  · simpa [Act.Fits, Report.items] using hTable
  · show hand.Subperm ((.term value :: hand).erase (.term value))
    rw [erase_cons_head]

theorem reads_bindName (kind : SymbolKind) (name : String) :
    Reads slot hand [] (bindName kind name) fun symbol => .symbol symbol :: hand :=
  .act (fun _ => .bind kind name) (fun _ => rfl) (fun _ => trivial) (fun _ => .refl _) fun _ => rfl

theorem reads_declare (kind : SymbolKind) (name : String) :
    Reads slot hand [] (declare kind name) fun symbol => .symbol symbol :: hand := by
  refine (reads_bindName kind name).bind fun symbol => reads_inFunction.bind fun inside => ?_
  refine .ite (.pure (.refl _)) (Reads.trail ?_ fun _ => .pure (.refl _))
  exact reads_tell (.moduleLevel symbol) (fun _ => rfl)
    (fun _ => by simp [Act.Fits, Report.items]) fun _ => .refl _

theorem reads_declareAll (names : List String) :
    Reads slot hand [] (declareAll names) fun _ => hand := by
  induction names with
  | nil => exact .pure (.refl _)
  | cons name names ih =>
    exact ((reads_declare .local name).weaken fun _ => (sublist_cons_self _ _).subperm).bind
      fun _ => ih

theorem reads_declareLocal (name : String) (value : TermId) :
    Reads slot (.term value :: hand) [] (declareLocal name value) fun _ => hand :=
  (reads_declare .local name).bind fun _ => (reads_allocBound mem_cons_self).bind fun _ =>
    reads_assign mem_cons_self (List.Sublist.subperm (by simp))

theorem reads_declareObject (function : FunctionId) (name : String) (value : TermId) :
    Reads slot (.term value :: hand) [] (declareObject function name value) fun _ => hand := by
  refine (reads_declare .object name).bind fun symbol => ?_
  have hLeft : (Item.symbol symbol :: hand).Sublist
      ((Item.symbol symbol :: .term value :: hand).erase (.term value)) := by simp
  have hObject : Reads slot (.symbol symbol :: .term value :: hand) []
      (learnGet fun s => s.addBuiltObject function symbol value) fun held =>
        .term held :: .symbol symbol :: hand :=
    reads_tell (.object function symbol value) (fun _ => rfl)
      (fun _ => by simp [Act.Fits, Report.items])
      fun _ => hLeft.cons_cons _
  exact hObject.bind fun held => (reads_allocBound (by simp)).bind fun target =>
    reads_assign mem_cons_self (List.Sublist.subperm (by simp))

theorem reads_declareWithValue (name : String) (value : Option TermId) :
    Reads slot (givenItems [value] ++ hand) [] (declareWithValue name value) fun _ => hand := by
  cases value with
  | none =>
    exact (reads_declare .local name).bind fun _ => .pure (sublist_cons_self _ _).subperm
  | some value =>
    refine .get_bind fun r => ?_
    split
    · exact reads_declareObject _ name value
    · exact reads_declareLocal name value

theorem reads_declareEach (names : List String) (values : List (Option TermId)) :
    Reads slot (givenItems values ++ hand) [] (declareEach names values) fun _ => hand := by
  induction names generalizing values with
  | nil => cases values <;> exact .pure (sublist_append_right _ _).subperm
  | cons name names ih =>
    cases values with
    | nil => exact .pure (.refl _)
    | cons value values =>
      rw [show givenItems (value :: values) = givenItems [value] ++ givenItems values from
        filterMap_append (l := [value]), append_assoc]
      exact (reads_declareWithValue name value).bind fun _ => ih values

/-- A target without value is given `nil`. -/
theorem reads_valueOrNil (value : Option TermId) :
    Reads slot (givenItems [value] ++ hand) [] (valueOrNil value) fun v => .term v :: hand := by
  cases value with
  | some value => exact .pure (.refl _)
  | none => exact reads_alloc rfl (by simp [Report.items, Term.parts])

/-! ## Functions -/

theorem reads_noteReceiver {id : FunctionId} {receiver : Option TermId}
    (hId : .function id ∈ hand) (hReceiver : ∀ v ∈ receiver, .term v ∈ hand) :
    Reads slot hand [] (noteReceiver id receiver) fun _ => hand := by
  cases receiver with
  | some base =>
    exact reads_tell (.receiver id base) (fun _ => rfl)
      (fun _ => by simpa [Act.Fits, Report.items, hId] using hReceiver) fun _ => .refl _
  | none => exact .pure (.refl _)

theorem reads_declareParams (names : List String) :
    Reads slot hand [] (declareParams names) fun _ => hand := by
  induction names with
  | nil => exact .pure (.refl _)
  | cons name names ih =>
    exact ((reads_bindName _ _).weaken fun _ => (sublist_cons_self _ _).subperm).bind
      fun _ => ih.bind fun _ => .pure (.refl _)

theorem reads_declareImplied (needed : Bool) {receiver : Option TermId}
    (hReceiver : ∀ v ∈ receiver, .term v ∈ hand) :
    Reads slot hand [] (declareImplied needed receiver) fun _ => hand := by
  cases needed with
  | false => exact .pure (.refl _)
  | true =>
    refine Reads.trail ((reads_bindName .self "self").bind fun symbol => ?_) fun _ =>
      .pure (.refl _)
    cases receiver with
    | none => exact .pure (sublist_cons_self _ _).subperm
    | some base =>
      refine Reads.bind (reads_tell (.selfValue symbol base) (fun _ => rfl)
        (fun _ => ?_) fun _ => .refl _) fun _ => .pure (sublist_cons_self _ _).subperm
      simpa [Act.Fits, Report.items] using hReceiver

theorem reads_enterFunction (body : FunctionBody) (name : Option String) (isColon : Bool)
    {receiver : Option TermId} (hReceiver : ∀ v ∈ receiver, .term v ∈ hand) :
    Reads slot hand [] (enterFunction body name isColon receiver) fun id =>
      .function id :: hand := by
  have hNew : Reads slot hand [] (learnGet fun s => s.newFunction name) fun id =>
      .function id :: hand :=
    reads_tell (.function name) (fun _ => rfl) (fun _ => by simp [Act.Fits, Report.items])
      fun _ => .refl _
  refine hNew.bind fun id => ?_
  have hHeld : ∀ v ∈ receiver, .term v ∈ Item.function id :: hand :=
    fun v hv => mem_cons_of_mem _ (hReceiver v hv)
  have hPush : Reads slot (.function id :: hand) [] (modify fun r =>
      { r with scope := r.scope.pushFunction id, frames := id :: r.frames }) fun _ =>
        .function id :: hand :=
    .act (fun _ => .enter id) (fun _ => rfl) (fun _ => mem_cons_self) (fun _ => .refl _)
      fun _ => rfl
  refine (reads_noteReceiver mem_cons_self hHeld).bind fun _ => hPush.bind fun _ =>
    (reads_declareImplied _ hHeld).bind fun implied => (reads_declareParams _).bind fun params =>
      Reads.trail ?_ fun _ => .pure (.refl _)
  exact reads_tell (.parameters id (implied ++ params) body.isVararg isColon) (fun _ => rfl)
    (fun _ => by simp [Act.Fits, Report.items]) fun _ => .refl _

theorem reads_leaveScope : Reads slot hand [] leaveScope fun _ => hand :=
  .act (fun _ => .leave) (fun _ => rfl) (fun _ => trivial) (fun _ => .refl _) fun _ => rfl

theorem reads_enterBlock : Reads slot hand [] enterBlock fun _ => hand :=
  .act (fun _ => .nest) (fun _ => rfl) (fun _ => trivial) (fun _ => .refl _) fun _ => rfl

theorem reads_leaveFunction {id : FunctionId} (hId : .function id ∈ hand) :
    Reads slot hand [] (leaveFunction id) fun _ => hand := by
  have hEnd : Reads slot hand [] (learn fun s => s.endFunction id) fun _ => hand :=
    reads_tell (.functionEnd id) (fun _ => rfl)
      (fun _ => by simpa [Act.Fits, Report.items] using hId) fun _ => .refl _
  have hPop : Reads slot hand [] (modify fun r => { r with frames := r.frames.tail }) fun _ =>
      hand :=
    .act (fun _ => .exit) (fun _ => rfl) (fun _ => trivial) (fun _ => .refl _) fun _ => rfl
  exact hEnd.bind fun _ => hPop.bind fun _ => reads_leaveScope

theorem reads_readMembers (base : TermId) (members : List String) :
    Reads slot (.term base :: hand) [] (readMembers base members) fun id => .term id :: hand := by
  induction members generalizing base with
  | nil => exact .pure (.refl _)
  | cons name members ih =>
    exact ((reads_alloc rfl (by simp [Report.items, Term.parts])).weaken fun _ =>
      List.Sublist.subperm (by simp)).bind fun id => ih id

theorem reads_readReceiver (name : FunctionName) :
    Reads slot hand [] (readReceiver name) fun receiver =>
      receiver.toList.map .term ++ hand := by
  unfold readReceiver
  dsimp only
  split
  · exact .pure (.refl _)
  · rename_i members _
    rw [← bind_assoc]
    exact (reads_allocName name.root).bind fun root => (reads_readMembers root members).bind
      fun base => (reads_use mem_cons_self _).bind fun _ => .pure (.refl _)

theorem reads_defineFunction (name : FunctionName) {receiver : Option TermId} {id : FunctionId}
    (hReceiver : ∀ v ∈ receiver, .term v ∈ hand) (hId : .function id ∈ hand) :
    Reads slot hand [] (defineFunction name receiver id) fun _ => hand := by
  refine (reads_alloc rfl (by simpa [Report.items, Term.parts] using hId)).bind fun value => ?_
  cases receiver with
  | some base =>
    have hBase := hReceiver base rfl
    refine (reads_alloc rfl (by simp [Report.items, Term.parts, hBase])).bind fun target => ?_
    have hAssign : Reads slot (.term target :: .term value :: hand) [] (assign target value)
        fun _ => hand := reads_assign mem_cons_self (List.Sublist.subperm (by simp))
    refine hAssign.bind fun _ => ?_
    exact reads_tell (.method base (lastName name) id name.method.isSome) (fun _ => rfl)
      (fun _ => by simp [Act.Fits, Report.items, hBase, hId]) fun _ => .refl _
  | none =>
    rw [← bind_assoc]
    exact (reads_allocName _).bind fun _ =>
      reads_assign mem_cons_self (List.Sublist.subperm (by simp))

end Steps

/-! ## The syntax -/

section Syntax

variable {slot : Nat}

theorem Reads.whole {hand : List Item} {e : Expr} {α : Type} {x : Read α} {left : α → List Item}
    (h : Reads slot hand (e.numbersAt slot) x left) :
    Reads slot hand (Node.numbers e.parts) x left :=
  h.mono (e.count_numbersAt_le slot)

theorem Reads.wholes {hand : List Item} {es : List Expr} {α : Type} {x : Read α}
    {left : α → List Item} (h : Reads slot hand (es.flatMap (Expr.numbersAt slot)) x left) :
    Reads slot hand (Node.numbers (exprParts es)) x left :=
  h.mono fun node => Nat.le_trans (Nat.le_add_right _ _) (count_further_le slot es node)

/-- A step that uses up what the one before handed out. -/
theorem Reads.then {hand : List Item} {nodes nodes' : List Nat} {α β : Type} {x : Read α}
    {f : α → Read β} {left : α → List Item} (hx : Reads slot hand nodes x left)
    (hLeft : ∀ a, hand.Sublist (left a)) (hf : ∀ a, Reads slot hand nodes' (f a) fun _ => hand) :
    Reads slot hand (nodes ++ nodes') (x >>= f) fun _ => hand :=
  (hx.weaken fun a => (hLeft a).subperm).bind hf

/-- Values with what is read behind them. -/
theorem reads_values {hand : List Item} {hints : List (Option String)} {values : List Expr}
    {targets : Nat} {nodes : List Nat} {α : Type} {f : List (Option TermId) → Read α}
    (hValues : Reads slot hand (values.flatMap (Expr.numbersAt slot)) (readExprs hints values)
      fun ids => ids.map .term ++ hand)
    (hf : ∀ given, Reads slot (givenItems given ++ hand) nodes (f given) fun _ => hand) :
    Reads slot hand (Node.numbers (exprParts values) ++ nodes) (do
      let ids ← readExprs hints values
      let given ← adjust targets values ids
      f given) fun _ => hand := by
  refine (hValues.bind fun ids => (reads_adjust targets values ids).bind hf).mono fun node => ?_
  have hLe := count_further_le slot values node
  rw [count_append, count_append, count_append]
  omega

/-- A block in a scope of its own. -/
theorem reads_nested {hand : List Item} {nodes : List Nat} {x : Read Unit}
    (hx : Reads slot hand nodes x fun _ => hand) :
    Reads slot hand nodes (do
      enterBlock
      x
      leaveScope) fun _ => hand :=
  reads_enterBlock.bind fun _ => hx.trail fun _ => reads_leaveScope

mutual

/-- An expression hands out its term. -/
theorem reads_readExpr {hand : List Item} : (e : Expr) → (hint : Option String) →
    Reads slot hand (e.numbersAt slot) (readExpr hint e) fun id => .term id :: hand
  | .nil mark, _ | .boolean mark _, _ | .number mark _, _ | .string mark _, _
  | .vararg mark, _ => reads_make mark rfl (by simp [Report.items, Term.parts]) (.refl _)
  | .function mark body, hint =>
    (reads_readFunction body hint false (by simp)).bind fun _ =>
      reads_make mark rfl (by simp [Report.items, Term.parts]) (sublist_cons_self _ _)
  | .table mark fields, _ => by
      have hTable : Reads slot hand [] (do
          let id ← learnGet fun s => s.newTable "table"
          let literal ← alloc (.literal (.table id))
          pure (id, literal)) fun made => .term made.2 :: .table made.1 :: hand :=
        .act (fun _ => .construct) (fun _ => rfl) (fun _ => trivial) (fun _ => .refl _)
          fun _ => rfl
      have hFields : ∀ made : TableId × TermId, Reads slot (.term made.2 :: .table made.1 :: hand)
          _ (readFields made.1 1 fields) fun _ => .term made.2 :: hand := fun _ =>
        (reads_readFields fields (by simp) 1).weaken fun _ => List.Sublist.subperm (by simp)
      exact hTable.bind fun made => (hFields made).bind fun _ =>
        reads_note mark.id 0 mem_cons_self (.refl _)
  | .name mark text, _ => reads_makeName mark text
  | .member mark object _, _ =>
    (reads_readExpr object none).whole.bind fun _ => (reads_use mem_cons_self _).bind
      fun _ => reads_make mark rfl (by simp [Report.items, Term.parts])
        (sublist_cons_self _ _)
  | .index mark object key, _ => by
      refine Reads.mono ((reads_readExpr object none).whole.bind fun _ =>
        (reads_use mem_cons_self _).bind fun _ => (reads_readExpr key none).whole.bind fun _ =>
          reads_make mark rfl (by simp [Report.items, Term.parts]) (by simp)) fun node => ?_
      simp [Expr.numbersAt, Expr.inside, Expr.mark]
  | .call mark callee args, _ => by
      refine .get_bind fun r => ?_
      split
      · rename_i argument _
        have hRequire : Reads slot hand [] (learnGet fun s => s.resolveRequire argument) fun _ =>
            hand :=
          reads_tell (.require argument) (fun _ => rfl) (fun _ => by simp [Act.Fits, Report.items])
            fun _ => .refl _
        refine Reads.mono (hRequire.bind fun _ =>
          reads_make mark rfl (by simp [Report.items, Term.parts]) (.refl _)) fun node => ?_
        simp [Expr.numbersAt, Expr.mark]
      · refine Reads.mono ((reads_readExpr callee none).whole.bind fun _ =>
          (reads_readExprs args []).wholes.bind fun _ => reads_makeCall mark (by grind)
            (by simp)) fun node => ?_
        simp [Expr.numbersAt, Expr.inside, Expr.mark]
  | .methodCall mark object _ args, _ => by
      refine Reads.mono ((reads_readExpr object none).whole.bind fun base =>
        (reads_use mem_cons_self _).bind fun _ =>
          (reads_alloc rfl (by simp [Report.items, Term.parts])).bind fun _ =>
            (reads_readExprs args []).wholes.bind fun _ => reads_makeCall mark (by grind)
              (sublist_append_of_sublist_right (by simp))) fun node => ?_
      simp [Expr.numbersAt, Expr.inside, Expr.mark]
  | .binary mark _ left right, _ => by
      refine Reads.mono ((reads_readExpr left none).whole.bind fun _ =>
        (reads_readExpr right none).whole.bind fun _ => (reads_useAs _ (by simp)).bind fun _ =>
          (reads_useAs _ (by simp)).bind fun _ =>
            reads_make mark rfl (by simp [Report.items, Term.parts]) (by simp)) fun node => ?_
      simp [Expr.numbersAt, Expr.inside, Expr.mark]
  | .unary mark _ operand, _ =>
    (reads_readExpr operand none).whole.bind fun _ => (reads_useAs _ mem_cons_self).bind
      fun _ => reads_make mark rfl (by simp [Report.items, Term.parts])
        (sublist_cons_self _ _)
  | .paren mark inner, hint =>
    (reads_readExpr inner hint).whole.bind fun _ =>
      reads_note mark.id 0 mem_cons_self (.refl _)

theorem reads_readExprs {hand : List Item} : (es : List Expr) → (hints : List (Option String)) →
    Reads slot hand (es.flatMap (Expr.numbersAt slot)) (readExprs hints es) fun ids =>
      ids.map .term ++ hand
  | [], _ => .pure (.refl _)
  | e :: es, hints =>
    (reads_readExpr e _).bind fun _ => (reads_readExprs es hints.tail).trail fun _ =>
      .pure perm_middle.symm.subperm

theorem reads_readFields {hand : List Item} {table : TableId} : (fields : List Field) →
    .table table ∈ hand → (position : Nat) →
      Reads slot hand (Node.numbers (fieldParts fields)) (readFields table position fields)
        fun _ => hand
  | [], _, _ => .pure (.refl _)
  | .named _ value :: fields, hTable, position => by
      refine Reads.mono ((reads_readExpr value _).whole.bind fun _ => (reads_addEntry _ hTable).bind
        fun _ => reads_readFields fields hTable position) fun node => ?_
      simp [fieldParts, Field.parts]
  | .keyed key value :: fields, hTable, position => by
      have hRest := reads_readFields fields hTable position
      refine Reads.mono ((reads_readExpr key none).whole.bind fun index =>
        (reads_readExpr value _).whole.bind fun id => .get_bind fun r =>
          (?_ : Reads slot _ (Node.numbers (fieldParts fields)) _ _)) fun node => ?_
      · show Reads slot _ _ (match key.stringValue?.or _ with
          | some name => addEntry table name id >>= fun _ => readFields table position fields
          | none => readFields table position fields) _
        split
        · exact (reads_addEntry _ (mem_cons_of_mem _ hTable)).bind fun _ =>
            hRest.adapt (sublist_cons_self _ _).subperm fun _ => .refl _
        · exact hRest.adapt (List.Sublist.subperm (by simp)) fun _ => .refl _
      · simp [fieldParts, Field.parts]
  | .positional value :: fields, hTable, position => by
      refine Reads.mono ((reads_readExpr value none).whole.bind fun _ =>
        (reads_addEntry _ hTable).bind fun _ => reads_readFields fields hTable (position + 1))
        fun node => ?_
      simp [fieldParts, Field.parts]

theorem reads_readFunction {hand : List Item} {receiver : Option TermId} :
    (body : FunctionBody) → (name : Option String) → (isColon : Bool) →
      (∀ v ∈ receiver, .term v ∈ hand) →
      Reads slot hand (Node.numbers body.parts) (readFunction name isColon receiver body)
        fun id => .function id :: hand
  | .mk node params isVararg body span, name, isColon, hReceiver => by
      refine Reads.mono ((reads_enterFunction (.mk node params isVararg body span) name isColon
        hReceiver).bind fun _ => (reads_readBlock body).trail fun _ =>
          (reads_leaveFunction mem_cons_self).bind fun _ => .pure (.refl _)) fun other => ?_
      rw [FunctionBody.parts]
      exact (sublist_cons_self _ body.parts |>.filterMap _).count_le other

theorem reads_readBlock {hand : List Item} : (body : Block) →
    Reads slot hand (Node.numbers body.parts) (readBlock body) fun _ => hand
  | .mk statements _ => (reads_readStmts statements).mono fun node => by simp [Block.parts]

theorem reads_readStmts {hand : List Item} : (statements : List Stmt) →
    Reads slot hand (Node.numbers (stmtParts statements)) (readStmts statements) fun _ => hand
  | [] => .pure (.refl _)
  | s :: statements => by
      rw [stmtParts, Node.numbers_append]
      exact (reads_readStmt s).bind fun _ => reads_readStmts statements

theorem reads_readStmt {hand : List Item} : (s : Stmt) →
    Reads slot hand (Node.numbers s.parts) (readStmt s) fun _ => hand
  | .localVars _ names values => by
      refine Reads.mono (reads_values (reads_readExprs values _) fun given =>
        reads_declareEach names given) fun node => ?_
      simp [Stmt.parts]
  | .assign _ targets values => by
      refine Reads.mono (reads_values (reads_readExprs values _) fun given =>
        reads_readTargets targets given) fun node => ?_
      simp [Stmt.parts, Nat.add_comm]
  | .call _ e => by
      refine Reads.mono ((reads_readExpr e none).whole.trail fun _ =>
        .pure (sublist_cons_self _ _).subperm) fun node => ?_
      simp [Stmt.parts]
  | .doBlock _ body => by
      refine Reads.mono (reads_nested (reads_readBlock body)) fun node => ?_
      simp [Stmt.parts]
  | .whileLoop _ condition body => by
      refine Reads.mono ((reads_readExpr condition none).whole.then (by simp) fun _ =>
        reads_nested (reads_readBlock body)) fun node => ?_
      simp [Stmt.parts]
  | .repeatLoop _ body condition => by
      refine Reads.mono (reads_enterBlock.bind fun _ => (reads_readBlock body).bind fun _ =>
        (reads_readExpr condition none).whole.then (by simp) fun _ => reads_leaveScope)
        fun node => ?_
      simp [Stmt.parts]
  | .ifElse _ clauses otherwise => by
      refine Reads.mono ((reads_readClauses clauses).bind fun _ =>
        reads_readOtherwise otherwise) fun node => ?_
      simp [Stmt.parts]
  | .numericFor _ var first limit step body => by
      refine Reads.mono ((reads_readExpr first none).whole.bind fun start =>
        (reads_readExpr limit none).whole.bind fun _ => (reads_readStep step).bind fun _ =>
          (reads_useNumbers (by grind)).bind fun _ => reads_enterBlock.bind fun _ =>
            ((reads_declareLocal var start).adapt (List.Sublist.subperm (by simp)) fun _ =>
              .refl hand).bind fun _ => (reads_readBlock body).trail fun _ => reads_leaveScope)
        fun node => ?_
      simp [Stmt.parts]
  | .genericFor _ names iterators body => by
      refine Reads.mono ((reads_readExprs iterators []).wholes.then (by simp) fun _ =>
        reads_enterBlock.bind fun _ => (reads_declareAll names).bind fun _ =>
          (reads_readBlock body).trail fun _ => reads_leaveScope) fun node => ?_
      simp [Stmt.parts]
  | .function _ name body => by
      refine Reads.mono ((reads_readReceiver name).bind fun receiver =>
        (reads_readFunction body _ _ (by simp +contextual)).trail fun _ =>
          (reads_defineFunction name (by simp +contextual) mem_cons_self).weaken fun _ =>
            List.Sublist.subperm (by simp)) fun node => ?_
      simp [Stmt.parts]
  | .localFunction _ name body => by
      refine Reads.mono ((reads_declare .local name).bind fun _ =>
        (reads_readFunction body _ _ (by simp)).trail fun _ => (reads_allocBound (by simp)).bind
          fun _ => (reads_alloc rfl (by simp [Report.items, Term.parts])).bind fun _ =>
            reads_assign (by simp) (List.Sublist.subperm (by grind))) fun node => ?_
      simp [Stmt.parts]
  | .returnValues _ values => by
      refine Reads.mono (.get_bind fun _ => reads_readReturns _ values 0) fun node => ?_
      simp [Stmt.parts]
  | .breakLoop _ | .goto _ _ | .label _ _ => .pure (.refl _)

theorem reads_readTargets {hand : List Item} : (targets : List Expr) →
    (values : List (Option TermId)) →
      Reads slot (givenItems values ++ hand) (Node.numbers (exprParts targets))
        (readTargets values targets) fun _ => hand
  | [], [] => .pure (.refl _)
  | [], _ :: _ => .pure (sublist_append_right _ _).subperm
  | _ :: _, [] => Reads.mono (.pure (.refl _)) fun _ => Nat.zero_le _
  | target :: targets, value :: values => by
      have hValues : (givenItems (value :: values) ++ hand) =
          givenItems [value] ++ (givenItems values ++ hand) := by
        rw [← append_assoc]
        exact congrArg (· ++ hand) (filterMap_append (l := [value]))
      rw [exprParts, Node.numbers_append, hValues]
      have hValue : ∀ id,
          Reads slot (.term id :: (givenItems [value] ++ (givenItems values ++ hand))) []
            (valueOrNil value) fun v => .term v :: .term id :: (givenItems values ++ hand) :=
        fun id => (reads_valueOrNil value).adapt perm_middle.subperm fun _ => .refl _
      exact (reads_readExpr target none).whole.bind fun id =>
        (reads_useTarget mem_cons_self).bind fun _ => (hValue id).bind fun v =>
          Reads.bind (reads_assign (by simp) (List.Sublist.subperm (by simp))) fun _ =>
            reads_readTargets targets values

theorem reads_readClauses {hand : List Item} : (clauses : List Clause) →
    Reads slot hand (Node.numbers (clauseParts clauses)) (readClauses clauses) fun _ => hand
  | [] => .pure (.refl _)
  | .mk condition body :: clauses => by
      rw [clauseParts, Clause.parts, Node.numbers_append, Node.numbers_append, append_assoc]
      exact (reads_readExpr condition none).whole.then (by simp) fun _ => reads_enterBlock.bind
        fun _ => (reads_readBlock body).bind fun _ => reads_leaveScope.bind fun _ =>
          reads_readClauses clauses

theorem reads_readOtherwise {hand : List Item} : (otherwise : Option Block) →
    Reads slot hand (Node.numbers (otherwiseParts otherwise)) (readOtherwise otherwise) fun _ =>
      hand
  | none => .pure (.refl _)
  | some body => reads_nested (reads_readBlock body)

theorem reads_readStep {hand : List Item} : (step : Option Expr) →
    Reads slot hand (Node.numbers (stepParts step)) (readStep step) fun ids =>
      ids.map .term ++ hand
  | none => .pure (.refl _)
  | some e => (reads_readExpr e none).whole.trail fun _ => .pure (.refl _)

theorem reads_readReturns {hand : List Item} (function : Option FunctionId) :
    (values : List Expr) → (position : Nat) →
      Reads slot hand (Node.numbers (exprParts values)) (readReturns function position values)
        fun _ => hand
  | [], _ => .pure (.refl _)
  | value :: values, position => by
      have hReturn : ∀ id, Reads slot (.term id :: hand) []
          (learn fun s => s.addReturn function position id) fun _ => hand := fun id =>
        reads_tell (.returned function position id) (fun _ => rfl)
          (fun _ => by simp [Act.Fits, Report.items]) fun _ => sublist_cons_self _ _
      rw [exprParts, Node.numbers_append]
      exact (reads_readExpr value none).whole.bind fun id => (hReturn id).bind fun _ =>
        reads_readReturns function values (position + 1)

end

end Syntax

/-! ## Notes -/

/-- A step keeps the notes. -/
def KeepsNotes {α : Type} (x : Read α) : Prop := ∀ r, r.lowered <:+ (x.run r).2.lowered

/-- Acts add their notes to those that were there. -/
theorem lowered_after (r : Reading) (acts : List Act) :
    r.lowered <:+ (r.after acts).lowered ∧
      (r.after acts).lowered.map Prod.fst =
        (acts.filterMap Act.noted?).reverse ++ r.lowered.map Prod.fst := by
  induction acts generalizing r with
  | nil => exact ⟨suffix_refl _, rfl⟩
  | cons d acts ih =>
    obtain ⟨hKept, hNoted⟩ := ih (d.run r)
    cases d with
    | note node slot id =>
      refine ⟨(suffix_cons ((node, slot), id) r.lowered).trans hKept, hNoted.trans ?_⟩
      simp [Act.run, Act.noted?]
    | _ => exact ⟨hKept, hNoted⟩

section Notes

variable {slot : Nat} {hand : List Item} {nodes : List Nat} {α : Type} {x : Read α}
  {left : α → List Item}

theorem Reads.keeps (h : Reads slot hand nodes x left) : KeepsNotes x := by
  intro r
  obtain ⟨acts, hRun, -, -⟩ := h r
  rw [hRun]
  exact (lowered_after r acts).1

theorem Reads.count_le (h : Reads slot hand nodes x left) (r : Reading) (node : Nat) :
    ((x.run r).2.lowered.map Prod.fst).count (node, slot) ≤
      (r.lowered.map Prod.fst).count (node, slot) + nodes.count node := by
  obtain ⟨acts, hRun, -, hNoted⟩ := h r
  have hLe := hNoted node
  rw [hRun, (lowered_after r acts).2, count_append, count_reverse]
  omega

end Notes

/-- In a block whose parts have different numbers, no node gets two terms for one slot. -/
theorem nodup_lowered {body : Block} (h : (Node.numbers body.parts).Nodup) {r : Reading}
    (hNew : r.lowered = []) : (((readBlock body).run r).2.lowered.map Prod.fst).Nodup := by
  rw [nodup_iff_count_le_one]
  rintro ⟨node, slot⟩
  have hCount := (@reads_readBlock slot [] body).count_le r node
  have hOnce := nodup_iff_count_le_one.1 h node
  rw [hNew, map_nil, count_nil] at hCount
  omega

end Read

end LuaShape
