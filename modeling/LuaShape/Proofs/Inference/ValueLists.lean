import LuaShape.Proofs.Inference.Resolved

/-!
# Lists of values

The values behind a local or an assignment are read once each, in order, and matched with the
targets: a target has the value in its place, the targets behind the last value have its
further slots if it is a call or `...`, and the others have nothing.

Main result: `value_lists_adjusted`.
-/

namespace LuaShape

open List

/-- The term that an expression was turned into. -/
def Reading.Notes (r : Reading) (e : Expr) (id : TermId) : Prop := ((e.mark.id, 0), id) ∈ r.lowered

namespace Read

/-- Read a list of values and match them with targets. -/
def readValueList (hints : List (Option String)) (targets : Nat) (values : List Expr) :
    Read (List (Option TermId)) := do
  let ids ← readExprs hints values
  adjust targets values ids

theorem readStmt_localVars (span : Span) (names : List String) (values : List Expr) :
    readStmt (.localVars span names values) =
      readValueList (names.map some) names.length values >>= declareEach names := by
  rw [readStmt, readValueList, bind_assoc]

/-- The term for a later slot of an expression: the same call or the same required module in
that slot, or `...` again. -/
def LaterSlot (e : Expr) (slot : Nat) (first later : Term) : Prop :=
  if e.isCall then
    (∃ operands, first = .operation (.call 0) operands ∧
        later = .operation (.call slot) operands) ∨
      ∃ argument target, first = .require argument target 0 ∧
        later = .require argument target slot
  else first = .vararg ∧ later = .vararg

/-- Values are matched with targets, from one state of reading to another. -/
structure Adjusted (hints : List (Option String)) (targets : Nat) (values : List Expr)
    (r : Reading) (given : List (Option TermId)) (after : Reading) : Prop where
  length_eq : given.length = targets
  /-- A target in front has the value in its place, which is read after those before it. -/
  value : ∀ i e, values[i]? = some e → i < targets →
    ∃ id, given[i]? = some (some id) ∧ after.Notes e id ∧
      id = ((readExpr (hints[i]?.getD none) e).run
        ((readExprs hints (values.take i)).run r).2).1
  /-- A target behind the last value has a later slot of it, if it may have some. -/
  further : ∀ last, values.getLast? = some last → last.isMultiValue = true →
    ∀ k, 0 < k → values.length - 1 + k < targets →
      ∃ first id, given[values.length - 1]? = some (some first) ∧
        given[values.length - 1 + k]? = some (some id) ∧
        ((last.mark.id, k), id) ∈ after.lowered ∧
        LaterSlot last k (after.inference.term first) (after.inference.term id)
  /-- The others have nothing. -/
  absent : (∀ last, values.getLast? = some last → last.isMultiValue = false) →
    ∀ i, values.length ≤ i → i < targets → given[i]? = some none
  /-- Each value is read once, with or without a target. -/
  once : (Node.numbers (exprParts values)).Nodup → ∀ e ∈ values,
    (after.lowered.map Prod.fst).count (e.mark.id, 0) =
      (r.lowered.map Prod.fst).count (e.mark.id, 0) + 1

/-! ## Values in order -/

theorem run_readExprs_append (first rest : List Expr) (hints : List (Option String))
    (r : Reading) :
    (readExprs hints (first ++ rest)).run r =
      (((readExprs hints first).run r).1 ++
        ((readExprs (hints.drop first.length) rest).run ((readExprs hints first).run r).2).1,
      ((readExprs (hints.drop first.length) rest).run ((readExprs hints first).run r).2).2) := by
  induction first generalizing hints r with
  | nil => rfl
  | cons e first ih =>
    rw [cons_append, readExprs, run_bind, run_bind, ih, readExprs, run_bind, run_bind,
      length_cons, ← drop_tail]
    rfl

theorem getElem?_readExprs {values : List Expr} {i : Nat} {e : Expr} (h : values[i]? = some e)
    (hints : List (Option String)) (r : Reading) :
    ((readExprs hints values).run r).1[i]? =
      some ((readExpr (hints[i]?.getD none) e).run
        ((readExprs hints (values.take i)).run r).2).1 := by
  obtain ⟨hLt, hEq⟩ := List.getElem?_eq_some_iff.1 h
  have hLength : (values.take i).length = i := List.length_take_of_le (Nat.le_of_lt hLt)
  conv_lhs => rw [← take_append_drop i values, drop_eq_getElem_cons hLt, hEq,
    run_readExprs_append, hLength, readExprs, run_bind, run_bind]
  have hIds := length_readExprs hints (values.take i) r
  rw [hLength] at hIds
  rw [getElem?_append_right (Nat.le_of_eq hIds), hIds, Nat.sub_self, head?_drop]
  rfl

/-! ## Further slots -/

theorem lowered_readSlots (node : Nat) (first : TermId) (slots : List Nat) {r : Reading}
    (h : first.index < r.inference.terms.size) :
    r.inference.Grows ((readSlots node first slots).run r).2.inference ∧
      ∀ (i slot : Nat), slots[i]? = some slot →
        ∃ id, ((readSlots node first slots).run r).1[i]? = some id ∧
          ((node, slot), id) ∈ ((readSlots node first slots).run r).2.lowered ∧
          ((readSlots node first slots).run r).2.inference.term id =
            atSlot slot (r.inference.term first) := by
  induction slots generalizing r with
  | nil => exact ⟨.refl _, by simp⟩
  | cons slot slots ih =>
    let t := atSlot slot (r.inference.term first)
    let id := ((alloc t).run r).1
    let next := ((note node slot id).run ((alloc t).run r).2).2
    have hAlloc : r.inference.Grows next.inference := .alloc r.inference t
    have hTerm : next.inference.term id = t := term_alloc r t
    obtain ⟨hGrows, hSlots⟩ := ih (r := next) (Nat.lt_of_lt_of_le h hAlloc.terms_le)
    have hKept : KeepsNotes (readSlots node first slots) :=
      (@reads_readSlots 0 [.term first] node first slots mem_cons_self).keeps
    rw [hAlloc.term_eq h] at hSlots
    refine ⟨hAlloc.trans hGrows, fun i other hOther => ?_⟩
    cases i with
    | zero =>
      cases hOther
      exact ⟨id, rfl, (hKept next).subset mem_cons_self,
        (hGrows.term_eq (alloc_lt r t)).trans hTerm⟩
    | succ i => exact hSlots i other hOther

/-- The last of several expressions is read last. -/
theorem getLast?_readExprs {values : List Expr} {last : Expr}
    (h : values.getLast? = some last) (hints : List (Option String)) (r : Reading) :
    ∃ hint r', ((readExprs hints values).run r).1.getLast? = some ((readExpr hint last).run r').1 ∧
      ((readExprs hints values).run r).2 = ((readExpr hint last).run r').2 := by
  induction values generalizing hints r with
  | nil => cases h
  | cons value values ih =>
    cases values with
    | nil =>
      cases h
      exact ⟨_, r, rfl, rfl⟩
    | cons next values =>
      rw [getLast?_cons_cons] at h
      rw [readExprs, run_bind]
      obtain ⟨hint, r', hLast, hState⟩ :=
        ih h hints.tail ((readExpr (hints.head?.getD none) value).run r).2
      exact ⟨hint, r', getLast?_cons_cons.trans hLast, hState⟩

/-- A term with further slots, as that of a call or of `...`. -/
def HasSlots (e : Expr) (t : Term) : Prop := ∀ slot, LaterSlot e slot t (atSlot slot t)

/-- A call or `...` is turned into a term with further slots. -/
theorem hasSlots_readExpr {e : Expr} (hMulti : e.isMultiValue = true) (hint : Option String)
    (r : Reading) : Gives (HasSlots e) (readExpr hint e) r := by
  refine (renders_readExpr e hint r).imp fun t hTerm => ?_
  cases e with
  | vararg mark =>
    cases hTerm
    exact fun _ => ⟨rfl, rfl⟩
  | call mark callee args =>
    rcases hTerm with ⟨argument, target, -, rfl⟩ | ⟨operands, rfl⟩
    · exact fun _ => .inr ⟨argument, target, rfl, rfl⟩
    · exact fun _ => .inl ⟨operands, rfl, rfl⟩
  | methodCall mark object method args =>
    obtain ⟨operands, rfl⟩ := hTerm
    exact fun _ => .inl ⟨operands, rfl, rfl⟩
  | _ => cases hMulti

/-! ## Notes of values -/

/-- A step keeps the notes, and puts that of an expression with its answer on top of them. -/
def EndsWith (e : Expr) (x : Read TermId) : Prop :=
  ∀ r, ∃ earlier, r.lowered <:+ earlier ∧
    (x.run r).2.lowered = ((e.mark.id, 0), (x.run r).1) :: earlier

theorem endsWith_note (e : Expr) (id : TermId) : EndsWith e (note e.mark.id 0 id) :=
  fun r => ⟨r.lowered, suffix_refl _, rfl⟩

theorem EndsWith.lead {e : Expr} {α : Type} {x : Read α} {f : α → Read TermId}
    (hx : KeepsNotes x) (hf : ∀ a, EndsWith e (f a)) : EndsWith e (x >>= f) := by
  intro r
  obtain ⟨earlier, hKept, hEq⟩ := hf (x.run r).1 (x.run r).2
  exact ⟨earlier, (hx r).trans hKept, hEq⟩

theorem keeps_learn (f : Inference → Inference) : KeepsNotes (learn f) :=
  fun _ => suffix_refl _

theorem keeps_learnGet {α : Type} (f : Inference → α × Inference) : KeepsNotes (learnGet f) :=
  fun _ => suffix_refl _

theorem keeps_useAs (allowed : List TypeTag) (id : TermId) : KeepsNotes (useAs allowed id) :=
  (@reads_useAs 0 [.term id] allowed id mem_cons_self).keeps

theorem keeps_readExpr (e : Expr) (hint : Option String) : KeepsNotes (readExpr hint e) :=
  (@reads_readExpr 0 [] e hint).keeps

theorem keeps_readExprs (es : List Expr) (hints : List (Option String)) :
    KeepsNotes (readExprs hints es) :=
  (@reads_readExprs 0 [] es hints).keeps

theorem endsWith_make (e : Expr) (t : Term) : EndsWith e (make e.mark t) :=
  .lead (keeps_learnGet _) fun id => endsWith_note e id

theorem endsWith_makeCall (e : Expr) (callee : TermId) (args : List TermId) :
    EndsWith e (makeCall e.mark callee args) :=
  .lead (keeps_learn _) fun _ => .lead (keeps_learnGet _) fun id =>
    .lead (keeps_learn _) fun _ => endsWith_note e id

/-- The newest note is that of the expression that was read last. -/
theorem endsWith_readExpr (e : Expr) (hint : Option String) : EndsWith e (readExpr hint e) := by
  cases e with
  | nil | boolean | number | string | vararg => exact endsWith_make _ _
  | function mark body =>
    exact .lead (@reads_readFunction 0 [] none body hint false (by simp)).keeps fun _ =>
      endsWith_make (.function mark body) _
  | table mark fields =>
    exact .lead (keeps_learnGet _) fun _ => .lead (keeps_learnGet _) fun _ =>
      .lead (@reads_readFields 0 [.table _] _ fields mem_cons_self 1).keeps fun _ =>
        endsWith_note (.table mark fields) _
  | name mark text =>
    exact .lead (fun _ => suffix_refl _) fun _ => endsWith_make (.name mark text) _
  | member mark object text =>
    exact .lead (keeps_readExpr object none) fun _ => .lead (keeps_learn _) fun _ =>
      endsWith_make (.member mark object text) _
  | index mark object key =>
    exact .lead (keeps_readExpr object none) fun _ => .lead (keeps_learn _) fun _ =>
      .lead (keeps_readExpr key none) fun _ => endsWith_make (.index mark object key) _
  | call mark callee args =>
    intro r
    rw [readExpr, run_get_bind]
    split
    · exact EndsWith.lead (keeps_learnGet _) (fun _ =>
        endsWith_make (.call mark callee args) _) r
    · exact EndsWith.lead (keeps_readExpr callee none) (fun _ =>
        .lead (keeps_readExprs args []) fun _ =>
          endsWith_makeCall (.call mark callee args) _ _) r
  | methodCall mark object method args =>
    exact .lead (keeps_readExpr object none) fun _ => .lead (keeps_learn _) fun _ =>
      .lead (keeps_learnGet _) fun _ => .lead (keeps_readExprs args []) fun _ =>
        endsWith_makeCall (.methodCall mark object method args) _ _
  | binary mark op left right =>
    exact .lead (keeps_readExpr left none) fun _ =>
      .lead (keeps_readExpr right none) fun _ => .lead (keeps_useAs _ _)
        fun _ => .lead (keeps_useAs _ _) fun _ =>
          endsWith_make (.binary mark op left right) _
  | unary mark op operand =>
    exact .lead (keeps_readExpr operand none) fun _ =>
      .lead (keeps_useAs _ _) fun _ => endsWith_make (.unary mark op operand) _
  | paren mark inner =>
    exact .lead (keeps_readExpr inner hint) fun id => endsWith_note (.paren mark inner) id

/-- A value is noted when it is read, on top of what was noted before, and stays so. -/
theorem exists_noted {values : List Expr} {i : Nat} {e : Expr} (h : values[i]? = some e)
    (hints : List (Option String)) (r : Reading) :
    ∃ earlier id, ((readExprs hints values).run r).1[i]? = some id ∧ r.lowered <:+ earlier ∧
      ((e.mark.id, 0), id) :: earlier <:+ ((readExprs hints values).run r).2.lowered := by
  induction values generalizing i hints r with
  | nil => cases h
  | cons value values ih =>
    obtain ⟨earlier, hKept, hEq⟩ := endsWith_readExpr value (hints.head?.getD none) r
    cases i with
    | zero =>
      cases h
      exact ⟨earlier, _, rfl, hKept, hEq ▸ (keeps_readExprs values hints.tail) _⟩
    | succ i =>
      obtain ⟨later, id, hId, hOld, hNoted⟩ :=
        ih h hints.tail ((readExpr (hints.head?.getD none) value).run r).2
      rw [hEq] at hOld
      exact ⟨later, id, hId, hKept.trans ((suffix_cons _ _).trans hOld), hNoted⟩

/-- Lists of values follow the rule of adjustment. -/
theorem value_lists_adjusted (hints : List (Option String)) (targets : Nat) (values : List Expr)
    (r : Reading) :
    Adjusted hints targets values r ((readValueList hints targets values).run r).1
      ((readValueList hints targets values).run r).2 := by
  let ids := (readExprs hints values).run r
  have hLength : ids.1.length = values.length := length_readExprs hints values r
  have hGiven : ∀ i, i < targets → ((readValueList hints targets values).run r).1[i]? =
      some ((ids.1 ++ ((readFurther targets values ids.1).run ids.2).1)[i]?) :=
    fun i hi => getElem?_adjust targets values ids.1 ids.2 hi
  have hAfter : ids.2.lowered <:+ ((readValueList hints targets values).run r).2.lowered :=
    (@reads_adjust 0 [] targets values ids.1).keeps ids.2
  refine ⟨length_adjust _ _ _ _, fun i e hValue hi => ?_, fun last hLast hMulti k hk hLt => ?_,
    fun hNone i hLe hi => ?_, fun hNumbers e he => ?_⟩
  · have hId := getElem?_readExprs hValue hints r
    obtain ⟨earlier, id, hSame, -, hNoted⟩ := exists_noted hValue hints r
    cases hId.symm.trans hSame
    refine ⟨_, ?_, ?_, rfl⟩
    · rw [hGiven i hi, getElem?_append_left, hId]
      exact (List.getElem?_eq_some_iff.1 hId).1
    · exact (hNoted.trans hAfter).subset List.mem_cons_self
  · obtain ⟨first, hLastId, hKnown, hLater⟩ : ∃ first, ids.1.getLast? = some first ∧
        first.index < ids.2.inference.terms.size ∧
        HasSlots last (ids.2.inference.term first) := by
      obtain ⟨hint, r', hLastId, hState⟩ := getLast?_readExprs hLast hints r
      have hGives := hasSlots_readExpr hMulti hint r'
      rw [Gives, ← hState] at hGives
      exact ⟨_, hLastId, hGives⟩
    have hId : ids.1[values.length - 1]? = some first := by
      rw [← hLength, ← getLast?_eq_getElem?]
      exact hLastId
    let slots := (List.range (targets - values.length)).map Nat.succ
    have hFurther : readFurther targets values ids.1 = readSlots last.mark.id first slots := by
      rw [readFurther, hLast, hLastId]
      exact if_pos hMulti
    have hState : ((readValueList hints targets values).run r).2 =
        ((readFurther targets values ids.1).run ids.2).2 := rfl
    have hPlace : 0 < values.length := length_pos_iff.2 fun hNil => by
      rw [hNil] at hLast
      cases hLast
    rw [hFurther] at hState hGiven
    obtain ⟨hGrows, hSlots⟩ := lowered_readSlots last.mark.id first slots hKnown
    obtain ⟨id, hSlot, hNoted, hTerm⟩ := hSlots (k - 1) k (by
      rw [getElem?_map, getElem?_range (by omega), Option.map_some,
        Nat.succ_eq_add_one, Nat.sub_add_cancel hk])
    refine ⟨first, id, ?_, ?_, by rwa [hState], ?_⟩
    · rw [hGiven _ (by omega), getElem?_append_left (by omega), hId]
    · rw [hGiven _ hLt, getElem?_append_right (by omega), hLength,
        show values.length - 1 + k - values.length = k - 1 by omega, hSlot]
    · rw [hState, hTerm, hGrows.term_eq hKnown]
      exact hLater k
  · have hFurther : ((readFurther targets values ids.1).run ids.2).1 = [] := by
      rw [readFurther]
      split
      · rename_i last _ hLast _
        rw [hNone last hLast]
        rfl
      · rfl
    rw [hGiven i hi, hFurther, append_nil, getElem?_eq_none (by omega)]
  · obtain ⟨i, hValue⟩ := getElem?_of_mem he
    obtain ⟨earlier, id, -, hEarlier, hNoted⟩ := exists_noted hValue hints r
    have hAtLeast := (((hNoted.trans hAfter).sublist.map Prod.fst).count_le (e.mark.id, 0))
    have hOld := ((hEarlier.sublist.map Prod.fst).count_le (e.mark.id, 0))
    have hReads : Reads 0 [] (Node.numbers (exprParts values) ++ []) (do
        let ids ← readExprs hints values
        let given ← adjust targets values ids
        pure given) fun _ => [] :=
      reads_values (reads_readExprs values hints) fun _ => .pure (nil_subperm)
    have hAtMost := hReads.count_le r e.mark.id
    rw [append_nil] at hAtMost
    have hOnce := nodup_iff_count_le_one.1 hNumbers e.mark.id
    rw [map_cons, count_cons_self] at hAtLeast
    refine Nat.le_antisymm (Nat.le_trans ?_ (Nat.add_le_add_left hOnce _))
      (Nat.le_trans (Nat.succ_le_succ hOld) hAtLeast)
    exact hAtMost

end Read

end LuaShape
