import LuaShape.Proofs.Inference.Direct

/-!
# Resolution stays within what is known

A number behind which nothing stands is read as if something harmless stood there: an
unknown term as `...`, an unknown function as one without returns.  In a grounded context
resolution never gets to such a number.  This is said without looking into a run: put
other terms behind the arena and other functions under unknown numbers (`filled`), and the
types of every known term stay the same (`resolve_filled`).  They also name only known
tables and functions (`Grounded.knowsTypes_resolve`).

Both are proved together: two computations are `alike` if they give the same from every
memo of known types, and leave such a memo, and the rules keep computations alike.
-/

namespace LuaShape.Inference

open List

/-! ## Known types -/

/-- A tag names nothing, or a known table or function. -/
def KnowsTag (s : Inference) : TypeTag → Prop
  | .tableRef x => s.KnowsTable x
  | .functionRef id => s.KnowsFunction id
  | _ => True

/-- A type set names only known tables and functions. -/
def KnowsTypes (s : Inference) (types : TypeSet) : Prop := ∀ tag ∈ types, s.KnowsTag tag

namespace KnowsTypes

variable {s : Inference} {types types' : TypeSet}

theorem subset (h : s.KnowsTypes types) (hSub : ∀ tag ∈ types', tag ∈ types) :
    s.KnowsTypes types' :=
  fun tag hTag => h tag (hSub tag hTag)

theorem empty : s.KnowsTypes .empty := fun _ hTag => absurd hTag (SortedSet.not_mem_empty _)

theorem insert (h : s.KnowsTypes types) {tag : TypeTag} (hTag : s.KnowsTag tag) :
    s.KnowsTypes (types.insert tag) := by
  intro other hOther
  rcases SortedSet.mem_insert.1 hOther with rfl | hOther
  · exact hTag
  · exact h other hOther

theorem single {tag : TypeTag} (hTag : s.KnowsTag tag) : s.KnowsTypes (.single tag) :=
  empty.insert hTag

theorem union (h : s.KnowsTypes types) (h' : s.KnowsTypes types') :
    s.KnowsTypes (types.union types') := by
  intro tag hTag
  rcases SortedSet.mem_union.1 hTag with hTag | hTag
  · exact h tag hTag
  · exact h' tag hTag

theorem of {tags : List TypeTag} (h : ∀ tag ∈ tags, s.KnowsTag tag) : s.KnowsTypes (.of tags) :=
  fun tag hTag => h tag (SortedSet.mem_ofList.1 hTag)

theorem falsyPart (types : TypeSet) : s.KnowsTypes types.falsyPart := by
  refine of fun tag hTag => ?_
  obtain ⟨old, -, hOld⟩ := mem_filterMap.1 hTag
  cases old <;> cases hOld <;> trivial

variable (h : s.KnowsTypes types)
include h

theorem truthyPart : s.KnowsTypes types.truthyPart := by
  refine of fun tag hTag => ?_
  obtain ⟨old, hMem, hOld⟩ := mem_filterMap.1 hTag
  have hKnown := h old hMem
  cases old <;> cases hOld <;> exact hKnown

theorem mem_tables {x : TableId} (hx : x ∈ types.tables) : s.KnowsTable x := by
  obtain ⟨tag, hTag, hEq⟩ := mem_filterMap.1 hx
  have hKnown := h tag hTag
  cases tag <;> cases hEq
  exact hKnown

theorem mem_functions {id : FunctionId} (hId : id ∈ types.functions) : s.KnowsFunction id := by
  obtain ⟨tag, hTag, hEq⟩ := mem_filterMap.1 hId
  have hKnown := h tag hTag
  cases tag <;> cases hEq
  exact hKnown

theorem singleTable? {x : TableId} (hx : types.singleTable? = some x) : s.KnowsTable x := by
  rw [TypeSet.singleTable?] at hx
  split at hx <;> cases hx
  rename_i hTables
  exact h.mem_tables (hTables ▸ mem_singleton_self x)

theorem singleFunction? {id : FunctionId} (hId : types.singleFunction? = some id) :
    s.KnowsFunction id := by
  rw [TypeSet.singleFunction?] at hId
  split at hId <;> cases hId
  rename_i hFunctions
  exact h.mem_functions (hFunctions ▸ mem_singleton_self id)

/-- Uses only rule types out. -/
theorem narrowUnder (w : Inference) (key : UsageKey) : s.KnowsTypes (w.narrowUnder key types) := by
  unfold Inference.narrowUnder narrowBy
  split
  · split
    · exact h
    · exact h.subset fun tag hTag => (mem_allowedPart.1 hTag).1
  · exact h

end KnowsTypes

/-! ## Filling in what is unknown -/

/-- Terms and functions that are the same as those of a context wherever it knows them. -/
structure Fills (s : Inference) (terms : Arena)
    (functions : OrderedMap FunctionId FunctionRecord) : Prop where
  size_le : s.terms.size ≤ terms.size
  term_eq : ∀ v, s.KnowsTerm v → terms.get v = s.term v
  function_eq : ∀ id, s.KnowsFunction id → functions.find? id = s.function? id

/-- A context with other terms and functions. -/
def filled (s : Inference) (terms : Arena) (functions : OrderedMap FunctionId FunctionRecord) :
    Inference :=
  { s with terms, functions }

theorem Fills.self (s : Inference) : s.Fills s.terms s.functions :=
  ⟨Nat.le_refl _, fun _ _ => rfl, fun _ _ => rfl⟩

section Filled

variable {s : Inference} {terms : Arena} {functions : OrderedMap FunctionId FunctionRecord}
variable {v : TermId}

theorem Fills.term_filled (h : s.Fills terms functions) (hv : s.KnowsTerm v) :
    (s.filled terms functions).term v = s.term v :=
  h.term_eq v hv

theorem Fills.function?_filled (h : s.Fills terms functions) {id : FunctionId}
    (hId : s.KnowsFunction id) : (s.filled terms functions).function? id = s.function? id :=
  h.function_eq id hId

theorem Fills.tableLiteral?_eq (h : s.Fills terms functions) (hv : s.KnowsTerm v) :
    terms.tableLiteral? v = s.terms.tableLiteral? v := by
  rw [Arena.tableLiteral?, h.term_eq v hv]
  rfl

theorem Fills.functionLiteral?_eq (h : s.Fills terms functions) (hv : s.KnowsTerm v) :
    terms.functionLiteral? v = s.terms.functionLiteral? v := by
  rw [Arena.functionLiteral?, h.term_eq v hv]
  rfl

theorem fieldDefinitions_filled (x : TableId) (key : String) :
    (s.filled terms functions).fieldDefinitions x key = s.fieldDefinitions x key := by
  have hWithin : ∀ limit x, (s.filled terms functions).fieldDefinitionsWithin key limit x =
      s.fieldDefinitionsWithin key limit x := by
    intro limit
    induction limit with
    | zero => exact fun _ => rfl
    | succ limit ih =>
      intro x
      have hTable : (s.filled terms functions).table? x = s.table? x := rfl
      simp only [fieldDefinitionsWithin, hTable, ih]
  exact hWithin _ x

theorem Fills.standing_filled (h : s.Fills terms functions) {defs : List Definition}
    (hDefs : ∀ d ∈ defs, s.KnowsTerm d.value) :
    (s.filled terms functions).standing defs = s.standing defs := by
  refine filter_congr fun d hd => ?_
  show (!(((terms.tableLiteral? d.value).bind s.table?).map TableRecord.isSuperseded).getD false)
    = !s.isSuperseded d.value
  rw [h.tableLiteral?_eq (hDefs d hd)]
  rfl

theorem Fills.narrow_filled (h : s.Fills terms functions) (hv : s.KnowsTerm v) (types : TypeSet) :
    (s.filled terms functions).narrow v types = s.narrow v types := by
  rw [narrow, usageKey, h.term_filled hv]
  rfl

/-- Whether a term is constant is decided among the terms before it, so the size of the
arena does not matter. -/
theorem Fills.isConstant_filled (h : s.Fills terms functions) (hs : s.Grounded)
    (hv : s.KnowsTerm v) : (s.filled terms functions).isConstant v = s.isConstant v := by
  have hWithin : ∀ limit limit' v, s.KnowsTerm v → v.index < limit → v.index < limit' →
      (s.filled terms functions).isConstantWithin limit' v = s.isConstantWithin limit v := by
    intro limit
    induction limit with
    | zero => exact fun _ _ _ hLt => absurd hLt (Nat.not_lt_zero _)
    | succ limit ih =>
      intro limit' v hv hLt hLt'
      obtain ⟨limit', rfl⟩ := Nat.exists_eq_add_one_of_ne_zero (Nat.ne_zero_of_lt hLt')
      rw [isConstantWithin, isConstantWithin, h.term_filled hv]
      split
      · rfl
      · rfl
      · rfl
      · rename_i operand rest hTerm
        have hPart : operand ∈ (s.term v).parts := by
          rw [hTerm]
          exact mem_cons_self
        have hBefore := hs.part_lt v operand hPart
        exact ih limit' operand ((hs.term v).part operand hPart) (by omega) (by omega)
      · rfl
  exact hWithin _ _ v hv hv (Nat.lt_of_lt_of_le hv h.size_le)

end Filled

variable {s : Inference}

/-- The definitions of a field are stored somewhere. -/
theorem Grounded.knowsTerm_of_fieldDefinitions (hs : s.Grounded) {x : TableId} {key : String}
    {d : Definition} (hd : d ∈ s.fieldDefinitions x key) : s.KnowsTerm d.value := by
  have hWithin : ∀ limit x, d ∈ s.fieldDefinitionsWithin key limit x → s.KnowsTerm d.value := by
    intro limit
    induction limit with
    | zero =>
      intro x hd
      cases hd
    | succ limit ih =>
      intro x hd
      rw [fieldDefinitionsWithin] at hd
      split at hd
      · cases hd
      · rename_i t hTable
        split at hd
        · split at hd
          · exact ih _ hd
          · cases hd
        · exact hs.knowsTerm_of_stored hTable hd
  exact hWithin _ x hd

/-- The values at a slot are among the values of all slots. -/
theorem mem_flatten_of_mem_slot {α : Type} {slots : List (List α)} {slot : Nat} {a : α}
    (h : a ∈ (slots[slot]?).getD []) : a ∈ slots.flatten := by
  cases hSlot : slots[slot]? with
  | none => simp [hSlot] at h
  | some values =>
    rw [hSlot, Option.getD_some] at h
    exact mem_flatten.2 ⟨values, mem_of_getElem? hSlot, h⟩

/-- The values that a require leads to are returned by some module. -/
theorem mem_returns_of_require (s : Inference) {target : Option String} {slot : Nat}
    {d : Definition}
    (hd : d ∈ ((target.bind s.moduleNamed?).bind fun record => record.returns[slot]?).getD []) :
    ∃ m ∈ s.modules, d ∈ m.returns.flatten := by
  cases hModule : target.bind s.moduleNamed? with
  | none => simp [hModule] at hd
  | some m =>
    rw [hModule, Option.bind_some] at hd
    obtain ⟨name, -, hNamed⟩ := Option.bind_eq_some_iff.1 hModule
    exact ⟨m, mem_of_find?_eq_some hNamed, mem_flatten_of_mem_slot hd⟩

theorem Grounded.knowsTypes_literal (hs : s.Grounded) {value : Literal}
    (h : s.LinksTerm (.literal value)) : s.KnowsTypes (s.literalTypes value) := by
  unfold literalTypes
  split
  · exact .single trivial
  · exact .single trivial
  · exact .single trivial
  · exact .single trivial
  · exact .single trivial
  · exact .single (h.function _ rfl)
  · rename_i x
    split
    · rename_i owner hOwner
      obtain ⟨t, hTable, hInstance⟩ := Option.bind_eq_some_iff.1 hOwner
      refine .of fun tag hTag => ?_
      rcases mem_cons.1 hTag with rfl | hTag
      · exact ((hs.table x t hTable).owner owner hInstance).1.1
      · rw [mem_singleton.1 hTag]
        trivial
    · exact .single (h.table x rfl)

/-! ## Computations that are alike -/

/-- A memo of known types. -/
def KnowsSeen (s : Inference) (seen : Seen) : Prop :=
  ∀ id types, seen.find? id = some types → s.KnowsTypes types

theorem KnowsSeen.insert {s : Inference} {seen : Seen} (h : s.KnowsSeen seen) (id : TermId)
    {types : TypeSet} (hTypes : s.KnowsTypes types) : s.KnowsSeen (seen.insert id types) := by
  intro other found hFound
  rw [OrderedMap.insert, OrderedMap.find?_upsert] at hFound
  split at hFound
  · cases hFound
    exact hTypes
  · exact h other found hFound

/-- From every memo of known types, two computations give the same known types, and leave a memo
of known types. -/
def alike (s : Inference) : Correspondence (StateM Seen) (StateM Seen) s.KnowsTypes where
  Rel x y := ∀ seen, s.KnowsSeen seen →
    y.run seen = x.run seen ∧ s.KnowsTypes (x.run seen).1 ∧ s.KnowsSeen (x.run seen).2
  pure h := fun _ hSeen => ⟨rfl, h, hSeen⟩
  bind := by
    intro x y f g hx hf seen hSeen
    obtain ⟨hEq, hTypes, hNext⟩ := hx seen hSeen
    obtain ⟨hEq', hTypes', hLast⟩ := hf _ hTypes _ hNext
    refine ⟨?_, hTypes', hLast⟩
    rw [StateT.run_bind, StateT.run_bind, hEq]
    exact hEq'

/-- A context and one that fills it in are the same to rules about known terms. -/
theorem Fills.concord {terms : Arena} {functions : OrderedMap FunctionId FunctionRecord}
    (hFills : s.Fills terms functions) (hs : s.Grounded) :
    s.Concord (s.filled terms functions) s.KnowsTerm s.KnowsTypes where
  of_plain := by
    intro types hTables hFunctions tag hTag
    cases tag with
    | tableRef x =>
      have hMem : x ∈ types.tables := mem_filterMap.2 ⟨_, hTag, rfl⟩
      simp [hTables] at hMem
    | functionRef x =>
      have hMem : x ∈ types.functions := mem_filterMap.2 ⟨_, hTag, rfl⟩
      simp [hFunctions] at hMem
    | _ => trivial
  falsyPart := KnowsTypes.falsyPart
  truthyPart := KnowsTypes.truthyPart
  union := KnowsTypes.union
  insert h hTag := h.insert (by rcases hTag with rfl | rfl <;> trivial)
  definitions ident := ⟨rfl, hFills.standing_filled (hs.definition ident), hs.definition ident⟩
  isModuleLevel := rfl
  fields owner key := by
    rw [fieldDefinitions_filled]
    exact ⟨hFills.standing_filled fun d hd => hs.knowsTerm_of_fieldDefinitions hd,
      fun d hd => hs.knowsTerm_of_fieldDefinitions hd⟩
  modules := rfl
  returned target slot d hd := by
    obtain ⟨m, hm, hReturn⟩ := s.mem_returns_of_require hd
    exact hs.returned m hm d hReturn
  term hId := ⟨hFills.term_filled hId, (hs.term _).part⟩
  literal hId hTerm := ⟨rfl, hs.knowsTypes_literal (hTerm ▸ hs.term _)⟩
  isConstant := hFills.isConstant_filled hs
  function hTypes hId := by
    have hKnown := hTypes.singleFunction? hId
    refine ⟨hFills.function?_filled hKnown, fun f hFunction => ?_⟩
    have hLinks := hs.function _ f hFunction
    refine ⟨fun owner hOwner => .of fun tag hTag => ?_, fun _ v hv =>
      hLinks.returned v (mem_flatten_of_mem_slot hv)⟩
    rcases mem_cons.1 hTag with rfl | hTag
    · exact (hLinks.constructs owner hOwner).1
    · rw [mem_singleton.1 hTag]
      trivial

/-! ## Resolution -/

section Resolution

variable {s : Inference} {terms : Arena} {functions : OrderedMap FunctionId FunctionRecord}
variable {id : TermId}

theorem alike_typesWithin (hs : s.Grounded) (hFills : s.Fills terms functions) (depth : Nat)
    (hId : s.KnowsTerm id) :
    s.alike.Rel (s.typesWithin depth id) ((s.filled terms functions).typesWithin depth id) := by
  induction depth generalizing id with
  | zero =>
    refine fun seen hSeen => ⟨rfl, ?_, hSeen⟩
    show s.KnowsTypes ((seen.find? id).getD .empty)
    cases hFound : seen.find? id with
    | none => exact .empty
    | some found => exact hSeen id found hFound
  | succ depth ih =>
    intro seen hSeen
    cases hFound : seen.find? id with
    | some found =>
      rw [run_typesWithin_of_seen _ _ hFound, run_typesWithin_of_seen _ _ hFound]
      exact ⟨rfl, hSeen id found hFound, hSeen⟩
    | none =>
      rw [run_typesWithin_of_new _ _ hFound, run_typesWithin_of_new _ _ hFound]
      obtain ⟨hEq, hTypes, hLast⟩ := s.alike.termRule (hFills.concord hs) (fun _ => ih) id hId
        (seen.insert id .empty) (hSeen.insert id .empty)
      have hNarrow : s.KnowsTypes (s.narrow id _) := hTypes.narrowUnder s (s.usageKey id)
      dsimp only
      rw [hFills.term_filled hId, hEq, hFills.narrow_filled hId]
      exact ⟨rfl, hNarrow, hLast.insert id hNarrow⟩

theorem knowsSeen_empty (s : Inference) : s.KnowsSeen .empty := by
  intro id types h
  cases h

/-- The types of a known term do not depend on what stands behind unknown numbers. -/
theorem Fills.resolve_filled (hFills : s.Fills terms functions) (hs : s.Grounded)
    (hId : s.KnowsTerm id) : (s.filled terms functions).resolve id = s.resolve id :=
  congrArg Prod.fst (alike_typesWithin hs hFills maxDepth hId .empty s.knowsSeen_empty).1

/-- The types of a known term name known tables and functions. -/
theorem Grounded.knowsTypes_resolve (hs : s.Grounded) (hId : s.KnowsTerm id) :
    s.KnowsTypes (s.resolve id) :=
  (alike_typesWithin hs (.self s) maxDepth hId .empty s.knowsSeen_empty).2.1

theorem Fills.identTypes_filled (hFills : s.Fills terms functions) (hs : s.Grounded)
    (ident : Ident) : (s.filled terms functions).identTypes ident = s.identTypes ident := by
  have hRule := s.alike.identRule (hFills.concord hs)
    (fun _ => alike_typesWithin hs hFills maxDepth) ident .empty s.knowsSeen_empty
  rw [identTypes, hRule.1]
  rfl

/-- The types of a name name known tables and functions. -/
theorem Grounded.knowsTypes_identTypes (hs : s.Grounded) (ident : Ident) :
    s.KnowsTypes (s.identTypes ident) := by
  have hRule := s.alike.identRule ((Fills.self s).concord hs)
    (fun _ => alike_typesWithin hs (.self s) maxDepth) ident .empty s.knowsSeen_empty
  exact hRule.2.1.narrowUnder s _

/-- The class that a known term stands for is known. -/
theorem Grounded.knowsTable_of_classTable? (hs : s.Grounded) (hId : s.KnowsTerm id) {x : TableId}
    (hx : s.classTable? id = some x) : s.KnowsTable x := by
  obtain ⟨y, hy, rfl⟩ := Option.map_eq_some_iff.1 hx
  exact hs.knowsTable_classOrSelf ((hs.knowsTypes_resolve hId).singleTable? hy)

end Resolution

end LuaShape.Inference
