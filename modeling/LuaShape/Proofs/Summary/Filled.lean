import Mathlib.Data.List.Basic
import LuaShape.Proofs.Inference.GroundedReading
import LuaShape.Proofs.Project.Chunks

/-!
# Summaries stay within what is known

The summary of a grounded context does not depend on what stands behind numbers that it
does not know.  As for resolution, this is said by putting other terms and functions there
(`filled`): no part of a summary changes.  The tables that the names, the returns and the
fields of a module lead to are known.

Main result: `no_dangling_numbers`.
-/

namespace LuaShape.Inference

open List

/-- Definitions that give known terms. -/
def KnowsDefinitions (s : Inference) (defs : List Definition) : Prop :=
  ∀ d ∈ defs, s.KnowsTerm d.value

/-! ## What is known where -/

namespace Grounded

variable {s : Inference}
variable {x : TableId} {t : TableRecord} {defs : List Definition}

/-- The definitions in an entry of a known table. -/
theorem knowsDefinitions_entry (hs : s.Grounded) (hTable : s.table? x = some t)
    {entry : String × List Definition} (hEntry : entry ∈ t.fields.entries) :
    s.KnowsDefinitions entry.2 := by
  intro d hd
  refine hs.stored d.value ⟨x, entry.1, ?_⟩
  have hGet : t.fields.get entry.1 = entry.2 := by
    rw [OrderedMap.get, OrderedMap.find?_eq_some_iff.2 hEntry, Option.getD_some]
  rw [stored, hTable]
  show d.value ∈ (t.fields.get entry.1).map Definition.value
  rw [hGet]
  exact mem_map_of_mem hd

theorem knowsDefinitions_fields (hs : s.Grounded) (hTable : s.table? x = some t) :
    s.KnowsDefinitions t.fields.values.flatten := by
  intro d hd
  obtain ⟨defs, hDefs, hd⟩ := mem_flatten.1 hd
  obtain ⟨entry, hEntry, rfl⟩ := mem_map.1 hDefs
  exact hs.knowsDefinitions_entry hTable hEntry d hd

theorem knowsDefinitions_global (hs : s.Grounded) (index : Nat) (name : String) :
    s.KnowsDefinitions (s.globalDefinitions index name) :=
  fun d hd => hs.definition _ d (mem_filter.1 hd).1

theorem knowsDefinitions_return (hs : s.Grounded) {m : ModuleRecord} (hm : m ∈ s.modules)
    (hDefs : defs ∈ m.returns) : s.KnowsDefinitions defs :=
  fun d hd => hs.returned m hm d (mem_flatten.2 ⟨defs, hDefs, hd⟩)

/-- A table that is listed is found under its number. -/
theorem table?_of_mem_values (hs : s.Grounded) (ht : t ∈ s.tables.values) :
    s.table? t.id = some t := by
  obtain ⟨⟨x, t'⟩, hEntry, rfl⟩ := mem_map.1 ht
  have hTable : s.table? x = some t' := OrderedMap.find?_eq_some_iff.2 hEntry
  rw [(hs.table x t' hTable).id_eq]
  exact hTable

theorem knowsTable_tableValues (hs : s.Grounded) (hx : x ∈ s.tableValues defs) :
    s.KnowsTable x := by
  obtain ⟨d, -, hd⟩ := mem_filterMap.1 hx
  exact hs.knowsTable_of_tableLiteral? hd

/-- The tables that the names and the returns of a module lead to are known. -/
theorem knowsTable_tableSeeds (hs : s.Grounded) (index : Nat) {m : ModuleRecord}
    (hm : m ∈ s.modules) (hx : x ∈ s.tableSeeds index m) : s.KnowsTable x := by
  rcases mem_append.1 hx with hx | hx
  · rcases mem_append.1 hx with hx | hx
    · obtain ⟨name, -, hx⟩ := mem_flatMap.1 hx
      exact hs.knowsTable_tableValues hx
    · obtain ⟨symbol, -, hx⟩ := mem_flatMap.1 hx
      exact hs.knowsTable_tableValues hx
  · obtain ⟨d, hd, hx⟩ := mem_flatMap.1 hx
    exact (hs.knowsTypes_resolve (hs.returned m hm d hd)).mem_tables hx

/-- The function that definitions give first is known. -/
theorem function?_of_firstFunction? (hs : s.Grounded) {f : FunctionRecord}
    (h : s.firstFunction? defs = some f) : s.function? f.id = some f := by
  obtain ⟨id, -, hFunction⟩ := Option.bind_eq_some_iff.1 h
  rw [(hs.function id f hFunction).id_eq]
  exact hFunction

end Grounded

/-! ## Parts of a summary -/

namespace Fills

variable {s : Inference} {terms : Arena} {functions : OrderedMap FunctionId FunctionRecord}
variable {defs : List Definition} {x : TableId} {t : TableRecord} {m : ModuleRecord}

theorem typesOf_filled (h : s.Fills terms functions) (hs : s.Grounded)
    (hDefs : s.KnowsDefinitions defs) :
    (s.filled terms functions).typesOf defs = s.typesOf defs := by
  rw [typesOf, h.standing_filled hDefs, typesOf]
  refine foldl_ext _ _ _ fun types d hd => ?_
  rw [h.resolve_filled hs (hDefs d (mem_filter.1 hd).1)]

theorem literalText?_filled (h : s.Fills terms functions) (hDefs : s.KnowsDefinitions defs) :
    (s.filled terms functions).literalText? defs = s.literalText? defs := by
  unfold literalText?
  split
  · rename_i only
    rw [h.term_filled (hDefs only mem_cons_self)]
  · rfl

theorem valueSummary_filled (h : s.Fills terms functions) (hDefs : s.KnowsDefinitions defs)
    (types : TypeSet) :
    (s.filled terms functions).valueSummary defs types = s.valueSummary defs types := by
  rw [valueSummary, h.literalText?_filled hDefs]
  rfl

theorem parameterTypes_filled (h : s.Fills terms functions) (hs : s.Grounded)
    (symbol : SymbolId) :
    (s.filled terms functions).parameterTypes symbol = s.parameterTypes symbol := by
  rw [parameterTypes, h.identTypes_filled hs]
  rfl

theorem returnTypes_filled (h : s.Fills terms functions) (hs : s.Grounded)
    {values : List TermId} (hValues : ∀ v ∈ values, s.KnowsTerm v) :
    (s.filled terms functions).returnTypes values = s.returnTypes values := by
  rw [returnTypes, returnTypes]
  refine congrArg s.finalTypes (foldl_ext _ _ _ fun types v hv => ?_)
  rw [h.resolve_filled hs (hValues v hv)]

theorem functionSummary_filled (h : s.Fills terms functions) (hs : s.Grounded)
    {f : FunctionRecord} (hf : s.function? f.id = some f) (name : String) :
    (s.filled terms functions).functionSummary f name = s.functionSummary f name := by
  have hReturns : f.returns.map (s.filled terms functions).returnTypes =
      f.returns.map s.returnTypes := by
    refine map_congr_left fun values hValues => h.returnTypes_filled hs fun v hv => ?_
    exact (hs.function f.id f hf).returned v (mem_flatten.2 ⟨values, hValues, hv⟩)
  simp only [functionSummary, hReturns, h.parameterTypes_filled hs]

theorem firstFunction?_filled (h : s.Fills terms functions) (hs : s.Grounded)
    (hDefs : s.KnowsDefinitions defs) :
    (s.filled terms functions).firstFunction? defs = s.firstFunction? defs := by
  have hLiteral : (defs.findSome? fun d => terms.functionLiteral? d.value) =
      defs.findSome? fun d => s.terms.functionLiteral? d.value := by
    induction defs with
    | nil => rfl
    | cons d rest ih =>
      rw [findSome?_cons, findSome?_cons,
        h.functionLiteral?_eq (hDefs d mem_cons_self),
        ih fun d' hd' => hDefs d' (mem_cons_of_mem _ hd')]
  show (defs.findSome? fun d => terms.functionLiteral? d.value).bind functions.find? = _
  rw [hLiteral, firstFunction?]
  cases hFound : defs.findSome? fun d => s.terms.functionLiteral? d.value with
  | none => rfl
  | some id =>
    obtain ⟨d, -, hd⟩ := exists_of_findSome?_eq_some hFound
    exact h.function_eq id (hs.knowsFunction_of_functionLiteral? hd)

theorem fieldSummary_filled (h : s.Fills terms functions) (hs : s.Grounded) (name : String)
    (hDefs : s.KnowsDefinitions defs) (isInstance : Bool) :
    (s.filled terms functions).fieldSummary name defs isInstance =
      s.fieldSummary name defs isInstance := by
  rw [fieldSummary, h.typesOf_filled hs hDefs, h.valueSummary_filled hDefs]
  rfl

/-! ## Classes -/

theorem tableName_filled (x : TableId) :
    (s.filled terms functions).tableLabel? x = s.tableLabel? x ∧
      (s.filled terms functions).tableName x = s.tableName x := by
  have hWithin : ∀ limit x, (s.filled terms functions).tableLabelWithin limit x =
      s.tableLabelWithin limit x := by
    intro limit
    induction limit with
    | zero => exact fun _ => rfl
    | succ limit ih =>
      intro x
      have hTable : (s.filled terms functions).table? x = s.table? x := rfl
      simp only [tableLabelWithin, hTable, ih]
  have hLabel : (s.filled terms functions).tableLabel? x = s.tableLabel? x := hWithin _ x
  exact ⟨hLabel, by rw [tableName, hLabel, tableName]⟩

theorem valueMember?_filled (h : s.Fills terms functions) (hs : s.Grounded) (key : String)
    {values : List Definition} (hValues : s.KnowsDefinitions values) :
    (s.filled terms functions).valueMember? key values = s.valueMember? key values := by
  rw [valueMember?, h.fieldSummary_filled hs key hValues, valueMember?]

theorem member?_filled (h : s.Fills terms functions) (hs : s.Grounded) (key : String)
    (hDefs : s.KnowsDefinitions defs) :
    (s.filled terms functions).member? key defs = s.member? key defs := by
  have hValues : (defs.filter fun d => !(s.filled terms functions).isFunction d) =
      defs.filter fun d => !s.isFunction d := by
    refine filter_congr fun d hd => ?_
    show (!(terms.functionLiteral? d.value).isSome) = !(s.terms.functionLiteral? d.value).isSome
    rw [h.functionLiteral?_eq (hDefs d hd)]
  have hKept : s.KnowsDefinitions (defs.filter fun d => !s.isFunction d) :=
    fun d hd => hDefs d (mem_filter.1 hd).1
  unfold member?
  rw [hValues, h.firstFunction?_filled hs hDefs]
  dsimp only
  rw [h.typesOf_filled hs fun d hd => hKept d (mem_filter.1 hd).1,
    h.valueMember?_filled hs key hKept]
  cases hFunction : s.firstFunction? defs with
  | none => rfl
  | some f =>
    dsimp only
    rw [h.functionSummary_filled hs (hs.function?_of_firstFunction? hFunction)]

theorem classMembers_filled (h : s.Fills terms functions) (hs : s.Grounded)
    (hTable : s.table? x = some t) :
    (s.filled terms functions).classMembers t = s.classMembers t := by
  refine congrArg (List.foldl ClassMembers.add {}) (filterMap_congr fun entry hEntry => ?_)
  exact h.member?_filled hs entry.1 (hs.knowsDefinitions_entry hTable hEntry)

theorem ancestors_filled (parent : Option String) :
    (s.filled terms functions).ancestors parent = s.ancestors parent := by
  have hName : (s.filled terms functions).tableName = s.tableName :=
    funext fun x => (tableName_filled x).2
  have hWithin : ∀ limit parent, (s.filled terms functions).ancestorsWithin limit parent =
      s.ancestorsWithin limit parent := by
    intro limit
    induction limit with
    | zero => rintro (_ | _) <;> rfl
    | succ limit ih =>
      rintro (_ | name)
      · rfl
      · have hNamed : (s.filled terms functions).classNamed? name = s.classNamed? name := rfl
        simp only [ancestorsWithin, hNamed, hName, ih]
  exact congrArg List.eraseDups (hWithin _ parent)

theorem ownMembers_filled (h : s.Fills terms functions) (hs : s.Grounded)
    (hTable : s.table? x = some t) (parent : Option String) :
    (s.filled terms functions).ownMembers t parent = s.ownMembers t parent := by
  rw [ownMembers, h.classMembers_filled hs hTable, ancestors_filled, ownMembers]
  refine foldl_ext _ _ _ fun members ancestor hAncestor => ?_
  obtain ⟨y, -, hy⟩ := mem_filterMap.1 hAncestor
  rw [h.classMembers_filled hs hy]

theorem moduleClasses_filled (h : s.Fills terms functions) (hs : s.Grounded) (index : Nat) :
    (s.filled terms functions).moduleClasses index = s.moduleClasses index := by
  have hName : (s.filled terms functions).tableName = s.tableName :=
    funext fun x => (tableName_filled x).2
  refine filterMap_congr fun t ht => ?_
  have hTable := hs.table?_of_mem_values ht
  cases t.classInfo with
  | none => rfl
  | some info =>
    simp only [classSummary, hName, h.ownMembers_filled hs hTable]

/-! ## Tables -/

theorem tableValues_filled (h : s.Fills terms functions) (hDefs : s.KnowsDefinitions defs) :
    (s.filled terms functions).tableValues defs = s.tableValues defs :=
  filterMap_congr fun d hd => h.tableLiteral?_eq (hDefs d hd)

theorem tableSeeds_filled (h : s.Fills terms functions) (hs : s.Grounded) (index : Nat)
    (hm : m ∈ s.modules) :
    (s.filled terms functions).tableSeeds index m = s.tableSeeds index m := by
  have hGlobals : ∀ name, (s.filled terms functions).tableValues
      ((s.filled terms functions).globalDefinitions index name) =
        s.tableValues (s.globalDefinitions index name) := fun name =>
    h.tableValues_filled (hs.knowsDefinitions_global index name)
  have hLocals : ∀ symbol, (s.filled terms functions).tableValues
      ((s.filled terms functions).definitionsOf (.bound symbol)) =
        s.tableValues (s.definitionsOf (.bound symbol)) := fun symbol =>
    h.tableValues_filled (hs.definition (.bound symbol))
  have hReturns : (m.returns.flatten.flatMap fun d =>
      ((s.filled terms functions).resolve d.value).tables) =
        m.returns.flatten.flatMap fun d => (s.resolve d.value).tables := by
    refine flatMap_congr fun d hd => ?_
    rw [h.resolve_filled hs (hs.returned m hm d hd)]
  simp only [tableSeeds, hGlobals, hLocals, hReturns]

theorem nestedTables_filled (h : s.Fills terms functions) (hs : s.Grounded)
    (hTable : s.table? x = some t) : (s.filled terms functions).nestedTables t = s.nestedTables t :=
  h.tableValues_filled (hs.knowsDefinitions_fields hTable)

theorem reach_filled (h : s.Fills terms functions) (hs : s.Grounded) (index limit : Nat)
    (found : SortedSet TableId) (queue : List TableId) :
    (s.filled terms functions).reach index limit found queue =
      s.reach index limit found queue := by
  induction limit generalizing found queue with
  | zero => rfl
  | succ limit ih =>
    cases queue with
    | nil => rfl
    | cons id queue =>
      have hSame : (s.filled terms functions).table? id = s.table? id := rfl
      rw [reach, reach, hSame]
      cases hTable : s.table? id with
      | none => exact ih found queue
      | some t => simp only [ih, h.nestedTables_filled hs hTable]

theorem relevantTables_filled (h : s.Fills terms functions) (hs : s.Grounded) (index : Nat)
    (hm : m ∈ s.modules) :
    (s.filled terms functions).relevantTables index m = s.relevantTables index m := by
  have hStored : s.tables.values.flatMap (s.filled terms functions).nestedTables =
      s.tables.values.flatMap s.nestedTables :=
    flatMap_congr fun t ht => h.nestedTables_filled hs (hs.table?_of_mem_values ht)
  have hReachable : (s.filled terms functions).reachable index
      ((s.filled terms functions).tableSeeds index m) =
        s.reachable index (s.tableSeeds index m) := by
    rw [h.tableSeeds_filled hs index hm, reachable, h.reach_filled hs, reachable]
    show s.reach index (_ + (s.tables.values.flatMap
      (s.filled terms functions).nestedTables).length) _ _ = _
    rw [hStored]
  rw [relevantTables, hReachable]
  rfl

theorem tableSummary_filled (h : s.Fills terms functions) (hs : s.Grounded) (m : ModuleRecord)
    (hTable : s.table? x = some t) :
    (s.filled terms functions).tableSummary m t = s.tableSummary m t := by
  rw [tableSummary, tableSummary, (tableName_filled t.id).1]
  congr 1
  · refine filterMap_congr fun entry hEntry => ?_
    have hDefs := hs.knowsDefinitions_entry hTable hEntry
    dsimp only
    rw [h.firstFunction?_filled hs hDefs, h.fieldSummary_filled hs entry.1 hDefs]
  · refine filterMap_congr fun entry hEntry => ?_
    dsimp only
    rw [h.firstFunction?_filled hs (hs.knowsDefinitions_entry hTable hEntry)]
    refine Option.map_congr fun f hf => ?_
    exact h.functionSummary_filled hs (hs.function?_of_firstFunction? hf) entry.1

/-! ## Modules -/

theorem globalFunction?_filled (h : s.Fills terms functions) (hs : s.Grounded) (index : Nat)
    (name : String) :
    (s.filled terms functions).globalFunction? index name = s.globalFunction? index name := by
  have hDefs : (s.filled terms functions).globalDefinitions index name =
      s.globalDefinitions index name := rfl
  rw [globalFunction?, hDefs,
    h.firstFunction?_filled hs (hs.knowsDefinitions_global index name), globalFunction?]
  refine Option.map_congr fun f hf => ?_
  exact h.functionSummary_filled hs (hs.function?_of_firstFunction? hf) name

theorem globalField?_filled (h : s.Fills terms functions) (hs : s.Grounded) (index : Nat)
    (name : String) :
    (s.filled terms functions).globalField? index name = s.globalField? index name := by
  have hDefs : (s.filled terms functions).globalDefinitions index name =
      s.globalDefinitions index name := rfl
  have hKnown := hs.knowsDefinitions_global index name
  unfold globalField?
  rw [hDefs, h.identTypes_filled hs]
  dsimp only
  rw [h.firstFunction?_filled hs hKnown, h.valueSummary_filled hKnown]
  rfl

theorem moduleSummary_filled (h : s.Fills terms functions) (hs : s.Grounded) (index : Nat)
    (hm : m ∈ s.modules) :
    (s.filled terms functions).moduleSummary index m = s.moduleSummary index m := by
  have hTables : (s.relevantTables index m).map ((s.filled terms functions).tableSummary m) =
      (s.relevantTables index m).map (s.tableSummary m) := by
    refine map_congr_left fun t ht => ?_
    obtain ⟨x, -, hTable⟩ := mem_filterMap.1 (mem_filter.1 ht).1
    exact h.tableSummary_filled hs m hTable
  have hReturns : (m.returns.map fun defs => (s.filled terms functions).valueSummary defs
      ((s.filled terms functions).typesOf defs)) =
        m.returns.map fun defs => s.valueSummary defs (s.typesOf defs) := by
    refine map_congr_left fun defs hDefs => ?_
    have hKnown := hs.knowsDefinitions_return hm hDefs
    rw [h.typesOf_filled hs hKnown, h.valueSummary_filled hKnown]
  have hFunctions : (s.filled terms functions).globalFunction? index = s.globalFunction? index :=
    funext (h.globalFunction?_filled hs index)
  have hFields : (s.filled terms functions).globalField? index = s.globalField? index :=
    funext (h.globalField?_filled hs index)
  rw [moduleSummary, moduleSummary, h.moduleClasses_filled hs, h.relevantTables_filled hs index hm,
    hTables, hReturns, hFunctions, hFields]

/-- A summary does not depend on what stands behind unknown numbers. -/
theorem moduleSummaries_filled (h : s.Fills terms functions) (hs : s.Grounded) :
    (s.filled terms functions).moduleSummaries = s.moduleSummaries := by
  refine filterMap_congr fun entry hEntry => ?_
  obtain ⟨m, index⟩ := entry
  dsimp only
  rw [h.moduleSummary_filled hs index (fst_mem_of_mem_zipIdx hEntry)]

/-! ## Arguments -/

theorem argumentDefinitions_filled (h : s.Fills terms functions) (hs : s.Grounded)
    {site : CallSite} (hSite : site ∈ s.calls) :
    (s.filled terms functions).argumentDefinitions site = s.argumentDefinitions site := by
  have hParts : (s.filled terms functions).terms.callParts? site.call =
      s.terms.callParts? site.call := by
    show terms.callParts? site.call = _
    rw [Arena.callParts?, h.term_eq _ (hs.call site hSite)]
    rfl
  rw [argumentDefinitions, hParts, argumentDefinitions]
  cases hCall : s.terms.callParts? site.call with
  | none => rfl
  | some call =>
    have hCallee := (hs.knowsTerm_of_callParts? hCall).1
    dsimp only
    rw [h.resolve_filled hs hCallee]
    cases hFunction : (s.resolve call.1).singleFunction? with
    | none => rfl
    | some id =>
      rw [Option.bind_some, Option.bind_some,
        h.function?_filled ((hs.knowsTypes_resolve hCallee).singleFunction? hFunction)]

theorem propagateArguments_filled (h : s.Fills terms functions) (hs : s.Grounded) :
    (s.filled terms functions).propagateArguments =
      s.propagateArguments.filled terms functions := by
  have hGiven : s.calls.flatMap (s.filled terms functions).argumentDefinitions =
      s.calls.flatMap s.argumentDefinitions :=
    flatMap_congr fun site hSite => h.argumentDefinitions_filled hs hSite
  rw [propagateArguments, propagateArguments]
  by_cases hKnown : s.argumentsKnown = true
  · rw [if_pos hKnown, if_pos (show (s.filled terms functions).argumentsKnown = true from hKnown)]
  · rw [if_neg hKnown,
      if_neg (show ¬ (s.filled terms functions).argumentsKnown = true from hKnown)]
    show Inference.filled { s with
      argumentsKnown := true
      definitions := (s.calls.flatMap (s.filled terms functions).argumentDefinitions).foldl
        (fun definitions entry => definitions.push (.bound entry.1) entry.2) s.definitions }
      terms functions = _
    rw [hGiven]

theorem propagateArguments (h : s.Fills terms functions) :
    s.propagateArguments.Fills terms functions := by
  rw [Inference.propagateArguments]
  split
  · exact h
  · exact ⟨h.size_le, h.term_eq, h.function_eq⟩

end Fills

/-- **No number dangles.**  Every context that reading leads to knows all numbers that it
holds.  The types of its terms and names, and the names, returns and fields of its modules,
lead to known tables and functions only.  Neither the types of a known term nor the summary
of the modules depend on what stands behind numbers that are not known. -/
theorem no_dangling_numbers {buckets : List String} {s : Inference} (h : Reached buckets s) :
    s.Grounded ∧
      (∀ id, s.KnowsTerm id → s.KnowsTypes (s.resolve id)) ∧
      (∀ ident, s.KnowsTypes (s.identTypes ident)) ∧
      (∀ index, ∀ m ∈ s.modules, ∀ x ∈ s.tableSeeds index m, s.KnowsTable x) ∧
      (∀ t ∈ s.tables.values, ∀ x ∈ s.nestedTables t, s.KnowsTable x) ∧
      ∀ terms functions, s.Fills terms functions →
        (∀ id, s.KnowsTerm id → (s.filled terms functions).resolve id = s.resolve id) ∧
        (s.filled terms functions).propagateArguments.moduleSummaries =
          s.propagateArguments.moduleSummaries := by
  have hs := h.grounded
  refine ⟨hs, fun _ => hs.knowsTypes_resolve, hs.knowsTypes_identTypes,
    fun index _ hm _ => hs.knowsTable_tableSeeds index hm, fun _ _ _ => hs.knowsTable_tableValues,
    fun terms functions hFills => ⟨fun _ => hFills.resolve_filled hs, ?_⟩⟩
  rw [hFills.propagateArguments_filled hs]
  exact hFills.propagateArguments.moduleSummaries_filled h.propagateArguments.grounded

/-- One more term, and a function under a number that has not been given. -/
theorem Fills.beyond (s : Inference) (t : Term) {id : FunctionId} (f : FunctionRecord)
    (hId : s.registry.size ≤ id.index) :
    s.Fills (s.terms.alloc t).2 (s.functions.insert id f) := by
  refine ⟨Nat.le_of_lt (s.knowsTerm_alloc t), fun v hv => s.terms.get_alloc_of_lt t hv, fun other h => ?_⟩
  have hNe : other ≠ id := by
    rintro rfl
    exact Nat.not_lt.2 hId h.2.lt
  rw [OrderedMap.insert, OrderedMap.find?_upsert, if_neg hNe]
  rfl

set_option maxRecDepth 100000 in
/-- A call of a constructor, in a context that is given a function out of nowhere. -/
theorem constructor_call_of_filled_context :
    let files : List SourceFile :=
      [⟨"a", "F = {} function F:new() return setmetatable({}, self) end x = F:new()"⟩]
    let s := readChunks [] (files.filterMap SourceFile.chunk?)
    let terms := (s.terms.alloc (.literal (.function ⟨7⟩))).2
    let functions := s.functions.insert ⟨7⟩ { id := ⟨7⟩, module := 0, name := none }
    Reached [] s ∧ s.KnowsTerm ⟨11⟩ ∧ s.Fills terms functions ∧
      s.resolve ⟨11⟩ = .of [.tableRef ⟨1⟩, .instanceMark] ∧
      s.KnowsTypes (s.resolve ⟨11⟩) ∧
      (s.filled terms functions).resolve ⟨11⟩ = s.resolve ⟨11⟩ ∧
      (s.filled terms functions).propagateArguments.moduleSummaries =
        s.propagateArguments.moduleSummaries := by
  intro files s terms functions
  have hReached : Reached [] s := reached_readChunks [] _
  have hKnown : s.KnowsTerm ⟨11⟩ := by
    show 11 < s.terms.size
    decide +kernel
  have hFills : s.Fills terms functions := .beyond s _ _ (by decide +kernel)
  obtain ⟨-, hTypes, -, -, -, hSame⟩ := no_dangling_numbers hReached
  obtain ⟨hResolve, hSummaries⟩ := hSame terms functions hFills
  exact ⟨hReached, hKnown, hFills, by decide +kernel, hTypes _ hKnown, hResolve _ hKnown,
    hSummaries⟩

end LuaShape.Inference
