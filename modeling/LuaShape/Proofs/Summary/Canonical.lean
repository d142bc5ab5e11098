import LuaShape.Proofs.Summary.Filled
import LuaShape.Proofs.Summary.Globals
import LuaShape.Proofs.Summary.Inherited

/-!
# The type sets of a summary

Type sets get into a summary in three ways.  Most are put in their final form first
(`finalTypes`).  A parameter that no call gives a value has the types that its uses leave,
as they are.  A constructor returns its class, as it is.  All of them are canonical: they do
not hold the instance mark, have booleans merged, name at most two classes, and name only
tables and functions that have been given their numbers.  Which tables are classes is taken
from the context at the end of the run.

Main result: `reported_types_canonical`.
-/

namespace LuaShape

open List

/-! ## The type sets in a summary -/

/-- The types of the parameters and returns of a function. -/
def FunctionSummary.typeSets (f : FunctionSummary) : List TypeSet :=
  f.params.map ParamSummary.types ++ f.returns

/-- The types of a field. -/
def FieldSummary.types (f : FieldSummary) : TypeSet := f.value.types

/-- All type sets in a member of a class. -/
def Member.typeSets : Member → List TypeSet
  | .function f => f.typeSets
  | .field f => [f.types]

namespace ClassMembers

/-- All type sets in the members of a class. -/
def typeSets (c : ClassMembers) : List TypeSet :=
  c.fields.map FieldSummary.types ++
    (c.functions ++ c.methods ++ c.constructors).flatMap FunctionSummary.typeSets

variable {c : ClassMembers} {types : TypeSet}

theorem mem_typeSets_add {m : Member} (h : types ∈ (c.add m).typeSets) :
    types ∈ c.typeSets ∨ types ∈ m.typeSets := by
  cases m with
  | function f =>
    rw [add] at h
    repeat' split at h
    all_goals
      simp only [typeSets, flatMap_append, flatMap_singleton, mem_append] at h ⊢
      tauto
  | field f =>
    rw [add] at h
    split at h
    all_goals
      simp only [typeSets, fields, Member.typeSets, map_append, map_cons, map_nil,
        mem_append] at h ⊢
      tauto

theorem mem_typeSets_foldl_add {members : List Member}
    (h : types ∈ (members.foldl add c).typeSets) :
    types ∈ c.typeSets ∨ ∃ m ∈ members, types ∈ m.typeSets := by
  induction members generalizing c with
  | nil => exact .inl h
  | cons m rest ih =>
    rcases ih h with h | ⟨m', hm', h⟩
    · rcases mem_typeSets_add h with h | h
      · exact .inl h
      · exact .inr ⟨m, mem_cons_self, h⟩
    · exact .inr ⟨m', mem_cons_of_mem m hm', h⟩

theorem mem_typeSets_without {ancestor : ClassMembers}
    (h : types ∈ (c.without ancestor).typeSets) : types ∈ c.typeSets := by
  rcases mem_append.1 h with h | h
  · obtain ⟨f, hf, rfl⟩ := mem_map.1 h
    exact mem_append_left _ (mem_map_of_mem (mem_fields_without.1 hf).1)
  · exact mem_append_right _ h

theorem mem_typeSets_foldl_without {ancestors : List TableRecord}
    {members : TableRecord → ClassMembers}
    (h : types ∈ (ancestors.foldl (fun c t => c.without (members t)) c).typeSets) :
    types ∈ c.typeSets := by
  induction ancestors generalizing c with
  | nil => exact h
  | cons t rest ih => exact mem_typeSets_without (ih h)

end ClassMembers

/-- All type sets in a table. -/
def TableSummary.typeSets (t : TableSummary) : List TypeSet :=
  t.fields.map FieldSummary.types ++ t.functions.flatMap FunctionSummary.typeSets

/-- All type sets in a module. -/
def ModuleSummary.typeSets (m : ModuleSummary) : List TypeSet :=
  (m.classes.flatMap fun c => c.members.typeSets) ++ m.tables.flatMap TableSummary.typeSets ++
    m.functions.flatMap FunctionSummary.typeSets ++ m.fields.map FieldSummary.types ++
    m.returns.map ValueSummary.types

/-! ## Merged booleans -/

namespace TypeSet

variable {types : TypeSet} {tag : TypeTag}

/-- Booleans are merged: `true` and `false` stand alone, without each other or `boolean`. -/
structure IsMerged (types : TypeSet) : Prop where
  one_literal : .true ∈ types → .false ∉ types
  true_alone : .true ∈ types → .boolean ∉ types
  false_alone : .false ∈ types → .boolean ∉ types

/-- Merging takes literals away where both or `boolean` are there, and replaces both by
`boolean`. -/
theorem mem_collapseBooleans :
    tag ∈ types.collapseBooleans ↔
      (tag ∈ types ∧
        (tag = .true ∨ tag = .false → ¬ (.true ∈ types ∧ .false ∈ types) ∧ .boolean ∉ types)) ∨
      tag = .boolean ∧ .true ∈ types ∧ .false ∈ types := by
  by_cases hTrue : TypeTag.true ∈ types <;> by_cases hFalse : TypeTag.false ∈ types <;>
    by_cases hBoolean : TypeTag.boolean ∈ types <;>
    simp [collapseBooleans, SortedSet.contains, hTrue, hFalse, hBoolean] <;> tauto

theorem isMerged_collapseBooleans (types : TypeSet) : types.collapseBooleans.IsMerged := by
  constructor <;> simp [mem_collapseBooleans] <;> tauto

theorem collapseBooleans_eq_self (h : types.IsMerged) : types.collapseBooleans = types := by
  obtain ⟨h₁, h₂, h₃⟩ := h
  refine SortedSet.ext_mem fun tag => ?_
  rw [mem_collapseBooleans]
  constructor
  · rintro (⟨hTag, -⟩ | ⟨-, hTrue, hFalse⟩)
    · exact hTag
    · exact absurd hFalse (h₁ hTrue)
  · intro hTag
    refine .inl ⟨hTag, fun hLiteral => ⟨fun hBoth => h₁ hBoth.1 hBoth.2, ?_⟩⟩
    rcases hLiteral with rfl | rfl
    · exact h₂ hTag
    · exact h₃ hTag

theorem tables_eq_nil (h : ∀ x, .tableRef x ∉ types) : types.tables = [] := by
  refine filterMap_eq_nil_iff.2 fun tag hTag => ?_
  cases tag with
  | tableRef x => exact absurd hTag (h x)
  | _ => rfl

end TypeSet

/-! ## Final type sets -/

namespace Inference

/-- A type set as it is reported. -/
structure IsFinal (s : Inference) (types : TypeSet) : Prop extends types.IsMerged where
  unmarked : .instanceMark ∉ types
  few_classes : (s.classesIn types).length ≤ maxClasses

section Final

variable {s : Inference} {types : TypeSet} {tag : TypeTag}

/-- A type set that names no table names no class. -/
theorem few_classes_of_unnamed (s : Inference) (h : ∀ x, .tableRef x ∉ types) :
    (s.classesIn types).length ≤ maxClasses := by
  rw [classesIn, TypeSet.tables_eq_nil h]
  exact Nat.zero_le _

theorem mem_withoutTableNames :
    tag ∈ withoutTableNames types ↔ tag = .table ∨ tag ∈ types ∧ ∀ x, tag ≠ .tableRef x := by
  rw [withoutTableNames, SortedSet.mem_insert, SortedSet.mem_filter]
  cases tag <;> simp

theorem isFinal_finalTypes (s : Inference) (types : TypeSet) :
    s.IsFinal (s.finalTypes types) := by
  have hMerged := TypeSet.isMerged_collapseBooleans types.withoutMark
  have hUnmarked : TypeTag.instanceMark ∉ types.withoutMark.collapseBooleans := by
    simp [TypeSet.mem_collapseBooleans, TypeSet.withoutMark]
  rw [finalTypes]
  split
  · -- Neither booleans nor the mark are touched when names of tables are left out.
    refine ⟨⟨?_, ?_, ?_⟩, ?_, s.few_classes_of_unnamed fun x => ?_⟩
    · simpa [mem_withoutTableNames] using hMerged.one_literal
    · simpa [mem_withoutTableNames] using hMerged.true_alone
    · simpa [mem_withoutTableNames] using hMerged.false_alone
    · simpa [mem_withoutTableNames] using hUnmarked
    · simp [mem_withoutTableNames]
  · rename_i hFew
    exact ⟨hMerged, hUnmarked, Nat.not_lt.1 hFew⟩

theorem finalTypes_eq_self (h : s.IsFinal types) : s.finalTypes types = types := by
  have hUnmarked : types.withoutMark = types := by
    refine SortedSet.ext_mem fun tag => ?_
    rw [TypeSet.withoutMark, SortedSet.mem_erase]
    exact ⟨And.left, fun hTag => ⟨hTag, fun hMark => h.unmarked (hMark ▸ hTag)⟩⟩
  rw [finalTypes, hUnmarked, TypeSet.collapseBooleans_eq_self h.toIsMerged,
    if_neg (Nat.not_lt.2 h.few_classes)]

/-- Only `boolean` and `table` are new in the final form. -/
theorem mem_of_mem_finalTypes (h : tag ∈ s.finalTypes types) :
    tag ∈ types ∨ tag = .boolean ∨ tag = .table := by
  have hMerged : ∀ tag ∈ types.withoutMark.collapseBooleans, tag ∈ types ∨ tag = .boolean := by
    intro tag hTag
    rcases TypeSet.mem_collapseBooleans.1 hTag with ⟨hTag, -⟩ | ⟨rfl, -⟩
    · exact .inl (SortedSet.mem_erase.1 hTag).1
    · exact .inr rfl
  rw [finalTypes] at h
  split at h
  · rcases mem_withoutTableNames.1 h with rfl | ⟨h, -⟩
    · exact .inr (.inr rfl)
    · exact (hMerged tag h).imp_right .inl
  · exact (hMerged tag h).imp_right .inl

end Final

/-! ## Canonical type sets -/

/-- A type set in final form that names only tables and functions with given numbers. -/
def IsCanonical (s : Inference) (types : TypeSet) : Prop := s.IsFinal types ∧ s.KnowsTypes types

section Canonical

variable {s : Inference} {types : TypeSet}

theorem KnowsTypes.isCanonical_finalTypes (h : s.KnowsTypes types) :
    s.IsCanonical (s.finalTypes types) := by
  refine ⟨s.isFinal_finalTypes types, fun tag hTag => ?_⟩
  rcases mem_of_mem_finalTypes hTag with hTag | rfl | rfl
  · exact h tag hTag
  · trivial
  · trivial

/-- The types that uses leave are canonical as they are. -/
theorem isCanonical_of_usageDomain (h : ∀ tag ∈ types, tag ∈ TypeSet.usageDomain) :
    s.IsCanonical types := by
  have hDomain : ∀ tag ∈ types, tag ∈ [.boolean, .number, .string, .function, .table] :=
    fun tag hTag => SortedSet.mem_ofList.1 (h tag hTag)
  have hTrue : .true ∉ types := fun hTag => absurd (hDomain _ hTag) (by decide)
  have hFalse : .false ∉ types := fun hTag => absurd (hDomain _ hTag) (by decide)
  refine ⟨⟨⟨fun hTag => absurd hTag hTrue, fun hTag => absurd hTag hTrue,
    fun hTag => absurd hTag hFalse⟩, fun hTag => absurd (hDomain _ hTag) (by decide),
    s.few_classes_of_unnamed fun x hTag => absurd (hDomain _ hTag) (by simp)⟩, fun tag hTag => ?_⟩
  have hPlain := hDomain tag hTag
  cases tag <;> trivial

/-- The type of an instance is canonical as it is. -/
theorem isCanonical_single {owner : TableId} (h : s.KnowsTable owner) :
    s.IsCanonical (.single (.tableRef owner)) := by
  have hFew : (s.classesIn (.single (.tableRef owner))).length ≤ maxClasses :=
    Nat.le_trans (length_filter_le _ _) (Nat.le_succ 1)
  refine ⟨⟨⟨?_, ?_, ?_⟩, ?_, hFew⟩, .single h⟩
  all_goals simp [TypeSet.single]

theorem KnowsTypes.foldl_union {α : Type} {typesOf : α → TypeSet} {items : List α}
    (h : ∀ item ∈ items, s.KnowsTypes (typesOf item)) (hStart : s.KnowsTypes types) :
    s.KnowsTypes (items.foldl (fun types item => types.union (typesOf item)) types) := by
  induction items generalizing types with
  | nil => exact hStart
  | cons item rest ih =>
    exact ih (fun item' hItem => h item' (mem_cons_of_mem item hItem))
      (hStart.union (h item mem_cons_self))

end Canonical

/-! ## Summaries -/

namespace Grounded

variable {s : Inference} {types : TypeSet}

variable (hs : s.Grounded)
include hs

theorem isCanonical_parameterTypes (symbol : SymbolId) :
    s.IsCanonical (s.parameterTypes symbol) := by
  rw [parameterTypes]
  split
  · cases hUsage : s.usage? (.ident (.bound symbol)) with
    | none => exact isCanonical_of_usageDomain fun tag hTag => absurd hTag (by simp)
    | some types => exact isCanonical_of_usageDomain (hs.allowed _ types hUsage)
  · exact (hs.knowsTypes_identTypes _).isCanonical_finalTypes

theorem isCanonical_returnTypes {values : List TermId} (hValues : ∀ v ∈ values, s.KnowsTerm v) :
    s.IsCanonical (s.returnTypes values) :=
  KnowsTypes.isCanonical_finalTypes
    (.foldl_union (fun v hv => hs.knowsTypes_resolve (hValues v hv)) .empty)

variable {name : String} {defs : List Definition} {index : Nat}

theorem isCanonical_functionSummary {f : FunctionRecord} (hf : s.function? f.id = some f)
    (h : types ∈ (s.functionSummary f name).typeSets) : s.IsCanonical types := by
  have hLinks := hs.function f.id f hf
  rcases mem_append.1 h with h | h
  · obtain ⟨param, hParam, rfl⟩ := mem_map.1 h
    obtain ⟨entry, -, rfl⟩ := mem_map.1 hParam
    exact hs.isCanonical_parameterTypes entry.2
  · cases hOwner : f.constructs with
    | some owner =>
      rw [functionSummary, hOwner] at h
      obtain rfl := mem_singleton.1 h
      exact isCanonical_single (hLinks.constructs owner hOwner).1
    | none =>
      rw [functionSummary, hOwner] at h
      obtain ⟨values, hValues, rfl⟩ := mem_map.1 h
      exact hs.isCanonical_returnTypes fun v hv =>
        hLinks.returned v (mem_flatten.2 ⟨values, hValues, hv⟩)

/-- The function that definitions give first, summarized under any name. -/
theorem isCanonical_firstFunction {f : FunctionRecord} (hf : s.firstFunction? defs = some f)
    (h : types ∈ (s.functionSummary f name).typeSets) : s.IsCanonical types :=
  hs.isCanonical_functionSummary (hs.function?_of_firstFunction? hf) h

theorem isCanonical_typesOf (hDefs : s.KnowsDefinitions defs) :
    s.IsCanonical (s.finalTypes (s.typesOf defs)) := by
  refine KnowsTypes.isCanonical_finalTypes (.foldl_union (fun d hd => ?_) .empty)
  exact hs.knowsTypes_resolve (hDefs d (mem_filter.1 hd).1)

theorem isCanonical_valueMember {key : String} {values : List Definition}
    (hValues : s.KnowsDefinitions values) {m : Member} (hm : s.valueMember? key values = some m)
    (h : types ∈ m.typeSets) : s.IsCanonical types := by
  rw [valueMember?] at hm
  split at hm <;> cases hm
  obtain rfl := mem_singleton.1 h
  exact hs.isCanonical_typesOf hValues

theorem isCanonical_member {key : String} (hDefs : s.KnowsDefinitions defs) {m : Member}
    (hm : s.member? key defs = some m) (h : types ∈ m.typeSets) : s.IsCanonical types := by
  have hKept : s.KnowsDefinitions (defs.filter fun d => !s.isFunction d) :=
    fun d hd => hDefs d (mem_filter.1 hd).1
  rw [member?] at hm
  split at hm
  · cases hm
  · dsimp only at hm
    split at hm
    · rename_i f hf
      split at hm
      · exact hs.isCanonical_valueMember hKept hm h
      · cases hm
        exact hs.isCanonical_firstFunction hf h
    · exact hs.isCanonical_valueMember hKept hm h

theorem isCanonical_ownMembers {x : TableId} {t : TableRecord} (hTable : s.table? x = some t)
    {parent : Option String} (h : types ∈ (s.ownMembers t parent).typeSets) :
    s.IsCanonical types := by
  rcases ClassMembers.mem_typeSets_foldl_add (ClassMembers.mem_typeSets_foldl_without h) with
    h | ⟨m, hm, h⟩
  · exact absurd h not_mem_nil
  · obtain ⟨entry, hEntry, hm⟩ := mem_filterMap.1 hm
    exact hs.isCanonical_member (hs.knowsDefinitions_entry hTable hEntry) hm h

theorem isCanonical_moduleClasses {c : ClassSummary} (hc : c ∈ s.moduleClasses index)
    (h : types ∈ c.members.typeSets) : s.IsCanonical types := by
  obtain ⟨t, ht, hc⟩ := mem_filterMap.1 hc
  have hTable := hs.table?_of_mem_values ht
  split at hc
  · split at hc <;> cases hc
    exact hs.isCanonical_ownMembers hTable h
  · cases hc

theorem isCanonical_tableSummary {m : ModuleRecord} {x : TableId} {t : TableRecord}
    (hTable : s.table? x = some t) (h : types ∈ (s.tableSummary m t).typeSets) :
    s.IsCanonical types := by
  rcases mem_append.1 h with h | h
  · obtain ⟨f, hf, rfl⟩ := mem_map.1 h
    obtain ⟨entry, hEntry, hf⟩ := mem_filterMap.1 hf
    dsimp only at hf
    split at hf <;> cases hf
    exact hs.isCanonical_typesOf (hs.knowsDefinitions_entry hTable hEntry)
  · obtain ⟨f, hf, h⟩ := mem_flatMap.1 h
    obtain ⟨entry, -, hf⟩ := mem_filterMap.1 hf
    obtain ⟨record, hRecord, rfl⟩ := Option.map_eq_some_iff.1 hf
    exact hs.isCanonical_firstFunction hRecord h

theorem isCanonical_globalField {f : FieldSummary} (hf : s.globalField? index name = some f) :
    s.IsCanonical f.types := by
  rw [globalField?] at hf
  dsimp only at hf
  split at hf
  · cases hf
  · split at hf <;> cases hf
    exact (hs.knowsTypes_identTypes _).isCanonical_finalTypes

theorem isCanonical_moduleSummary {m : ModuleRecord} (hm : m ∈ s.modules)
    (h : types ∈ (s.moduleSummary index m).typeSets) : s.IsCanonical types := by
  simp only [ModuleSummary.typeSets, mem_append, or_assoc] at h
  rcases h with h | h | h | h | h
  · obtain ⟨c, hc, h⟩ := mem_flatMap.1 h
    exact hs.isCanonical_moduleClasses hc h
  · obtain ⟨table, hMem, h⟩ := mem_flatMap.1 h
    obtain ⟨t, ht, rfl⟩ := mem_map.1 hMem
    obtain ⟨x, -, hTable⟩ := mem_filterMap.1 (mem_filter.1 ht).1
    exact hs.isCanonical_tableSummary hTable h
  · obtain ⟨f, hf, h⟩ := mem_flatMap.1 h
    obtain ⟨name, -, hf⟩ := mem_filterMap.1 hf
    obtain ⟨record, hRecord, rfl⟩ := Option.map_eq_some_iff.1 hf
    exact hs.isCanonical_firstFunction hRecord h
  · obtain ⟨f, hf, rfl⟩ := mem_map.1 h
    obtain ⟨name, -, hf⟩ := mem_filterMap.1 hf
    exact hs.isCanonical_globalField hf
  · obtain ⟨value, hValue, rfl⟩ := mem_map.1 h
    obtain ⟨defs, hDefs, rfl⟩ := mem_map.1 hValue
    exact hs.isCanonical_typesOf (hs.knowsDefinitions_return hm hDefs)

end Grounded

/-! ## Runs -/

theorem Reached.registerAll {buckets : List String} {s : Inference} (h : Reached buckets s)
    (names : List String) : Reached buckets (s.registerAll names) := by
  induction names generalizing s with
  | nil => exact h
  | cons name rest ih => exact ih (h.register name)

theorem Reached.readAll {buckets : List String} {s : Inference} (h : Reached buckets s)
    (chunks : List (String × Chunk)) (names : List String) :
    Reached buckets (s.readAll chunks names) := by
  induction names generalizing s with
  | nil => exact h
  | cons name rest ih =>
    rw [Inference.readAll, foldl_cons]
    split
    · exact ih (h.readModule name _)
    · exact ih h

theorem reached_ofChunks (buckets : List String) (chunks : List (String × Chunk)) :
    Reached buckets (ofChunks buckets chunks) :=
  ((Reached.empty.registerAll _).readAll chunks _).propagateArguments

end Inference

namespace ProjectSummary

/-- **Reported type sets are canonical.**  For all files, every type set in a module of the
summary is without the instance mark, has its booleans merged, names at most two tables that
are classes at the end of the run, and names only tables and functions to which the run gave
their numbers.  A type set of this form is its own final form, and every final form is of
this form, so that taking it twice changes nothing. -/
theorem reported_types_canonical (buckets : List String) (files : List SourceFile) :
    let s := Inference.ofChunks buckets (files.filterMap SourceFile.chunk?)
    (∀ m ∈ (ofSources buckets files).modules, ∀ types ∈ m.typeSets, s.IsCanonical types) ∧
      (∀ (w : Inference) types, w.IsFinal types ↔ w.finalTypes types = types) ∧
      ∀ (w : Inference) types, w.finalTypes (w.finalTypes types) = w.finalTypes types := by
  intro s
  have hs : s.Grounded := (Inference.reached_ofChunks buckets _).grounded
  refine ⟨fun m hm types hTypes => ?_, fun w types => ⟨Inference.finalTypes_eq_self, fun h => ?_⟩,
    fun w types => Inference.finalTypes_eq_self (w.isFinal_finalTypes types)⟩
  · rw [modules_ofSources] at hm
    obtain ⟨⟨record, index⟩, hMem, hSome⟩ := mem_filterMap.1 hm
    dsimp only at hSome
    split at hSome <;> cases hSome
    exact hs.isCanonical_moduleSummary (fst_mem_of_mem_zipIdx hMem) hTypes
  · rw [← h]
    exact w.isFinal_finalTypes types

set_option maxRecDepth 100000 in
/-- A constructor, a parameter that no call gives a value, a global that holds three classes,
and one that holds two classes and both booleans. -/
theorem types_of_three_classes :
    let files : List SourceFile := [
      ⟨"a", "A = {} function A:new() return setmetatable({}, self) end"⟩,
      ⟨"b", "B = {} setmetatable({}, B) function f(p) return p + 1 end"⟩,
      ⟨"c", "C = {} setmetatable({}, C) x = A x = B x = C"⟩,
      ⟨"d", "y = A y = true y = B y = false"⟩]
    let s := Inference.ofChunks [] (files.filterMap SourceFile.chunk?)
    ((ofSources [] files).modules.map fun m => (m.name, m.typeSets)) =
        [("b", [.of [.number], .of [.number]]), ("a", [.of [.tableRef ⟨6⟩]]),
          ("d", [.of [.boolean, .tableRef ⟨1⟩, .tableRef ⟨6⟩]]), ("c", [.of [.table]])] ∧
      ∀ m ∈ (ofSources [] files).modules, ∀ types ∈ m.typeSets, s.IsCanonical types := by
  intro files s
  exact ⟨by decide +kernel, (reported_types_canonical [] files).1⟩

end ProjectSummary

end LuaShape
