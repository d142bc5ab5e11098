import LuaShape.Proofs.Project.Progress
import LuaShape.Proofs.Summary.Reachable

/-!
# Globals in a summary

A module of a summary accounts for each global that it assigns: as one that holds a
required module, as a function, as a field, or because a class or a table of that name is
listed somewhere.  The last is only believed: nothing is listed for a global whose one
table is a class, or is called like the global.  If that table has a class of another
name, is an instance, has given way to a derived class or got its name from a local, then
no class or table of the name need be listed.

Main result: `assigned_globals_accounted_for`.
-/

namespace LuaShape

open List

namespace Inference

variable {s : Inference} {index : Nat}

/-! ## Listed classes and tables -/

theorem mem_moduleSummaries {m : ModuleRecord} (hModule : s.modules[index]? = some m)
    (hRead : m.isRead = true) : s.moduleSummary index m ∈ s.moduleSummaries := by
  refine mem_filterMap.2 ⟨(m, index), mk_mem_zipIdx_iff_getElem?.2 hModule, ?_⟩
  exact if_pos hRead

variable {x : TableId} {t : TableRecord}

/-- A class that is no instance and has not given way to another one is listed. -/
theorem mem_moduleClasses {info : ClassInfo} (hTable : s.table? x = some t)
    (hInfo : t.classInfo = some info) (hSuperseded : t.isSuperseded = false)
    (hInstance : t.instanceOf = none) : s.classSummary t info ∈ s.moduleClasses t.module := by
  refine mem_filterMap.2 ⟨t, mem_map_of_mem (OrderedMap.find?_eq_some_iff.1 hTable), ?_⟩
  simp [hInfo, hSuperseded, hInstance]

/-- A table is called by its own name, if it has one. -/
theorem tableLabel?_of_ownName {name : String} (hTable : s.table? x = some t)
    (hName : t.ownName? = some name) : s.tableLabel? x = some name := by
  have hSize : 0 < s.tables.size :=
    length_pos_of_mem (OrderedMap.find?_eq_some_iff.1 hTable)
  obtain ⟨limit, hLimit⟩ := Nat.exists_eq_succ_of_ne_zero (Nat.ne_of_gt hSize)
  rw [tableLabel?, hLimit, tableLabelWithin, hTable, Option.bind_some, hName, Option.some_or]

/-- The plain table of a global is listed by each module that makes it the value of the
global, if it was made there. -/
theorem mem_relevantTables {m : ModuleRecord} {name : String} (hGlobal : name ∈ m.globals)
    {d : Definition} (hd : d ∈ s.definitionsOf (.global name)) (hModule : d.module = index)
    (hx : s.terms.tableLiteral? d.value = some x) (hTable : s.table? x = some t)
    (hHome : t.module = index) (hPlain : isPlainTable t = true) : t ∈ s.relevantTables index m := by
  have hSeed : x ∈ s.tableSeeds index m := by
    refine mem_append_left _ (mem_append_left _ (mem_flatMap.2 ⟨name, hGlobal, ?_⟩))
    exact mem_filterMap.2
      ⟨d, mem_filter.2 ⟨hd, decide_eq_true hModule⟩, hx⟩
  refine mem_filter.2 ⟨mem_filterMap.2 ⟨x, ?_, hTable⟩, hPlain⟩
  exact mem_reachable.2 (.seed hSeed hTable hHome)

end Inference

/-! ## Accounts of globals -/

/-- A module lists a class or a table of a name. -/
def ModuleSummary.Lists (m : ModuleSummary) (name : String) : Prop :=
  (∃ c ∈ m.classes, c.name = name) ∨ ∃ t ∈ m.tables, t.name = name

/-- One of several modules accounts for a global: as a required module, a function or a
field, or because one of the modules lists a class or a table of the name. -/
def ModuleSummary.AccountsFor (modules : List ModuleSummary) (m : ModuleSummary)
    (name : String) : Prop :=
  (∃ r ∈ m.requires, r.name = name) ∨ (∃ f ∈ m.functions, f.name = name) ∨
    (∃ f ∈ m.fields, f.name = name) ∨ ∃ other ∈ modules, other.Lists name

namespace Inference

/-- A global holds just one table, which is called like the global or is a class, so that the
global is believed to be listed.  But the table has given way to a derived class, or is an
instance, a class of another name, or a plain table named after a local. -/
def HoldsUnlisted (s : Inference) (name : String) : Prop :=
  s.namesTable name (s.identTypes (.global name)) = true ∧
    ∃ t ∈ (s.identTypes (.global name)).singleTable?.bind s.table?,
      t.isSuperseded = true ∨ t.instanceOf.isSome = true ∨
        (∃ info ∈ t.classInfo, info.name ≠ name) ∨ t.isClass = false ∧ t.nameIsLocal = true

instance (s : Inference) (name : String) : Decidable (s.HoldsUnlisted name) :=
  inferInstanceAs (Decidable (_ ∧ _))

variable {s : Inference} {index : Nat} {m : ModuleRecord} {name : String}

theorem mem_globalsAt_iff : name ∈ s.globalsAt index ↔
    ∃ m, s.modules[index]? = some m ∧ name ∈ m.globals := by
  rw [globalsAt]
  cases s.modules[index]? <;> simp

/-- The table that a global is believed to be listed as is listed, with four exceptions. -/
theorem lists_of_namesTable (hs : Sound s) (hp : Placed s)
    (hRead : ∀ m ∈ s.modules, m.isRead = true)
    (h : s.namesTable name (s.identTypes (.global name)) = true) :
    (∃ other ∈ s.moduleSummaries, other.Lists name) ∨ s.HoldsUnlisted name := by
  have hNames := h
  rw [namesTable] at h
  split at h
  · rename_i t hFound
    obtain ⟨x, -, hTable⟩ := Option.bind_eq_some_iff.1 hFound
    by_cases hExcept : t.isSuperseded = true ∨ t.instanceOf.isSome = true ∨
        (∃ info ∈ t.classInfo, info.name ≠ name) ∨ t.isClass = false ∧ t.nameIsLocal = true
    · exact .inr ⟨hNames, t, hFound, hExcept⟩
    refine .inl ?_
    simp only [not_or, Bool.not_eq_true, Option.isSome_eq_false_iff, Option.isNone_iff_eq_none]
      at hExcept
    obtain ⟨hSuperseded, hInstance, hClassName, hLocal⟩ := hExcept
    cases hInfo : t.classInfo with
    | some info =>
      have hName : info.name = name := not_not.1 fun hNe => hClassName ⟨info, hInfo, hNe⟩
      have hHome := getElem?_eq_getElem (hp.home x t hTable)
      refine ⟨_, mem_moduleSummaries hHome (hRead _ (mem_of_getElem? hHome)),
        .inl ⟨s.classSummary t info, ?_, hName⟩⟩
      exact mem_moduleClasses hTable hInfo hSuperseded hInstance
    | none =>
      have hClass : t.isClass = false := by rw [TableRecord.isClass, hInfo]; rfl
      have hGlobalName : t.nameIsLocal = false := Bool.eq_false_iff.2 fun h => hLocal ⟨hClass, h⟩
      have hOwn : t.name = some name := by simpa [hClass] using h
      have hGiven : s.givenName? x = some (name, false) := by
        rw [givenName?, hTable, Option.bind_some, hOwn, hGlobalName]
        rfl
      obtain ⟨d, hd, hx⟩ := hp.named name x hGiven
      obtain ⟨t', ht', hHome⟩ := hp.here name x d hd hx
      cases hTable.symm.trans ht'
      obtain ⟨m, hModule, hGlobal⟩ := mem_globalsAt_iff.1 (hp.listed name d hd)
      have hPlain : isPlainTable t = true := by
        rw [isPlainTable, hClass, hInstance, hSuperseded]
        rfl
      refine ⟨_, mem_moduleSummaries hModule (hRead m (mem_of_getElem? hModule)),
        .inr ⟨s.tableSummary m t, ?_, ?_⟩⟩
      · exact mem_map_of_mem (mem_relevantTables hGlobal hd rfl hx hTable hHome hPlain)
      · have hOwnName : t.ownName? = some name := by
          rw [TableRecord.ownName?, hInfo, hOwn]
          rfl
        show (s.tableLabel? t.id).getD _ = name
        rw [hs.id_eq x t hTable, tableLabel?_of_ownName hTable hOwnName]
        rfl
  · cases h

/-- A module accounts for every global it lists, with the same exceptions. -/
theorem accountsFor_of_mem_globals (hs : Sound s) (hp : Placed s)
    (hRead : ∀ m ∈ s.modules, m.isRead = true)
    (hGlobal : name ∈ m.globals) :
    (s.moduleSummary index m).AccountsFor s.moduleSummaries name ∨ s.HoldsUnlisted name := by
  by_cases hRequired : m.requires.contains name = true
  · obtain ⟨target, hTarget⟩ := OrderedMap.mem_keys_iff.1
      (OrderedMap.contains_iff_mem_keys.1 hRequired)
    refine .inl (.inl ⟨⟨name, target⟩, ?_, rfl⟩)
    exact mem_map_of_mem (OrderedMap.find?_eq_some_iff.1 hTarget)
  have hOwn : name ∈ ownGlobals m := mem_filter.2 ⟨hGlobal, by simpa using hRequired⟩
  cases hFunction : s.firstFunction? (s.globalDefinitions index name) with
  | some f =>
    refine .inl (.inr (.inl ⟨s.functionSummary f name, ?_, rfl⟩))
    refine mem_filterMap.2 ⟨name, hOwn, ?_⟩
    rw [globalFunction?, hFunction]
    rfl
  | none =>
    by_cases hNames : s.namesTable name (s.identTypes (.global name)) = true
    · exact (lists_of_namesTable hs hp hRead hNames).imp_left fun h => .inr (.inr (.inr h))
    · have hField : s.globalField? index name = some ⟨name, s.valueSummary
          (s.globalDefinitions index name) (s.identTypes (.global name)), false⟩ := by
        rw [globalField?, hFunction]
        exact if_neg hNames
      refine .inl (.inr (.inr (.inl ⟨_, mem_filterMap.2 ⟨name, hOwn, hField⟩, rfl⟩)))

/-- All that is known of chunks when their modules have been read in load order and
arguments have been spread. -/
def ofChunks (buckets : List String) (chunks : List (String × Chunk)) : Inference :=
  let order := (Schedule.ofChunks buckets chunks).order
  (((empty buckets).registerAll order).readAll chunks order).propagateArguments

theorem progress_ofChunks (buckets : List String) (chunks : List (String × Chunk)) :
    Progress buckets (Schedule.ofChunks buckets chunks).order
      (Schedule.ofChunks buckets chunks).order.reverse chunks (ofChunks buckets chunks) := by
  have hOrder := Schedule.nodup_order_ofChunks buckets chunks
  have hStart : Progress buckets ([] ++ (Schedule.ofChunks buckets chunks).order) [].reverse
      chunks _ := progress_registerAll hOrder
  exact (hStart.readAll hOrder fun _ hName => Schedule.exists_chunk hName).propagateArguments

end Inference

namespace ProjectSummary

/-- The modules of a summary are those of the context at the end of the run. -/
theorem modules_ofSources (buckets : List String) (files : List SourceFile) :
    (ofSources buckets files).modules =
      (Inference.ofChunks buckets (files.filterMap SourceFile.chunk?)).moduleSummaries := by
  rw [ofSources_eq]
  rfl

/-- **Assigned globals.**  For all files, every module of the summary comes from the first
chunk of its name, and it accounts for every global that this chunk assigns, while it loads
or in a function: as a required module, a function or a field, or because a class or a
table of that name is listed.  The exceptions are globals that hold just one table, which is
called like the global or is a class, but is listed under another name or not at all. -/
theorem assigned_globals_accounted_for (buckets : List String) (files : List SourceFile)
    {m : ModuleSummary} (hm : m ∈ (ofSources buckets files).modules) :
    let chunks := files.filterMap SourceFile.chunk?
    ∃ chunk, chunks.find? (fun entry => entry.1 = m.name) = some (m.name, chunk) ∧
      ∀ name ∈ AssignedGlobals.ofChunk chunk,
        m.AccountsFor (ofSources buckets files).modules name ∨
          (Inference.ofChunks buckets chunks).HoldsUnlisted name := by
  intro chunks
  have hProgress := Inference.progress_ofChunks buckets chunks
  have hModules : (ofSources buckets files).modules =
      (Inference.ofChunks buckets chunks).moduleSummaries := by
    rw [ofSources_eq]
    rfl
  rw [hModules] at hm ⊢
  generalize Inference.ofChunks buckets chunks = s at hProgress hm
  obtain ⟨⟨record, index⟩, hMem, hSome⟩ := mem_filterMap.1 hm
  dsimp only at hSome
  split at hSome <;> cases hSome
  have hRecord := mk_mem_zipIdx_iff_getElem?.1 hMem
  have hAll : ∀ record ∈ s.modules, record.isRead = true := by
    intro record hRecord
    obtain ⟨index, hIndex⟩ := mem_iff_getElem?.1 hRecord
    obtain ⟨hName, hRead⟩ := hProgress.module_at hIndex
    rw [hRead, decide_eq_true_iff, mem_reverse]
    exact mem_of_getElem? hName
  have hName := (hProgress.module_at hRecord).1
  obtain ⟨chunk, hChunk⟩ := Schedule.exists_chunk (mem_of_getElem? hName)
  refine ⟨chunk, hChunk, fun name hAssigned => ?_⟩
  have hListed := hProgress.assigned index _ chunk name hName
    (mem_reverse.2 (mem_of_getElem? hName)) hChunk hAssigned
  obtain ⟨found, hFound, hGlobal⟩ := Inference.mem_globalsAt_iff.1 hListed
  cases hRecord.symm.trans hFound
  exact Inference.accountsFor_of_mem_globals hProgress.sound hProgress.placed hAll hGlobal

set_option maxRecDepth 100000 in
/-- A module that assigns a class, a table of a local, a function, a required module and, inside
a function, a table accounts for all of them. -/
theorem accounts_for_global_of_function :
    let files : List SourceFile := [⟨"a", "Foo = {} function Foo:new() end " ++
      "local t = {} G = t function f() y = {} end M = require 'b'"⟩, ⟨"b", ""⟩]
    let chunks := files.filterMap SourceFile.chunk?
    ∃ m ∈ (ofSources [] files).modules, m.name = "a" ∧
      ∃ chunk, chunks.find? (fun entry => entry.1 = m.name) = some (m.name, chunk) ∧
        AssignedGlobals.ofChunk chunk = ["Foo", "G", "y", "f", "M"] ∧
        ∀ name ∈ ["Foo", "G", "y", "f", "M"], m.AccountsFor (ofSources [] files).modules name := by
  intro files chunks
  have hModule : ∃ m ∈ (ofSources [] files).modules, m.name = "a" := by
    decide +kernel
  have hListed : ∀ name ∈ ["Foo", "G", "y", "f", "M"],
      ¬ (Inference.ofChunks [] chunks).HoldsUnlisted name := by
    decide +kernel
  have hAssigned : ∀ entry, chunks.find? (fun entry => entry.1 = "a") = some entry →
      AssignedGlobals.ofChunk entry.2 = ["Foo", "G", "y", "f", "M"] := by
    have hRead : (chunks.find? fun entry => entry.1 = "a").map
        (fun entry => AssignedGlobals.ofChunk entry.2) = some ["Foo", "G", "y", "f", "M"] := by
      decide +kernel
    intro entry hEntry
    rw [hEntry] at hRead
    exact Option.some.inj hRead
  obtain ⟨m, hm, hName⟩ := hModule
  obtain ⟨chunk, hChunk, hAll⟩ := assigned_globals_accounted_for [] files hm
  have hGlobals := hAssigned (m.name, chunk) (hName ▸ hChunk)
  refine ⟨m, hm, hName, chunk, hChunk, hGlobals, fun name hMem => ?_⟩
  exact (hAll name (hGlobals ▸ hMem)).resolve_right (hListed name hMem)

set_option maxRecDepth 100000 in
/-- A global that holds a table which a local of the same name held first is in no list. -/
theorem global_named_like_local_unaccounted :
    let files : List SourceFile := [⟨"shared/a",
      "function make()\n  local Config = {}\n  return Config\nend\nConfig = make()"⟩]
    (files.filterMap SourceFile.chunk?).map (fun entry => AssignedGlobals.ofChunk entry.2) =
        [["make", "Config"]] ∧
      (ofSources [] files).modules.map (fun m => (m.requires.map RequireSummary.name,
        m.functions.map FunctionSummary.name, m.fields.map FieldSummary.name,
        m.classes.map ClassSummary.name, m.tables.map TableSummary.name)) =
        [([], ["make"], [], [], [])] := by
  decide +kernel

end ProjectSummary

end LuaShape
