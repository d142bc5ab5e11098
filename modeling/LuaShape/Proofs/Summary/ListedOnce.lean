import Mathlib.Data.List.Sigma
import LuaShape.Proofs.Project.Origin
import LuaShape.Proofs.Project.Survivors

/-!
# No table is listed twice

A module lists the classes that were made while it was read, wherever they became classes, and
of the plain tables that it leads to those that were made while it was read.  A table is made
once, so the lists of two modules have no table in common, and inside one module a table is
either a class or plain.

Main result: `classes_listed_once`.
-/

namespace LuaShape

open List

namespace Inference

/-- A table is a class, it is no instance of another class, and no derived class has taken its
place. -/
structure StandsAsClass (s : Inference) (x : TableId) (t : TableRecord) : Prop where
  known : s.table? x = some t
  isClass : t.isClass = true
  notInstance : ∀ owner, t.instanceOf = some owner → s.isClass owner = true → owner = x
  notSuperseded : t.isSuperseded = false

variable {s : Inference} {index : Nat} {m : ModuleRecord} {x : TableId} {t : TableRecord}

/-- What a table is an instance of is always another class. -/
theorem StandsAsClass.instanceOf_eq_none (h : s.StandsAsClass x t) (hs : s.Grounded) :
    t.instanceOf = none := by
  cases hOwner : t.instanceOf with
  | none => rfl
  | some owner =>
    obtain ⟨hClass, hNe⟩ := (hs.table x t h.known).owner owner hOwner
    exact absurd (h.notInstance owner hOwner hClass.2) hNe

/-! ## Tables of one module -/

/-- The tables that the classes of a module are. -/
theorem tables_moduleClasses (s : Inference) (index : Nat) :
    (s.moduleClasses index).map ClassSummary.table =
      (s.tables.values.filter fun t =>
        t.isClass && (t.module = index && !t.isSuperseded && t.instanceOf.isNone)).map
        TableRecord.id := by
  rw [moduleClasses, map_filterMap, ← filterMap_eq_map, filterMap_filter]
  refine filterMap_congr fun t _ => ?_
  rw [TableRecord.isClass]
  cases t.classInfo with
  | none => rfl
  | some info =>
    rw [Option.isSome_some, Bool.true_and]
    exact apply_ite (Option.map ClassSummary.table) _ _ _

theorem Sound.nodup_ids (hs : Sound s) : (s.tables.values.map TableRecord.id).Nodup := by
  have hKeys : s.tables.values.map TableRecord.id = s.tables.keys := by
    rw [OrderedMap.values, OrderedMap.keys, map_map]
    refine map_congr_left fun entry hEntry => ?_
    exact hs.id_eq entry.1 entry.2 (OrderedMap.find?_eq_some_iff.2 hEntry)
  rw [hKeys]
  exact s.tables.distinct

theorem Sound.mem_values_iff (hs : Sound s) : t ∈ s.tables.values ↔ s.table? t.id = some t := by
  constructor
  · intro ht
    obtain ⟨⟨y, t'⟩, hEntry, rfl⟩ := mem_map.1 ht
    have hTable : s.table? y = some t' := OrderedMap.find?_eq_some_iff.2 hEntry
    rwa [hs.id_eq y t' hTable]
  · intro hTable
    exact mem_map_of_mem (OrderedMap.find?_eq_some_iff.1 hTable)

theorem Sound.nodup_classes (hs : Sound s) (index : Nat) :
    ((s.moduleClasses index).map ClassSummary.table).Nodup := by
  rw [tables_moduleClasses]
  exact hs.nodup_ids.sublist (filter_sublist.map _)

/-- The classes of a module are the classes made in it that are no instances and have kept their
place. -/
theorem Sound.mem_classes_iff (hs : Sound s) :
    x ∈ (s.moduleClasses index).map ClassSummary.table ↔
      ∃ t, s.table? x = some t ∧ t.isClass = true ∧ t.module = index ∧
        t.isSuperseded = false ∧ t.instanceOf = none := by
  rw [tables_moduleClasses]
  simp only [mem_map, mem_filter, Bool.and_eq_true, decide_eq_true_eq,
    Bool.not_eq_true', Option.isNone_iff_eq_none]
  constructor
  · rintro ⟨t, ⟨ht, hClass, ⟨hModule, hKept⟩, hOwner⟩, rfl⟩
    exact ⟨t, hs.mem_values_iff.1 ht, hClass, hModule, hKept, hOwner⟩
  · rintro ⟨t, hTable, hClass, hModule, hKept, hOwner⟩
    have hId := hs.id_eq x t hTable
    subst hId
    exact ⟨t, ⟨hs.mem_values_iff.2 hTable, hClass, ⟨hModule, hKept⟩, hOwner⟩, rfl⟩

/-- A search finds only tables of its module. -/
theorem module_of_mem_reach {limit : Nat} {found : SortedSet TableId} {queue : List TableId}
    (hFound : ∀ y ∈ found, ∃ t, s.table? y = some t ∧ t.module = index)
    (hx : x ∈ s.reach index limit found queue) : ∃ t, s.table? x = some t ∧ t.module = index := by
  induction limit generalizing found queue with
  | zero => exact hFound x hx
  | succ limit ih =>
    cases queue with
    | nil => exact hFound x hx
    | cons id queue =>
      rw [reach] at hx
      split at hx
      · exact ih hFound hx
      · rename_i t hTable
        split at hx
        · exact ih hFound hx
        · rename_i hNew
          simp only [Bool.or_eq_true, decide_eq_true_eq, not_or, not_not] at hNew
          refine ih (fun y hy => ?_) hx
          rcases SortedSet.mem_insert.1 hy with rfl | hy
          · exact ⟨t, hTable, hNew.1⟩
          · exact hFound y hy

/-- Looking tables up by their numbers and taking the numbers again adds none. -/
theorem Sound.ids_sublist (hs : Sound s) (xs : List TableId) :
    ((xs.filterMap s.table?).map TableRecord.id).Sublist xs := by
  induction xs with
  | nil => exact .slnil
  | cons x xs ih =>
    cases hTable : s.table? x with
    | none =>
      rw [filterMap_cons_none hTable]
      exact ih.cons x
    | some t =>
      rw [filterMap_cons_some hTable, map_cons, hs.id_eq x t hTable]
      exact ih.cons_cons x

theorem Sound.nodup_plain (hs : Sound s) (index : Nat) (m : ModuleRecord) :
    ((s.relevantTables index m).map TableRecord.id).Nodup := by
  have hReached := (s.reachable index (s.tableSeeds index m)).nodup_toList
  refine hReached.sublist (List.Sublist.trans ?_ (hs.ids_sublist _))
  exact filter_sublist.map _

/-- The plain tables of a module are made in it, and they are no classes. -/
theorem Sound.of_mem_plain (hs : Sound s)
    (hx : x ∈ (s.relevantTables index m).map TableRecord.id) :
    ∃ t, s.table? x = some t ∧ t.isClass = false ∧ t.module = index := by
  obtain ⟨t, ht, rfl⟩ := mem_map.1 hx
  obtain ⟨hFound, hPlain⟩ := mem_filter.1 ht
  obtain ⟨y, hy, hTable⟩ := mem_filterMap.1 hFound
  obtain ⟨t', hTable', hModule⟩ := module_of_mem_reach
    (fun z hz => absurd hz (SortedSet.not_mem_empty z)) (SortedSet.mem_def.2 hy)
  cases hTable.symm.trans hTable'
  rw [hs.id_eq y t hTable]
  simp only [isPlainTable, Bool.and_eq_true, Bool.not_eq_true'] at hPlain
  exact ⟨t, hTable, hPlain.1.1, hModule⟩

end Inference

/-- The tables that a module lists, as classes and as plain tables. -/
def ModuleSummary.listed (m : ModuleSummary) : List TableId :=
  m.classes.map ClassSummary.table ++ m.tables.map TableSummary.table

namespace Inference

variable {s : Inference} {index : Nat} {m : ModuleRecord} {x : TableId} {t : TableRecord}

theorem listed_moduleSummary (s : Inference) (index : Nat) (m : ModuleRecord) :
    (s.moduleSummary index m).listed =
      (s.moduleClasses index).map ClassSummary.table ++
        (s.relevantTables index m).map TableRecord.id := by
  rw [ModuleSummary.listed, moduleSummary, map_map]
  rfl

theorem Sound.nodup_listed (hs : Sound s) (index : Nat) (m : ModuleRecord) :
    (s.moduleSummary index m).listed.Nodup := by
  rw [listed_moduleSummary]
  refine (hs.nodup_classes index).append (hs.nodup_plain index m) fun x hClass hPlain => ?_
  obtain ⟨t, hTable, hIs, -⟩ := hs.mem_classes_iff.1 hClass
  obtain ⟨t', hTable', hIsNot, -⟩ := hs.of_mem_plain hPlain
  cases hTable.symm.trans hTable'
  rw [hIs] at hIsNot
  cases hIsNot

theorem Sound.module_of_mem_listed (hs : Sound s) (hx : x ∈ (s.moduleSummary index m).listed) :
    ∃ t, s.table? x = some t ∧ t.module = index := by
  rw [listed_moduleSummary, mem_append] at hx
  rcases hx with hx | hx
  · obtain ⟨t, hTable, -, hModule, -⟩ := hs.mem_classes_iff.1 hx
    exact ⟨t, hTable, hModule⟩
  · obtain ⟨t, hTable, -, hModule⟩ := hs.of_mem_plain hx
    exact ⟨t, hTable, hModule⟩

/-! ## Tables of all modules -/

/-- Lists of tables that each module takes from those made in it have no table in common. -/
theorem nodup_flatMap_moduleSummaries (hRead : ∀ m ∈ s.modules, m.isRead = true)
    {list : ModuleSummary → List TableId}
    (hNodup : ∀ index m, (list (s.moduleSummary index m)).Nodup)
    (hModule : ∀ index m, ∀ x ∈ list (s.moduleSummary index m),
      ∃ t, s.table? x = some t ∧ t.module = index) :
    (s.moduleSummaries.flatMap list).Nodup := by
  rw [moduleSummaries_eq_map hRead, flatMap_map]
  refine nodup_flatMap.2 ⟨fun entry _ => hNodup entry.2 entry.1, ?_⟩
  have hPositions := pairwise_map.1 (nodup_zipIdx_map_snd s.modules)
  refine hPositions.imp fun {entry other} hNe x hx hx' => hNe ?_
  obtain ⟨t, hTable, hEntry⟩ := hModule entry.2 entry.1 x hx
  obtain ⟨t', hTable', hOther⟩ := hModule other.2 other.1 x hx'
  cases hTable.symm.trans hTable'
  rw [← hEntry, hOther]

theorem Sound.nodup_flatMap_classes (hs : Sound s) (hRead : ∀ m ∈ s.modules, m.isRead = true) :
    (s.moduleSummaries.flatMap fun m => m.classes.map ClassSummary.table).Nodup := by
  refine nodup_flatMap_moduleSummaries hRead (fun index _ => hs.nodup_classes index) ?_
  intro index m x hx
  obtain ⟨t, hTable, -, hModule, -⟩ := hs.mem_classes_iff.1 hx
  exact ⟨t, hTable, hModule⟩

end Inference

namespace ProjectSummary

/-- **Classes are listed once.**  For all files, a table that has become a class, from whichever
file, and that is neither an instance of another class nor replaced by a derived class is the
table of exactly one class of the summary, in the module during whose reading the table was
made.  No other table is the table of a class, and no table is listed twice among the classes
and plain tables of all modules. -/
theorem classes_listed_once (buckets : List String) (files : List SourceFile) :
    let chunks := files.filterMap SourceFile.chunk?
    let s := Inference.ofChunks buckets chunks
    let modules := (ofSources buckets files).modules
    (∀ x t, s.StandsAsClass x t →
      (modules.flatMap fun m => m.classes.map ClassSummary.table).count x = 1 ∧
        ∃ m ∈ modules, x ∈ m.classes.map ClassSummary.table ∧
          ∀ name, Inference.MadeReading buckets chunks name x ↔ name = m.name) ∧
      (∀ m ∈ modules, ∀ c ∈ m.classes, ∃ t, s.StandsAsClass c.table t) ∧
      (modules.flatMap ModuleSummary.listed).Nodup := by
  intro chunks s modules
  have hProgress := Inference.progress_ofChunks buckets chunks
  have hGrounded := (Inference.reached_ofChunks buckets chunks).grounded
  have hSound : s.Sound := hProgress.sound
  have hRead : ∀ m ∈ s.modules, m.isRead = true := fun _ => Inference.isRead_of_mem_ofChunks
  have hModules : modules = s.moduleSummaries := modules_ofSources buckets files
  rw [hModules]
  refine ⟨fun x t hStands => ?_, fun m hm c hc => ?_, ?_⟩
  · have hModule := getElem?_eq_getElem (hProgress.placed.home x t hStands.known)
    have hMem := Inference.mem_moduleSummaries hModule (hRead _ (mem_of_getElem? hModule))
    have hListed : x ∈ (s.moduleClasses t.module).map ClassSummary.table :=
      hSound.mem_classes_iff.2 ⟨t, hStands.known, hStands.isClass, rfl, hStands.notSuperseded,
        hStands.instanceOf_eq_none hGrounded⟩
    refine ⟨count_eq_one_of_mem (hSound.nodup_flatMap_classes hRead) ?_, _, hMem, hListed, ?_⟩
    · exact mem_flatMap.2 ⟨_, hMem, hListed⟩
    · exact Inference.madeReading_iff_eq hStands.known (hProgress.module_at hModule).1
  · rw [Inference.moduleSummaries_eq_map hRead] at hm
    obtain ⟨⟨record, index⟩, -, rfl⟩ := mem_map.1 hm
    obtain ⟨t, hTable, hClass, -, hKept, hOwner⟩ :=
      hSound.mem_classes_iff.1 (mem_map_of_mem hc)
    exact ⟨t, hTable, hClass, fun owner h => by simp [hOwner] at h, hKept⟩
  · exact Inference.nodup_flatMap_moduleSummaries hRead hSound.nodup_listed
      fun _ _ _ => hSound.module_of_mem_listed

set_option maxRecDepth 100000 in
/-- The second file makes two tables of the first one classes.  One of them keeps its place, in
the module of the first file; the other one gives way to a class of the second file. -/
theorem classes_made_elsewhere :
    let files : List SourceFile := [
      ⟨"a", "A = {} function A:derive() end B = {} t = {}"⟩,
      ⟨"b", "setmetatable({}, B) B = A:derive('B')"⟩]
    let chunks := files.filterMap SourceFile.chunk?
    let s := Inference.ofChunks [] chunks
    let modules := (ofSources [] files).modules
    (s.tables.values.filter TableRecord.isClass).map TableRecord.id = [⟨1⟩, ⟨4⟩, ⟨8⟩] ∧
      (modules.map fun m => (m.name, m.listed)) = [("a", [⟨1⟩, ⟨5⟩]), ("b", [⟨8⟩])] ∧
      (∃ t, s.StandsAsClass ⟨1⟩ t) ∧
      (modules.flatMap fun m => m.classes.map ClassSummary.table).count ⟨1⟩ = 1 ∧
      (∀ name, Inference.MadeReading [] chunks name ⟨1⟩ ↔ name = "a") ∧
      (modules.flatMap ModuleSummary.listed).Nodup := by
  intro files chunks s modules
  have hRun : (s.tables.values.filter TableRecord.isClass).map TableRecord.id = [⟨1⟩, ⟨4⟩, ⟨8⟩] ∧
      (modules.map fun m => (m.name, m.listed)) = [("a", [⟨1⟩, ⟨5⟩]), ("b", [⟨8⟩])] ∧
      (∀ m ∈ modules, ⟨1⟩ ∈ m.classes.map ClassSummary.table → m.name = "a") ∧
      ((s.table? ⟨1⟩).any fun t =>
        t.isClass && t.instanceOf.isNone && !t.isSuperseded) = true := by
    decide +kernel
  obtain ⟨hClasses, hLists, hOnly, hRecord⟩ := hRun
  obtain ⟨t, hTable, hStands⟩ := (Option.any_eq_true _ _).1 hRecord
  simp only [Bool.and_eq_true, Option.isNone_iff_eq_none, Bool.not_eq_true'] at hStands
  have hClass : s.StandsAsClass ⟨1⟩ t :=
    ⟨hTable, hStands.1.1, fun owner h => by simp [hStands.1.2] at h, hStands.2⟩
  obtain ⟨hListed, -, hNodup⟩ := classes_listed_once [] files
  obtain ⟨hCount, m, hm, hMem, hMade⟩ := hListed ⟨1⟩ t hClass
  rw [hOnly m hm hMem] at hMade
  exact ⟨hClasses, hLists, ⟨t, hClass⟩, hCount, hMade, hNodup⟩

end ProjectSummary

end LuaShape
