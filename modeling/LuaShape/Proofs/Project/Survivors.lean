import LuaShape.Proofs.Project.InputOrder
import LuaShape.Proofs.Summary.Globals

/-!
# Which files of a project are left

A file that is no chunk is reported when files are parsed, a second chunk of a name when
chunks are inserted into the graph.  Later stages look chunks up by name and take the first
one.  All stages agree on the files that are left (`survivors`): there is a module for each
of them and a report for each of the others, and the others do not matter for what is found
out.

Main result: `files_survive_or_are_reported`.
-/

namespace LuaShape

open List

/-! ## Survivors -/

namespace SourceFile

/-- Whether the text of a file is a chunk. -/
def isChunk (file : SourceFile) : Bool := file.chunk?.isSome

/-- The files of a list that are chunks and that no chunk of the same name precedes, in the
list or among earlier files. -/
def survivorsAfter : (earlier files : List SourceFile) → List SourceFile
  | _, [] => []
  | earlier, file :: rest =>
    let kept := survivorsAfter (file :: earlier) rest
    if file.isChunk && !(earlier.any fun other => other.isChunk && other.name = file.name) then
      file :: kept
    else kept

/-- The files that are chunks and that no chunk of the same name precedes. -/
def survivors (files : List SourceFile) : List SourceFile := survivorsAfter [] files

theorem name_of_chunk? {file : SourceFile} {entry : String × Chunk}
    (h : file.chunk? = some entry) : entry.1 = file.name := by
  obtain ⟨chunk, -, rfl⟩ := Option.map_eq_some_iff.1 h
  rfl

/-- A name that no earlier chunk has leads to the same chunk among the survivors. -/
theorem find?_survivorsAfter {name : String} (files : List SourceFile) {earlier : List SourceFile}
    (h : ∀ other ∈ earlier, other.isChunk = true → other.name ≠ name) :
    ((survivorsAfter earlier files).filterMap chunk?).find? (fun e => e.1 = name) =
      (files.filterMap chunk?).find? (fun e => e.1 = name) := by
  induction files generalizing earlier with
  | nil => rfl
  | cons file rest ih =>
    rw [survivorsAfter]
    cases hChunk : file.chunk? with
    | none =>
      have hNo : file.isChunk = false := by rw [isChunk, hChunk]; rfl
      rw [hNo, Bool.false_and, if_neg Bool.false_ne_true, filterMap_cons_none hChunk]
      refine ih fun other hOther hIs => ?_
      rcases mem_cons.1 hOther with rfl | hOther
      · rw [hNo] at hIs
        cases hIs
      · exact h other hOther hIs
    | some entry =>
      have hYes : file.isChunk = true := by rw [isChunk, hChunk]; rfl
      have hEntry := name_of_chunk? hChunk
      rw [filterMap_cons_some hChunk, find?_cons]
      by_cases hName : file.name = name
      · -- No earlier chunk has the name, so that the file is kept and found.
        have hNone : (earlier.any fun other => other.isChunk && other.name = file.name) =
            false := by
          rw [any_eq_false]
          intro other hOther hBoth
          obtain ⟨hIs, hSame⟩ := Bool.and_eq_true_iff.1 hBoth
          exact h other hOther hIs ((of_decide_eq_true hSame).trans hName)
        rw [hYes, hNone, Bool.not_false, Bool.and_self, if_pos rfl,
          filterMap_cons_some hChunk, find?_cons, hEntry, decide_eq_true hName]
      · have hLater := @ih (file :: earlier) fun other hOther hIs => by
          rcases mem_cons.1 hOther with rfl | hOther
          · exact hName
          · exact h other hOther hIs
        rw [hEntry, decide_eq_false hName, ← hLater]
        split
        · rw [filterMap_cons_some hChunk, find?_cons, hEntry, decide_eq_false hName]
        · rfl

theorem find?_survivors (files : List SourceFile) (name : String) :
    ((survivors files).filterMap chunk?).find? (fun e => e.1 = name) =
      (files.filterMap chunk?).find? (fun e => e.1 = name) :=
  find?_survivorsAfter files fun _ h => absurd h not_mem_nil

set_option maxRecDepth 100000 in
example : survivors [⟨"a", "x ="⟩, ⟨"b", "x = 1"⟩, ⟨"a", ""⟩, ⟨"b", "x ="⟩, ⟨"b", "x = 2"⟩] =
    [⟨"b", "x = 1"⟩, ⟨"a", ""⟩] := by
  decide +kernel

/-- Every file is a chunk or reported, and not both. -/
theorem length_chunks_add_faults (stage : Stage) (files : List SourceFile) :
    (files.filterMap chunk?).length + (files.filterMap (fault? stage)).length = files.length := by
  induction files with
  | nil => rfl
  | cons file rest ih =>
    rw [filterMap_cons, filterMap_cons, chunk?, fault?]
    cases Chunk.parse file.text with
    | ok chunk =>
      show (rest.filterMap chunk?).length + 1 + (rest.filterMap (fault? stage)).length =
        rest.length + 1
      omega
    | error e =>
      show (rest.filterMap chunk?).length + ((rest.filterMap (fault? stage)).length + 1) =
        rest.length + 1
      omega

end SourceFile

/-! ## Reports about chunks -/

namespace Schedule

variable {buckets : List String} {chunks : List (String × Chunk)}

/-- Every file is inserted or reported, and not both. -/
theorem length_foldl_addFile (files : List (String × Effects))
    (state : Graph × List Diagnostic) :
    (files.foldl addFile state).1.files.keys.length + (files.foldl addFile state).2.length =
      state.1.files.keys.length + state.2.length + files.length := by
  induction files generalizing state with
  | nil => rfl
  | cons file rest ih =>
    rw [foldl_cons, ih, length_cons, addFile]
    rcases state.1.insert_cases file.1 file.2 with ⟨-, hNone⟩ | ⟨g, hSome, hInserted⟩
    · rw [hNone]
      dsimp only
      rw [length_append, length_singleton]
      omega
    · rw [hSome]
      dsimp only
      rw [hInserted.keys, length_append, length_singleton]
      omega

theorem length_order_add_duplicates (buckets : List String) (chunks : List (String × Chunk)) :
    (ofChunks buckets chunks).order.length + (duplicatesOf buckets chunks).length =
      chunks.length := by
  have hGraph : ((effectsOf chunks).foldl addFile (Graph.empty buckets, [])).1 =
      graphOf buckets chunks := fst_foldl_addFile _ _
  have hCount := length_foldl_addFile (effectsOf chunks) (Graph.empty buckets, [])
  rw [hGraph, effectsOf, length_map, ← (perm_order_ofChunks buckets chunks).length_eq]
    at hCount
  exact hCount.trans (Nat.zero_add _)

/-- Finding an order leaves no file out. -/
theorem not_hard_of_mem_ofGraph {d : Diagnostic}
    (h : d ∈ (ofGraph (graphOf buckets chunks)).diagnostics) : d.isHard = false := by
  rcases (orderly_finished (indexed_graphOf buckets chunks)).reports d h with
    ⟨x, hx⟩ | ⟨x, y, rfl⟩
  · rcases mem_requireReports hx with ⟨_, _, _, rfl⟩ | ⟨_, _, rfl⟩ <;> rfl
  · rfl

/-- The order depends only on the chunks that are found by name. -/
theorem order_congr {chunks' : List (String × Chunk)} (buckets : List String)
    (h : ∀ name, chunks.find? (fun e => e.1 = name) = chunks'.find? (fun e => e.1 = name)) :
    (ofChunks buckets chunks).order = (ofChunks buckets chunks').order := by
  rw [order_ofChunks, order_ofChunks]
  exact (ofGraph_alike (sameFiles_of_find?_eq buckets h)).1

theorem order_ofSources (buckets : List String) (files : List SourceFile) :
    (ofSources buckets files).order =
      (ofChunks buckets (files.filterMap SourceFile.chunk?)).order := by
  rw [ofSources, SourceFile.parseAll_eq]

end Schedule

/-! ## Reports from reading -/

namespace Inference

variable {s : Inference}

/-- Reading a module only reports early requires. -/
theorem mem_diagnostics_readModule {name : String} {chunk : Chunk} {d : Diagnostic}
    (h : d ∈ (s.readModule name chunk).diagnostics) :
    d ∈ s.diagnostics ∨ ∃ file target, d = .requiredEarly file target := by
  obtain ⟨new, hNew, hEarly⟩ := s.exists_outline_readBlock name chunk
  have hDiagnostics : (s.readModule name chunk).diagnostics = s.diagnostics ++ new := by
    rw [← diagnostics_beginModule s name]
    exact congrArg Outline.diagnostics hNew
  rw [hDiagnostics] at h
  exact (mem_append.1 h).imp_right (hEarly d)

theorem mem_diagnostics_readAll {chunks : List (String × Chunk)} {names : List String}
    {d : Diagnostic} (h : d ∈ (s.readAll chunks names).diagnostics) :
    d ∈ s.diagnostics ∨ ∃ file target, d = .requiredEarly file target := by
  induction names generalizing s with
  | nil => exact .inl h
  | cons name rest ih =>
    rw [readAll, foldl_cons] at h
    split at h
    · rcases ih h with h | h
      · exact mem_diagnostics_readModule h
      · exact .inr h
    · exact ih h

/-! ## Modules -/

/-- All known modules have been read at the end. -/
theorem isRead_of_mem_ofChunks {buckets : List String} {chunks : List (String × Chunk)}
    {m : ModuleRecord} (hm : m ∈ (ofChunks buckets chunks).modules) : m.isRead = true := by
  obtain ⟨index, hIndex⟩ := mem_iff_getElem?.1 hm
  obtain ⟨hName, hRead⟩ := (progress_ofChunks buckets chunks).module_at hIndex
  rw [hRead, decide_eq_true_iff, mem_reverse]
  exact mem_of_getElem? hName

/-- If all modules have been read, there is a summary of each, in order. -/
theorem moduleSummaries_eq_map (h : ∀ m ∈ s.modules, m.isRead = true) :
    s.moduleSummaries = s.modules.zipIdx.map fun entry => s.moduleSummary entry.2 entry.1 := by
  rw [moduleSummaries, ← filterMap_eq_map]
  refine filterMap_congr fun entry hEntry => ?_
  exact if_pos (h entry.1 (fst_mem_of_mem_zipIdx hEntry))

theorem names_moduleSummaries (h : ∀ m ∈ s.modules, m.isRead = true) :
    s.moduleSummaries.map ModuleSummary.name = s.modules.map ModuleRecord.name := by
  calc s.moduleSummaries.map ModuleSummary.name
      = s.modules.zipIdx.map (ModuleRecord.name ∘ Prod.fst) := by
        rw [moduleSummaries_eq_map h, map_map]
        rfl
    _ = s.modules.map ModuleRecord.name := by rw [← map_map, zipIdx_map_fst]

end Inference

namespace ProjectSummary

theorem order_ofSources (buckets : List String) (files : List SourceFile) :
    (ofSources buckets files).order =
      (Schedule.ofChunks buckets (files.filterMap SourceFile.chunk?)).order := by
  rw [ofSources_eq]
  rfl

theorem names_modules_ofSources (buckets : List String) (files : List SourceFile) :
    (ofSources buckets files).modules.map ModuleSummary.name = (ofSources buckets files).order := by
  rw [modules_ofSources, order_ofSources,
    Inference.names_moduleSummaries fun _ => Inference.isRead_of_mem_ofChunks,
    ← Inference.names_outline]
  exact (Inference.progress_ofChunks buckets _).names

/-- The summary depends only on the chunks that are found by name, diagnostics aside. -/
theorem ofChunks_congr {chunks chunks' : List (String × Chunk)} (buckets : List String)
    (h : ∀ name, chunks.find? (fun e => e.1 = name) = chunks'.find? (fun e => e.1 = name)) :
    (ofChunks buckets chunks).order = (ofChunks buckets chunks').order ∧
      (ofChunks buckets chunks).modules = (ofChunks buckets chunks').modules := by
  rw [ofChunks, ofChunks]
  dsimp only
  rw [Schedule.order_congr buckets h, Inference.readAll_congr h]
  exact ⟨rfl, rfl⟩

/-- The reports about files that are left out, in order: first those that are no chunks, then
second chunks of a name. -/
theorem filter_isHard_diagnostics (buckets : List String) (files : List SourceFile) :
    (ofSources buckets files).diagnostics.filter Diagnostic.isHard =
      files.filterMap (SourceFile.fault? .inference) ++
        Schedule.duplicatesOf buckets (files.filterMap SourceFile.chunk?) := by
  have hFaults : ∀ d ∈ files.filterMap (SourceFile.fault? .inference), d.isHard = true := by
    intro d hd
    obtain ⟨_, _, rfl⟩ := SourceFile.mem_filterMap_fault hd
    rfl
  have hDuplicates : ∀ d ∈ Schedule.duplicatesOf buckets (files.filterMap SourceFile.chunk?),
      d.isHard = true := by
    intro d hd
    obtain ⟨_, rfl⟩ := Schedule.mem_duplicatesOf hd
    rfl
  have hRead : ∀ order, ∀ d ∈ (((Inference.empty buckets).registerAll order).readAll
      (files.filterMap SourceFile.chunk?) order).diagnostics, ¬ d.isHard = true := by
    intro order d hd
    rcases Inference.mem_diagnostics_readAll hd with hd | ⟨_, _, rfl⟩
    · rw [Inference.diagnostics_registerAll] at hd
      cases hd
    · exact Bool.false_ne_true
  rw [ofSources_eq, ofChunks]
  dsimp only
  rw [Schedule.diagnostics_ofChunks, filter_append, filter_append, filter_append,
    filter_eq_self.2 hFaults, filter_eq_self.2 hDuplicates,
    filter_eq_nil_iff.2 fun d hd =>
      Bool.eq_false_iff.1 (Schedule.not_hard_of_mem_ofGraph hd),
    filter_eq_nil_iff.2 (hRead _), append_nil, append_nil]

/-- The reports about files that are left out have one of two codes. -/
theorem code_eq_isHard {buckets : List String} {files : List SourceFile} {d : Diagnostic}
    (h : d ∈ (ofSources buckets files).diagnostics) :
    decide (d.code ∈ ["E-ANA-001", "E-DEP-003"]) = d.isHard := by
  cases hHard : d.isHard with
  | true =>
    have hMem := mem_filter.2 ⟨h, hHard⟩
    rw [filter_isHard_diagnostics] at hMem
    rcases mem_append.1 hMem with hMem | hMem
    · obtain ⟨_, _, rfl⟩ := SourceFile.mem_filterMap_fault hMem
      rfl
    · obtain ⟨_, rfl⟩ := Schedule.mem_duplicatesOf hMem
      rfl
  | false =>
    cases d with
    | unreadable | unparsable | duplicate => cases hHard
    | _ => rfl

/-- **Every file survives or is reported.**  For all files and buckets, there is one module
for each name of the load order, in this order, no name comes twice, and the order is the one
found without inference.  The other files are counted by the reports that leave a file out,
which are those with one of two codes.  Without these files, the order and the modules are
the same. -/
theorem files_survive_or_are_reported (buckets : List String) (files : List SourceFile) :
    let summary := ofSources buckets files
    summary.modules.map ModuleSummary.name = summary.order ∧
      summary.order.Nodup ∧
      summary.order = (Schedule.ofSources buckets files).order ∧
      files.length = summary.modules.length +
        (summary.diagnostics.filter fun d => d.code ∈ ["E-ANA-001", "E-DEP-003"]).length ∧
      (summary.diagnostics.filter fun d => d.code ∈ ["E-ANA-001", "E-DEP-003"]) =
        summary.diagnostics.filter Diagnostic.isHard ∧
      (ofSources buckets (SourceFile.survivors files)).order = summary.order ∧
      (ofSources buckets (SourceFile.survivors files)).modules = summary.modules := by
  intro summary
  have hNames : summary.modules.map ModuleSummary.name = summary.order :=
    names_modules_ofSources buckets files
  have hOrder : summary.order = _ := order_ofSources buckets files
  have hCodes : (summary.diagnostics.filter fun d => d.code ∈ ["E-ANA-001", "E-DEP-003"]) =
      summary.diagnostics.filter Diagnostic.isHard :=
    filter_congr fun d hd => code_eq_isHard hd
  have hCount : files.length =
      summary.modules.length + (summary.diagnostics.filter Diagnostic.isHard).length := by
    have hModules : summary.modules.length = summary.order.length := by
      rw [← hNames, length_map]
    have hFaults := SourceFile.length_chunks_add_faults .inference files
    have hDuplicates := Schedule.length_order_add_duplicates buckets
      (files.filterMap SourceFile.chunk?)
    rw [hModules, hOrder, filter_isHard_diagnostics, length_append]
    omega
  have hSurvivors := ofChunks_congr buckets (SourceFile.find?_survivors files)
  refine ⟨hNames, ?_, ?_, ?_, hCodes, ?_⟩
  · rw [hOrder]
    exact Schedule.nodup_order_ofChunks buckets _
  · rw [hOrder, Schedule.order_ofSources]
  · rw [hCodes]
    exact hCount
  · rw [ofSources_eq]
    exact hSurvivors.imp (fun h => h.trans (congrArg order (ofSources_eq buckets files)).symm)
      fun h => h.trans (congrArg modules (ofSources_eq buckets files)).symm

end ProjectSummary

end LuaShape
