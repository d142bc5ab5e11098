import LuaShape.Proofs.Inference.Modules
import LuaShape.Proofs.Project.Chunks

/-!
# What has been read when it is required

The load order is found from the effects of the files, and the files are then read
in that order.  If no function body requires a module, the reader meets only
requires that are among the effects.  Each of them is then a dependency in the
graph, so the required module stands first unless the edge was ignored, and the
report that it was is among the diagnostics.

Main result: `requiredEarly_only_on_broken_cycle`.
-/

namespace LuaShape

open List

namespace Schedule

variable {buckets : List String} {chunks : List (String × Chunk)} {name : String}

/-- A module required at load time is a dependency. -/
theorem dependsOn_of_loadRequires {chunk : Chunk} {target : String}
    (hChunk : chunks.find? (fun entry => entry.1 = name) = some (name, chunk))
    (h : Inference.LoadRequires buckets (ofChunks buckets chunks).order name chunk target) :
    (graphOf buckets chunks).DependsOn name target := by
  obtain ⟨hOther, required, hRequired, hMeans⟩ := h
  refine ⟨hOther, Graph.record buckets name (Effects.ofChunk chunk), ?_, Or.inl ?_⟩
  · rw [find?_graphOf, hChunk]
    rfl
  · refine ⟨required, hRequired, (indexed_graphOf buckets chunks).resolve_eq_found_iff.2 ?_⟩
    rw [← ModuleName.Means.perm (perm_order_ofChunks buckets chunks), buckets_graphOf]
    exact hMeans

/-- A module required at load time stands first exactly when no broken cycle is
reported for the two. -/
theorem precedes_ofChunks {chunk : Chunk} {target : String}
    (hChunk : chunks.find? (fun entry => entry.1 = name) = some (name, chunk))
    (h : Inference.LoadRequires buckets (ofChunks buckets chunks).order name chunk target) :
    Precedes (ofChunks buckets chunks).order target name ↔
      Diagnostic.cycleBroken name target ∉ (ofChunks buckets chunks).diagnostics := by
  have hDepends := dependsOn_of_loadRequires hChunk h
  have hNone : Diagnostic.cycleBroken name target ∉ duplicatesOf buckets chunks := by
    intro hMem
    obtain ⟨_, hd⟩ := mem_duplicatesOf hMem
    cases hd
  rw [order_ofChunks, precedes_order_iff (indexed_graphOf buckets chunks) hDepends,
    diagnostics_ofChunks, mem_append, or_iff_right hNone]

/-- The search for an order does not speak of early requires. -/
theorem requiredEarly_not_mem_ofChunks (buckets : List String)
    (chunks : List (String × Chunk)) (file target : String) :
    Diagnostic.requiredEarly file target ∉ (ofChunks buckets chunks).diagnostics := by
  rw [diagnostics_ofChunks, mem_append]
  rintro (h | h)
  · obtain ⟨_, hd⟩ := mem_duplicatesOf h
    cases hd
  · obtain ⟨x, hx⟩ | ⟨x, y, hxy⟩ :=
      (orderly_finished (indexed_graphOf buckets chunks)).reports _ h
    · rcases mem_requireReports hx with ⟨_, _, _, hd⟩ | ⟨_, _, hd⟩ <;> cases hd
    · cases hxy

end Schedule

namespace ProjectSummary

open Inference (LoadRequires)

/-- What reading the modules of chunks in load order reports. -/
theorem misplaced_of_mem {buckets : List String} {chunks : List (String × Chunk)}
    (hChunks : ∀ entry ∈ chunks, NestedRequires.ofChunk entry.2 = []) {d : Diagnostic}
    (h : d ∈ (ofChunks buckets chunks).diagnostics) :
    d ∈ (Schedule.ofChunks buckets chunks).diagnostics ∨
      Inference.Misplaced buckets (Schedule.ofChunks buckets chunks).order chunks d := by
  refine (mem_append.1 h).imp_right fun hRead => ?_
  refine Inference.misplaced_of_mem_readAll (Schedule.nodup_order_ofChunks buckets chunks)
    (fun name hName => ?_) hRead
  obtain ⟨chunk, hChunk⟩ := Schedule.exists_chunk hName
  exact ⟨chunk, hChunks _ (mem_of_find?_eq_some hChunk), hChunk⟩

/-- If no function body requires a module, a report that a module was required before
it was read comes with the report of a broken cycle. -/
theorem cycleBroken_of_requiredEarly {buckets : List String} {chunks : List (String × Chunk)}
    (hChunks : ∀ entry ∈ chunks, NestedRequires.ofChunk entry.2 = []) {file target : String}
    (h : Diagnostic.requiredEarly file target ∈ (ofChunks buckets chunks).diagnostics) :
    Diagnostic.cycleBroken file target ∈ (ofChunks buckets chunks).diagnostics := by
  obtain ⟨name, chunk, other, hChunk, hRequires, hBehind, hd⟩ :=
    (misplaced_of_mem hChunks h).resolve_left
      (Schedule.requiredEarly_not_mem_ofChunks buckets chunks file target)
  cases hd
  have hBroken := mt (Schedule.precedes_ofChunks hChunk hRequires).2 hBehind
  exact mem_append_left _ (not_not.1 hBroken)

/-- **Required modules have been read.**  Whatever the files and buckets, if no
function body requires a module, then every report that a module was required
before it was read comes with the report that the cycle through the two was broken.
Without such a report, all modules required at load time stand before the module
that requires them, in the order in which they are read. -/
theorem requiredEarly_only_on_broken_cycle (buckets : List String) (files : List SourceFile)
    (hFiles : ∀ entry ∈ files.filterMap SourceFile.chunk?,
      NestedRequires.ofChunk entry.2 = []) :
    let summary := ofSources buckets files
    (∀ name target, Diagnostic.requiredEarly name target ∈ summary.diagnostics →
      Diagnostic.cycleBroken name target ∈ summary.diagnostics) ∧
    ((∀ name target, Diagnostic.cycleBroken name target ∉ summary.diagnostics) →
      ∀ name chunk target,
        (files.filterMap SourceFile.chunk?).find? (fun entry => entry.1 = name) =
          some (name, chunk) →
        LoadRequires buckets summary.order name chunk target →
        Schedule.Precedes summary.order target name) := by
  intro summary
  have hSummary : summary = _ := ofSources_eq buckets files
  rw [hSummary]
  dsimp only
  constructor
  · intro name target hEarly
    refine mem_append_right _ (cycleBroken_of_requiredEarly hFiles ?_)
    refine (mem_append.1 hEarly).resolve_left fun hFault => ?_
    obtain ⟨_, _, hd⟩ := SourceFile.mem_filterMap_fault hFault
    cases hd
  · intro hUnbroken name chunk target hChunk hRequires
    refine (Schedule.precedes_ofChunks hChunk hRequires).2 fun hBroken => ?_
    exact hUnbroken name target (mem_append_right _ (mem_append_left _ hBroken))

set_option maxRecDepth 100000 in
/-- Two files that require each other: the first one read asks for the second. -/
theorem requiredEarly_of_mutual_requires :
    let files : List SourceFile := [⟨"a", "require 'b'"⟩, ⟨"b", "require 'a'"⟩]
    (∀ entry ∈ files.filterMap SourceFile.chunk?, NestedRequires.ofChunk entry.2 = []) ∧
    Diagnostic.requiredEarly "a" "b" ∈ (ofSources [] files).diagnostics ∧
    Diagnostic.cycleBroken "a" "b" ∈ (ofSources [] files).diagnostics := by
  intro files
  have hFiles : ∀ entry ∈ files.filterMap SourceFile.chunk?,
      NestedRequires.ofChunk entry.2 = [] := by
    decide +kernel
  have hEarly : Diagnostic.requiredEarly "a" "b" ∈ (ofSources [] files).diagnostics := by
    decide +kernel
  exact ⟨hFiles, hEarly, (requiredEarly_only_on_broken_cycle [] files hFiles).1 "a" "b" hEarly⟩

set_option maxRecDepth 100000 in
/-- A require in a function body is no dependency: the module may come too late without
any cycle. -/
example :
    let files : List SourceFile := [⟨"a", ""⟩, ⟨"b", "function f() require 'a' end"⟩]
    ((files.filterMap SourceFile.chunk?).map fun entry => NestedRequires.ofChunk entry.2) =
      [[], ["a"]] ∧
    (ofSources [] files).diagnostics = [.requiredEarly "b" "a"] := by
  decide +kernel

end ProjectSummary

end LuaShape
