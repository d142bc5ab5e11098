import LuaShape.Proofs.LoadOrder.Permutation
import LuaShape.Proofs.Project.Chunks

/-!
# The order in which the files of a project are given does not matter

With distinct names, a chunk is found by its name whatever the order of the list.
The graphs of two permuted lists then hold the same files, so the load order is the
same, the same chunks are read in the same order, and all that is inferred is equal.
The reports about files that are no chunks come in the order of the files, and
ambiguous requires list their candidates in that order; apart from this the
diagnostics are the same too.

Main result: `ofSources_perm`.
-/

namespace LuaShape

open List

/-! ## Chunks by name -/

section Lookup

variable {α : Type} {entries entries' : List (String × α)}

/-- Among distinct names, an entry is found by its name. -/
theorem find?_name_eq_some_iff (hNames : (entries.map Prod.fst).Nodup) {name : String}
    {entry : String × α} :
    entries.find? (fun e => e.1 = name) = some entry ↔ entry ∈ entries ∧ entry.1 = name := by
  constructor
  · intro hFound
    exact ⟨mem_of_find?_eq_some hFound, by simpa using find?_some hFound⟩
  · rintro ⟨hEntry, rfl⟩
    have hSome : (entries.find? fun e => e.1 = entry.1).isSome = true :=
      find?_isSome.2 ⟨entry, hEntry, by simp⟩
    obtain ⟨found, hFound⟩ := Option.isSome_iff_exists.1 hSome
    have hName : found.1 = entry.1 := by simpa using find?_some hFound
    rw [hFound, inj_on_of_nodup_map hNames (mem_of_find?_eq_some hFound) hEntry hName]

theorem find?_name_perm (h : entries.Perm entries') (hNames : (entries.map Prod.fst).Nodup)
    (name : String) :
    entries.find? (fun e => e.1 = name) = entries'.find? (fun e => e.1 = name) := by
  have hNames' : (entries'.map Prod.fst).Nodup := (h.map Prod.fst).nodup_iff.1 hNames
  refine Option.ext fun entry => ?_
  rw [find?_name_eq_some_iff hNames, find?_name_eq_some_iff hNames', h.mem_iff]

end Lookup

/-! ## Load order -/

namespace Schedule

variable {chunks chunks' : List (String × Chunk)}

/-- Lists in which the same chunks are found by name. -/
theorem sameFiles_of_find?_eq (buckets : List String)
    (h : ∀ name, chunks.find? (fun e => e.1 = name) = chunks'.find? (fun e => e.1 = name)) :
    (graphOf buckets chunks).SameFiles (graphOf buckets chunks') where
  indexed := indexed_graphOf buckets chunks
  indexed' := indexed_graphOf buckets chunks'
  buckets := by rw [buckets_graphOf, buckets_graphOf]
  find? := by
    intro name
    rw [find?_graphOf, find?_graphOf, h]

theorem sameFiles_graphOf (buckets : List String) (h : chunks.Perm chunks')
    (hNames : (chunks.map Prod.fst).Nodup) :
    (graphOf buckets chunks).SameFiles (graphOf buckets chunks') :=
  sameFiles_of_find?_eq buckets (find?_name_perm h hNames)

/-- Permuted chunks have the same load order, and reports that are alike. -/
theorem ofChunks_alike (buckets : List String) (h : chunks.Perm chunks')
    (hNames : (chunks.map Prod.fst).Nodup) :
    (ofChunks buckets chunks).order = (ofChunks buckets chunks').order ∧
      ReportsAlike (ofChunks buckets chunks).diagnostics
        (ofChunks buckets chunks').diagnostics := by
  have hNames' : (chunks'.map Prod.fst).Nodup := (h.map Prod.fst).nodup_iff.1 hNames
  rw [order_ofChunks, order_ofChunks, diagnostics_ofChunks, diagnostics_ofChunks,
    duplicatesOf_eq_nil buckets hNames, duplicatesOf_eq_nil buckets hNames']
  exact ofGraph_alike (sameFiles_graphOf buckets h hNames)

end Schedule

/-! ## Summaries -/

theorem Inference.readAll_congr {chunks chunks' : List (String × Chunk)}
    (h : ∀ name, chunks.find? (fun e => e.1 = name) = chunks'.find? (fun e => e.1 = name))
    (s : Inference) (names : List String) : s.readAll chunks names = s.readAll chunks' names := by
  simp only [Inference.readAll, h]

namespace ProjectSummary

/-- The same reports, listed in any order and with candidates in any order. -/
def SameReports (ds ds' : List Diagnostic) : Prop :=
  ∃ mid, ds.Perm mid ∧ ReportsAlike mid ds'

theorem ofChunks_alike (buckets : List String) {chunks chunks' : List (String × Chunk)}
    (h : chunks.Perm chunks') (hNames : (chunks.map Prod.fst).Nodup) :
    (ofChunks buckets chunks).order = (ofChunks buckets chunks').order ∧
      (ofChunks buckets chunks).modules = (ofChunks buckets chunks').modules ∧
      ReportsAlike (ofChunks buckets chunks).diagnostics
        (ofChunks buckets chunks').diagnostics := by
  obtain ⟨hOrder, hReports⟩ := Schedule.ofChunks_alike buckets h hNames
  rw [ofChunks, ofChunks]
  dsimp only
  rw [hOrder, Inference.readAll_congr (find?_name_perm h hNames)]
  exact ⟨rfl, rfl, hReports.append (.refl _)⟩

/-- **Input order.**  For files with distinct names, permuting the files changes
neither the load order nor what is found out about the modules, and the
diagnostics only in their order and in that of the candidates they list. -/
theorem ofSources_perm (buckets : List String) {files files' : List SourceFile}
    (hPerm : files.Perm files') (hNames : (files.map SourceFile.name).Nodup) :
    (ofSources buckets files).order = (ofSources buckets files').order ∧
    (ofSources buckets files).modules = (ofSources buckets files').modules ∧
    SameReports (ofSources buckets files).diagnostics
      (ofSources buckets files').diagnostics := by
  have hChunks := hPerm.filterMap SourceFile.chunk?
  have hFaults := hPerm.filterMap (SourceFile.fault? .inference)
  have hDistinct : ((files.filterMap SourceFile.chunk?).map Prod.fst).Nodup :=
    hNames.sublist (SourceFile.names_chunks_sublist files)
  obtain ⟨hOrder, hModules, hReports⟩ := ofChunks_alike buckets hChunks hDistinct
  rw [ofSources_eq, ofSources_eq]
  exact ⟨hOrder, hModules, _, hFaults.append_right _, (ReportsAlike.refl _).append hReports⟩

set_option maxRecDepth 100000 in
/-- A require that two modules fit: the candidates are listed in the order of the
files, and nothing else changes. -/
theorem ofSources_perm_of_ambiguous :
    let files : List SourceFile := [⟨"x/m", ""⟩, ⟨"y/m", ""⟩, ⟨"z", "require 'm'"⟩]
    let files' : List SourceFile := [⟨"y/m", ""⟩, ⟨"z", "require 'm'"⟩, ⟨"x/m", ""⟩]
    files.Perm files' ∧ (files.map SourceFile.name).Nodup ∧
    Diagnostic.ambiguousRequire "z" "m" ["x/m", "y/m"] ∈ (ofSources [] files).diagnostics ∧
    Diagnostic.ambiguousRequire "z" "m" ["y/m", "x/m"] ∈ (ofSources [] files').diagnostics ∧
    (ofSources [] files).order = (ofSources [] files').order ∧
    (ofSources [] files).modules = (ofSources [] files').modules ∧
    SameReports (ofSources [] files).diagnostics (ofSources [] files').diagnostics := by
  intro files files'
  have hPerm : files.Perm files' := by decide
  have hNames : (files.map SourceFile.name).Nodup := by decide
  exact ⟨hPerm, hNames, by decide +kernel, by decide +kernel, ofSources_perm [] hPerm hNames⟩

end ProjectSummary

end LuaShape
