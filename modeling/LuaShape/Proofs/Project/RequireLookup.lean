import LuaShape.Proofs.Project.Progress

/-!
# Both look-ups of required names agree

Required names are looked up twice: in the graph, to find the load order, and by the reader
of a module, to find what the name stands for.  The graph keeps its files in the order of
insertion, remembers the bucket of each and tells missing from ambiguous names.  The reader
keeps modules in load order, finds the buckets of candidates anew and only says whether a
module was found.  Both follow the rule `ModuleName.Means`, which does not depend on an
order, so that they lead to the same module.

Main result: `lookups_lead_to_same_module`.
-/

namespace LuaShape

open ModuleName (bucketOf ofRequire)

namespace Inference

variable {buckets names done : List String} {s : Inference} {name : String}

/-- Reading modules, known ones only, in any order and with any chunks. -/
theorem Known.readEach (h : Known buckets names done s) (hNames : names.Nodup)
    {read : List (String × Chunk)} (hRead : ∀ entry ∈ read, entry.1 ∈ names) :
    ∃ done', Known buckets names done'
      (read.foldl (fun s entry => s.readModule entry.1 entry.2) s) := by
  induction read generalizing s done with
  | nil => exact ⟨done, h⟩
  | cons entry rest ih =>
    exact ih (h.afterReading hNames (hRead entry List.mem_cons_self) entry.2) fun other hOther =>
      hRead other (List.mem_cons_of_mem entry hOther)

theorem fst_resolveRequire (s : Inference) (argument : String) :
    (s.resolveRequire argument).1 = s.findModule? (ofRequire argument) := by
  rw [resolveRequire]
  split
  · rename_i hNone
    rw [hNone]
  · rename_i hSome
    rw [hSome]
    dsimp only
    split <;> rfl

/-- What the reader of a module finds under a name. -/
theorem At.resolveRequire_eq_some_iff (h : At buckets names done name s)
    {argument target : String} :
    (s.resolveRequire argument).1 = some target ↔
      ModuleName.Means buckets names (ofRequire argument) (bucketOf buckets name) target := by
  have hBuckets : s.outline.buckets = buckets := h.buckets_eq
  rw [fst_resolveRequire, findModule?_eq_some_iff, Outline.Finds, h.names, h.reader, hBuckets]
  rfl

end Inference

namespace Graph

/-- Files with distinct names are all in the graph. -/
theorem perm_keys_ofFiles (buckets : List String) {files : List (String × Effects)}
    (h : (files.map Prod.fst).Nodup) :
    (ofFiles buckets files).files.keys.Perm (files.map Prod.fst) :=
  (List.perm_ext_iff_of_nodup (OrderedMap.distinct _) h).2 fun _ => mem_keys_ofFiles

/-- What a name leads to in the graph. -/
theorem resolve_ofFiles_eq_found_iff (buckets : List String) {files : List (String × Effects)}
    {names : List String} (hFiles : (files.map Prod.fst).Nodup)
    (hNames : names.Perm (files.map Prod.fst)) {name target : String} {bucket : Option String} :
    (ofFiles buckets files).resolve name bucket = .found target ↔
      ModuleName.Means buckets names name bucket target := by
  have hBuckets : (ofFiles buckets files).buckets = buckets :=
    buckets_insertAll (empty buckets) files
  rw [(indexed_ofFiles buckets files).resolve_eq_found_iff, hBuckets,
    ModuleName.Means.perm ((perm_keys_ofFiles buckets hFiles).trans hNames.symm)]

end Graph

/-- **Both look-ups lead to the same module.**  Take files with distinct names, in the order
in which they are inserted into a graph, and the same names in the order in which the modules
are made known.  Whatever has been read before, at any point of reading a module, a require
leads the reader to a module exactly when the name leads there in the graph from the bucket
of the module being read, which is the bucket that the graph remembers. -/
theorem lookups_lead_to_same_module {buckets names : List String}
    {files : List (String × Effects)} {read : List (String × Chunk)} {module : String}
    {s : Inference} (hFiles : (files.map Prod.fst).Nodup)
    (hNames : names.Perm (files.map Prod.fst)) (hRead : ∀ entry ∈ read, entry.1 ∈ names)
    (hModule : module ∈ names)
    (hReading : Told (fun _ => True)
      ((read.foldl (fun s entry => s.readModule entry.1 entry.2)
        ((Inference.empty buckets).registerAll names)).beginModule module).2 s)
    (argument target : String) :
    let g := Graph.ofFiles buckets files
    (g.files.find? module).bind ProjectFile.bucket = bucketOf buckets module ∧
      ((s.resolveRequire argument).1 = some target ↔
        g.resolve (ofRequire argument) (bucketOf buckets module) = .found target) := by
  intro g
  have hDistinct : names.Nodup := hNames.nodup_iff.2 hFiles
  have hStart : Inference.Known buckets names [] ((Inference.empty buckets).registerAll names) :=
    (Inference.Known.empty buckets).registerAll hDistinct
  obtain ⟨done, hKnown⟩ := hStart.readEach hDistinct hRead
  obtain ⟨new, hNew, -⟩ := hReading.outline
  have hAt := (hKnown.beginModule hModule).report hNew
  constructor
  · have hKey : module ∈ g.files.keys :=
      ((Graph.perm_keys_ofFiles buckets hFiles).trans hNames.symm).mem_iff.2 hModule
    have hBuckets : g.buckets = buckets := Graph.buckets_insertAll (Graph.empty buckets) files
    rw [(Graph.indexed_ofFiles buckets files).bucket_find? hKey, hBuckets]
  · rw [hAt.resolveRequire_eq_some_iff, Graph.resolve_ofFiles_eq_found_iff buckets hFiles hNames]

set_option maxRecDepth 100000 in
/-- A short name of two modules, required from the bucket of one of them when the other one
has been read. -/
theorem short_name_of_two_modules :
    let buckets := ["x", "y"]
    let files : List (String × Effects) := [("x/m", default), ("y/m", default), ("x/z", default)]
    let names := ["y/m", "x/z", "x/m"]
    let read := [SourceFile.mk "y/m" "f = 1"].filterMap SourceFile.chunk?
    let s := ((read.foldl (fun s entry => s.readModule entry.1 entry.2)
      ((Inference.empty buckets).registerAll names)).beginModule "x/z").2
    read.map Prod.fst = ["y/m"] ∧
      (Graph.ofFiles buckets files).resolve "m" none = .ambiguous ["x/m", "y/m"] ∧
      (Graph.ofFiles buckets files).resolve "m" (bucketOf buckets "x/z") = .found "x/m" ∧
      (s.resolveRequire "m.lua").1 = some "x/m" := by
  intro buckets files names read s
  have hFiles : (files.map Prod.fst).Nodup := by decide
  have hNames : names.Perm (files.map Prod.fst) := by decide
  have hRead : ∀ entry ∈ read, entry.1 ∈ names := by decide +kernel
  have hFound : (Graph.ofFiles buckets files).resolve (ofRequire "m.lua")
      (bucketOf buckets "x/z") = .found "x/m" := by decide +kernel
  refine ⟨by decide +kernel, by decide +kernel, hFound, ?_⟩
  exact (lookups_lead_to_same_module hFiles hNames hRead (by decide) (.refl s) "m.lua" "x/m").2.2
    hFound

end LuaShape
