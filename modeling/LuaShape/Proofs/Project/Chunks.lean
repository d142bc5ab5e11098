import LuaShape.Proofs.LoadOrder.Order
import LuaShape.Summary.Project

/-!
# The chunks of a project

Files are parsed, and the chunks among them are inserted into a graph and ordered.
This module says what comes of a list of files at each of these stages: the chunks
and the reports about the other files (`parseAll_eq`), the graph
(`find?_graphOf`) and the reports about names that are taken, the order
(`perm_order_ofChunks`) and the whole summary (`ofSources_eq`).
-/

namespace LuaShape

open List

/-! ## Graphs of chunks -/

namespace Schedule

variable {buckets : List String} {chunks : List (String × Chunk)} {name : String}

/-- The files of chunks with their effects. -/
def effectsOf (chunks : List (String × Chunk)) : List (String × Effects) :=
  chunks.map fun file => (file.1, Effects.ofChunk file.2)

/-- The graph of chunks. -/
def graphOf (buckets : List String) (chunks : List (String × Chunk)) : Graph :=
  Graph.ofFiles buckets (effectsOf chunks)

theorem indexed_graphOf (buckets : List String) (chunks : List (String × Chunk)) :
    (graphOf buckets chunks).Indexed :=
  Graph.indexed_ofFiles buckets (effectsOf chunks)

theorem buckets_graphOf (buckets : List String) (chunks : List (String × Chunk)) :
    (graphOf buckets chunks).buckets = buckets :=
  Graph.buckets_insertAll (Graph.empty buckets) (effectsOf chunks)

/-- Adding files builds the graph of all insertions. -/
theorem fst_foldl_addFile (state : Graph × List Diagnostic)
    (files : List (String × Effects)) :
    (files.foldl addFile state).1 = state.1.insertAll files := by
  induction files generalizing state with
  | nil => rfl
  | cons file files ih =>
    rw [foldl_cons, ih, Graph.insertAll, Graph.insertAll, foldl_cons]
    congr 1
    rw [addFile]
    split <;> simp_all

/-- Adding files reports names that are taken, and nothing else. -/
theorem mem_snd_foldl_addFile {state : Graph × List Diagnostic}
    {files : List (String × Effects)} {d : Diagnostic}
    (h : d ∈ (files.foldl addFile state).2) : d ∈ state.2 ∨ ∃ name, d = .duplicate name := by
  induction files generalizing state with
  | nil => exact Or.inl h
  | cons file files ih =>
    rcases ih h with hFirst | hLater
    · rw [addFile] at hFirst
      split at hFirst
      · exact Or.inl hFirst
      · rcases mem_append.1 hFirst with hOld | hNew
        · exact Or.inl hOld
        · exact Or.inr ⟨file.1, mem_singleton.1 hNew⟩
    · exact Or.inr hLater

/-- Files with new and distinct names are all accepted. -/
theorem snd_foldl_addFile {g : Graph} {files : List (String × Effects)}
    (h : (g.files.keys ++ files.map Prod.fst).Nodup) (reports : List Diagnostic) :
    (files.foldl addFile (g, reports)).2 = reports := by
  induction files generalizing g with
  | nil => rfl
  | cons file files ih =>
    have hFresh : file.1 ∉ g.files.keys := fun hMem =>
      disjoint_of_nodup_append h hMem mem_cons_self
    obtain ⟨g', hInsert, hInserted⟩ := Graph.exists_inserted file.2 hFresh
    rw [foldl_cons, addFile, hInsert]
    refine ih ?_
    rw [hInserted.keys, append_assoc]
    exact h

theorem order_ofChunks (buckets : List String) (chunks : List (String × Chunk)) :
    (ofChunks buckets chunks).order = (ofGraph (graphOf buckets chunks)).order := by
  rw [graphOf, Graph.ofFiles, ← fst_foldl_addFile (Graph.empty buckets, [])]
  rfl

/-- The reports about chunks with a name that is taken. -/
def duplicatesOf (buckets : List String) (chunks : List (String × Chunk)) :
    List Diagnostic :=
  ((effectsOf chunks).foldl addFile (Graph.empty buckets, [])).2

theorem mem_duplicatesOf {d : Diagnostic} (h : d ∈ duplicatesOf buckets chunks) :
    ∃ name, d = .duplicate name :=
  (mem_snd_foldl_addFile h).resolve_left not_mem_nil

/-- Distinct names are not reported. -/
theorem duplicatesOf_eq_nil (buckets : List String) (h : (chunks.map Prod.fst).Nodup) :
    duplicatesOf buckets chunks = [] := by
  refine snd_foldl_addFile ?_ []
  show ([] ++ (effectsOf chunks).map Prod.fst).Nodup
  rw [nil_append, effectsOf, map_map]
  exact h

theorem diagnostics_ofChunks (buckets : List String) (chunks : List (String × Chunk)) :
    (ofChunks buckets chunks).diagnostics =
      duplicatesOf buckets chunks ++ (ofGraph (graphOf buckets chunks)).diagnostics := by
  rw [graphOf, Graph.ofFiles, ← fst_foldl_addFile (Graph.empty buckets, [])]
  rfl

theorem perm_order_ofChunks (buckets : List String) (chunks : List (String × Chunk)) :
    (ofChunks buckets chunks).order.Perm (graphOf buckets chunks).files.keys := by
  rw [order_ofChunks]
  refine (perm_ext_iff_of_nodup (nodup_order ?_) (OrderedMap.distinct _)).2 fun name =>
    mem_order_iff ?_
  all_goals exact indexed_graphOf buckets chunks

theorem nodup_order_ofChunks (buckets : List String) (chunks : List (String × Chunk)) :
    (ofChunks buckets chunks).order.Nodup := by
  rw [order_ofChunks]
  exact nodup_order (indexed_graphOf buckets chunks)

/-- The graph holds the effects of the first chunk of a name. -/
theorem find?_graphOf (buckets : List String) (chunks : List (String × Chunk))
    (name : String) :
    (graphOf buckets chunks).files.find? name =
      (chunks.find? fun entry => entry.1 = name).map fun entry =>
        Graph.record buckets name (Effects.ofChunk entry.2) := by
  rw [graphOf, Graph.find?_ofFiles, effectsOf, find?_map, Option.map_map]
  rfl

/-- Every module of the order has a chunk. -/
theorem exists_chunk (h : name ∈ (ofChunks buckets chunks).order) :
    ∃ chunk, chunks.find? (fun entry => entry.1 = name) = some (name, chunk) := by
  rw [(perm_order_ofChunks buckets chunks).mem_iff, OrderedMap.mem_keys_iff] at h
  obtain ⟨file, hFile⟩ := h
  rw [find?_graphOf, Option.map_eq_some_iff] at hFile
  obtain ⟨⟨found, chunk⟩, hFound, -⟩ := hFile
  obtain rfl : found = name := by simpa using find?_some hFound
  exact ⟨chunk, hFound⟩

end Schedule

/-! ## Source files -/

namespace SourceFile

/-- The chunk of a file with its name, if it is one. -/
def chunk? (file : SourceFile) : Option (String × Chunk) :=
  (Chunk.parse file.text).toOption.map fun chunk => (file.name, chunk)

/-- The report that the outcome of parsing a file calls for. -/
def faultOf (stage : Stage) (name : String) : Except ParseError Chunk → Option Diagnostic
  | .ok _ => none
  | .error e => some (.unparsable stage name e)

/-- The report about a file that is no chunk. -/
def fault? (stage : Stage) (file : SourceFile) : Option Diagnostic :=
  faultOf stage file.name (Chunk.parse file.text)

/-- Every file is a chunk or is reported. -/
theorem parseAll_eq (stage : Stage) (files : List SourceFile) :
    parseAll stage files = (files.filterMap chunk?, files.filterMap (fault? stage)) := by
  induction files with
  | nil => rfl
  | cons file files ih =>
    have hStep : parseAll stage (file :: files) =
        match Chunk.parse file.text with
        | .ok chunk => ((file.name, chunk) :: (parseAll stage files).1, (parseAll stage files).2)
        | .error e =>
          ((parseAll stage files).1,
            .unparsable stage file.name e :: (parseAll stage files).2) :=
      rfl
    rw [hStep, ih, filterMap_cons, filterMap_cons, chunk?, fault?]
    cases Chunk.parse file.text <;> rfl

theorem mem_filterMap_fault {stage : Stage} {files : List SourceFile} {d : Diagnostic}
    (h : d ∈ files.filterMap (fault? stage)) : ∃ file error, d = .unparsable stage file error := by
  obtain ⟨file, -, hFault⟩ := mem_filterMap.1 h
  rw [fault?] at hFault
  cases hParse : Chunk.parse file.text with
  | ok chunk => simp [hParse, faultOf] at hFault
  | error e =>
    rw [hParse] at hFault
    cases hFault
    exact ⟨file.name, e, rfl⟩

/-- The names of the chunks are names of files, in the same order. -/
theorem names_chunks_sublist (files : List SourceFile) :
    ((files.filterMap chunk?).map Prod.fst).Sublist (files.map name) := by
  induction files with
  | nil => exact .slnil
  | cons file files ih =>
    rw [filterMap_cons, chunk?]
    cases Chunk.parse file.text with
    | error e => exact ih.cons file.name
    | ok chunk => exact ih.cons_cons file.name

end SourceFile

theorem ProjectSummary.ofSources_eq (buckets : List String) (files : List SourceFile) :
    ofSources buckets files =
      { ofChunks buckets (files.filterMap SourceFile.chunk?) with
        diagnostics := files.filterMap (SourceFile.fault? .inference) ++
          (ofChunks buckets (files.filterMap SourceFile.chunk?)).diagnostics } := by
  rw [ofSources, SourceFile.parseAll_eq]

end LuaShape
