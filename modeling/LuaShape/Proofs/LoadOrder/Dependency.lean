import LuaShape.LoadOrder.Schedule
import LuaShape.Proofs.Module.Meaning
import Mathlib.Data.List.Nodup
import Mathlib.Logic.Relation

/-!
# What the indexes of a graph say

A graph is only ever built by inserting files one after the other.  The two
indexes are then no facts of their own: the short-name index lists the files
that have the short name among their aliases, the setter index those that
assign the global, both in the order of insertion.  `Indexed` states this, and
`indexed_ofFiles` proves it for every sequence of insertions, those that were
refused included.

From it follows what a dependency is without any index: `DependsOn` speaks of
the required names, the globals read and the globals assigned alone, and
`mem_dependencies_iff` says that the computed set is that relation.
-/

namespace LuaShape.Graph

open List

open ModuleName (Means bucketOf candidates candidatesIn mem_candidates)

/-- Insert files one after the other; one whose name is taken changes nothing. -/
def insertAll (g : Graph) (files : List (String × Effects)) : Graph :=
  files.foldl (fun g file => (g.insert? file.1 file.2).getD g) g

/-- The graph that a sequence of insertions builds. -/
def ofFiles (buckets : List String) (files : List (String × Effects)) : Graph :=
  (empty buckets).insertAll files

/-- The record that insertion makes of a file. -/
def record (buckets : List String) (name : String) (effects : Effects) : ProjectFile where
  name := name
  bucket := bucketOf buckets name
  effects := effects

/-! ## One insertion -/

/-- What an insertion leaves: nothing where the name is taken, else a graph with
one more file, named at the end of every list of the indexes it belongs to. -/
structure Inserted (g : Graph) (name : String) (effects : Effects) (g' : Graph) : Prop where
  fresh : name ∉ g.files.keys
  buckets : g'.buckets = g.buckets
  files : g'.files.entries = g.files.entries ++ [(name, record g.buckets name effects)]
  aliases : ∀ short, g'.aliases.get short =
    if short ∈ ModuleName.aliases name then g.aliases.get short ++ [name]
    else g.aliases.get short
  setters : ∀ global, g'.setters.get global =
    if global ∈ effects.writes then g.setters.get global ++ [name]
    else g.setters.get global

/-- A taken name is refused. -/
theorem insert?_of_mem {g : Graph} {name : String} (effects : Effects)
    (h : name ∈ g.files.keys) : g.insert? name effects = none := by
  rw [insert?, if_pos (OrderedMap.contains_iff_mem_keys.2 h)]

/-- A new name is accepted. -/
theorem exists_inserted {g : Graph} {name : String} (effects : Effects)
    (h : name ∉ g.files.keys) :
    ∃ g', g.insert? name effects = some g' ∧ Inserted g name effects g' := by
  have hFree : ¬ g.files.contains name = true := by
    rwa [OrderedMap.contains_iff_mem_keys]
  refine ⟨_, by rw [insert?, if_neg hFree], ?_⟩
  exact
    { fresh := h
      buckets := rfl
      files := OrderedMap.entries_upsert_of_not_mem h
      aliases := fun short =>
        OrderedMap.get_foldl_push name (ModuleName.nodup_aliases name) g.aliases short
      setters := fun global =>
        OrderedMap.get_foldl_push name effects.writes.nodup_toList g.setters global }

/-- An insertion that is refused changes nothing; the other kind adds the file. -/
theorem insert_cases (g : Graph) (name : String) (effects : Effects) :
    (name ∈ g.files.keys ∧ g.insert? name effects = none) ∨
    ∃ g', g.insert? name effects = some g' ∧ Inserted g name effects g' := by
  by_cases h : name ∈ g.files.keys
  · exact Or.inl ⟨h, insert?_of_mem effects h⟩
  · exact Or.inr (exists_inserted effects h)

namespace Inserted

variable {g g' : Graph} {name : String} {effects : Effects}

variable (h : Inserted g name effects g')
include h

theorem keys : g'.files.keys = g.files.keys ++ [name] := by
  simp [OrderedMap.keys, h.files]

theorem values : g'.files.values = g.files.values ++ [record g.buckets name effects] := by
  simp [OrderedMap.values, h.files]

/-- The new file is found under its name, every other file where it was. -/
theorem find? (x : String) :
    g'.files.find? x =
      if x = name then some (record g.buckets name effects) else g.files.find? x := by
  ext file
  rw [OrderedMap.find?_eq_some_iff, h.files, mem_append, mem_singleton,
    ← OrderedMap.find?_eq_some_iff, Prod.mk.injEq]
  by_cases hx : x = name
  · subst hx
    have hNone : g.files.find? x ≠ some file := fun hSome =>
      h.fresh (OrderedMap.mem_keys_iff.2 ⟨file, hSome⟩)
    simp [hNone, eq_comm]
  · simp [hx]

end Inserted

/-! ## Sequences of insertions -/

/-- The files are recorded under their names, and the indexes list exactly the
files that belong there, in the order of insertion. -/
structure Indexed (g : Graph) : Prop where
  recorded : ∀ name file, g.files.find? name = some file →
    file = record g.buckets name file.effects
  aliases : ∀ short, g.aliases.get short =
    g.files.keys.filter fun name => short ∈ ModuleName.aliases name
  setters : ∀ global, g.setters.get global =
    (g.files.values.filter fun file => global ∈ file.effects.writes).map ProjectFile.name

theorem indexed_empty (buckets : List String) : (empty buckets).Indexed where
  recorded := fun _ _ h => by cases h
  aliases := fun _ => rfl
  setters := fun _ => rfl

theorem Indexed.insert {g g' : Graph} {name : String} {effects : Effects}
    (hg : g.Indexed) (h : Inserted g name effects g') : g'.Indexed := by
  refine { recorded := ?_, aliases := ?_, setters := ?_ }
  · intro x file hFound
    rw [h.find?] at hFound
    rw [h.buckets]
    split at hFound
    · rename_i hx
      subst hx
      cases hFound
      rfl
    · exact hg.recorded x file hFound
  · intro short
    rw [h.aliases, h.keys, hg.aliases, filter_append, filter_singleton]
    by_cases hShort : short ∈ ModuleName.aliases name
    · simp [hShort]
    · simp [hShort]
  · intro global
    rw [h.setters, h.values, hg.setters, filter_append, filter_singleton,
      map_append]
    by_cases hGlobal : global ∈ effects.writes
    · simp [hGlobal, record]
    · simp [hGlobal, record]

theorem Indexed.insertAll {g : Graph} (hg : g.Indexed) (files : List (String × Effects)) :
    (g.insertAll files).Indexed := by
  induction files generalizing g with
  | nil => exact hg
  | cons file rest ih =>
    rw [Graph.insertAll, foldl_cons]
    obtain ⟨-, hRefused⟩ | ⟨g', hSome, hInserted⟩ := g.insert_cases file.1 file.2
    · rw [hRefused]
      exact ih hg
    · rw [hSome]
      exact ih (hg.insert hInserted)

theorem indexed_ofFiles (buckets : List String) (files : List (String × Effects)) :
    (ofFiles buckets files).Indexed :=
  (indexed_empty buckets).insertAll files

theorem buckets_insertAll (g : Graph) (files : List (String × Effects)) :
    (g.insertAll files).buckets = g.buckets := by
  induction files generalizing g with
  | nil => rfl
  | cons file rest ih =>
    rw [insertAll, foldl_cons]
    obtain ⟨-, hRefused⟩ | ⟨g', hSome, hInserted⟩ := g.insert_cases file.1 file.2
    · rw [hRefused]
      exact ih g
    · rw [hSome, ← hInserted.buckets]
      exact ih g'

/-- Of the files of a name the first is kept. -/
theorem find?_insertAll (g : Graph) (files : List (String × Effects)) (name : String) :
    (g.insertAll files).files.find? name =
      (g.files.find? name).or
        ((files.find? fun file => file.1 = name).map fun file =>
          record g.buckets name file.2) := by
  induction files generalizing g with
  | nil => simp [insertAll]
  | cons file rest ih =>
    rw [insertAll, foldl_cons, find?_cons]
    obtain ⟨hTaken, hRefused⟩ | ⟨g', hSome, hInserted⟩ := g.insert_cases file.1 file.2
    · rw [hRefused, Option.getD_none]
      refine (ih g).trans ?_
      by_cases hName : file.1 = name
      · subst hName
        obtain ⟨kept, hKept⟩ := OrderedMap.mem_keys_iff.1 hTaken
        simp [hKept]
      · simp [hName]
    · rw [hSome, Option.getD_some]
      refine (ih g').trans ?_
      rw [hInserted.find?, hInserted.buckets]
      by_cases hName : file.1 = name
      · subst hName
        have hFree : g.files.find? file.1 = none := by
          rw [Option.eq_none_iff_forall_ne_some]
          exact fun kept hKept =>
            hInserted.fresh (OrderedMap.mem_keys_iff.2 ⟨kept, hKept⟩)
        simp [hFree]
      · simp [hName, Ne.symm hName]

theorem find?_ofFiles (buckets : List String) (files : List (String × Effects))
    (name : String) :
    (ofFiles buckets files).files.find? name =
      (files.find? fun file => file.1 = name).map fun file => record buckets name file.2 := by
  rw [ofFiles, find?_insertAll]
  rfl

/-- The files of a graph are those that were inserted. -/
theorem mem_keys_ofFiles {buckets : List String} {files : List (String × Effects)}
    {name : String} :
    name ∈ (ofFiles buckets files).files.keys ↔ name ∈ files.map Prod.fst := by
  rw [OrderedMap.mem_keys_iff, find?_ofFiles]
  simp only [Option.map_eq_some_iff, mem_map]
  constructor
  · rintro ⟨_, file, hFile, -⟩
    exact ⟨file, mem_of_find?_eq_some hFile, by simpa using find?_some hFile⟩
  · rintro ⟨file, hFile, rfl⟩
    have hSome : (files.find? fun other => other.1 = file.1).isSome = true :=
      find?_isSome.2 ⟨file, hFile, by simp⟩
    obtain ⟨kept, hKept⟩ := Option.isSome_iff_exists.1 hSome
    exact ⟨_, kept, hKept, rfl⟩

/-! ## Required names -/

namespace Indexed

variable {g : Graph}

variable (hg : g.Indexed)
include hg

theorem get_aliases (short : String) : g.aliases.get short = candidates g.files.keys short :=
  hg.aliases short

theorem bucket_find? {name : String} (h : name ∈ g.files.keys) :
    (g.files.find? name).bind ProjectFile.bucket = bucketOf g.buckets name := by
  obtain ⟨file, hFile⟩ := OrderedMap.mem_keys_iff.1 h
  rw [hFile, Option.bind_some, hg.recorded name file hFile]
  rfl

/-- The search among several candidates is the one for those of the bucket. -/
theorem filter_candidates (short : String) (bucket : Option String) :
    ((candidates g.files.keys short).filter fun id =>
      bucket.isSome && (g.files.find? id).bind ProjectFile.bucket = bucket) =
      candidatesIn g.buckets g.files.keys short bucket := by
  refine filter_congr ?_
  intro id hId
  rw [hg.bucket_find? (mem_candidates.1 hId).1]

/-- What a required name is resolved to, without the indexes. -/
theorem resolve_eq (name : String) (bucket : Option String) :
    g.resolve name bucket =
      if name ∈ g.files.keys then .found name
      else
        match candidates g.files.keys name with
        | [] => .missing
        | [only] => .found only
        | several =>
          match candidatesIn g.buckets g.files.keys name bucket with
          | [only] => .found only
          | _ => .ambiguous several := by
  rw [resolve, ← hg.filter_candidates, hg.get_aliases]
  by_cases hName : name ∈ g.files.keys
  · rw [if_pos (OrderedMap.contains_iff_mem_keys.2 hName), if_pos hName]
  · rw [if_neg (by rwa [OrderedMap.contains_iff_mem_keys]), if_neg hName]
    rcases candidates g.files.keys name with _ | ⟨only, _ | ⟨other, rest⟩⟩
    · rfl
    · rfl
    · rfl

variable {bucket : Option String}

/-- A required name leads to the file that it means. -/
theorem resolve_eq_found_iff {name target : String} :
    g.resolve name bucket = .found target ↔
      Means g.buckets g.files.keys name bucket target := by
  rw [hg.resolve_eq, Means]
  split
  · simp [eq_comm]
  · rcases hAll : candidates g.files.keys name with _ | ⟨only, _ | ⟨other, rest⟩⟩
    · simp [ModuleName.candidatesIn_eq_nil hAll]
    · have hOnly : candidatesIn g.buckets g.files.keys name bucket = [target] →
          only = target := ModuleName.eq_of_candidatesIn hAll
      simpa using hOnly
    · rcases candidatesIn g.buckets g.files.keys name bucket with _ | ⟨near, _ | ⟨_, _⟩⟩
      · simp
      · simp
      · simp

/-- A name that leads to no file is missing or ambiguous, with all candidates. -/
theorem resolve_of_not_found {name : String} (h : ∀ target, g.resolve name bucket ≠ .found target) :
    g.resolve name bucket =
      if candidates g.files.keys name = [] then .missing
      else .ambiguous (candidates g.files.keys name) := by
  rw [hg.resolve_eq] at h ⊢
  split
  · rename_i hName
    exact absurd (if_pos hName) (h name)
  · rename_i hName
    simp only [if_neg hName] at h
    rcases hAll : candidates g.files.keys name with _ | ⟨only, _ | ⟨other, rest⟩⟩
    · rfl
    · rw [hAll] at h
      exact absurd rfl (h only)
    · rw [hAll] at h
      rw [if_neg (cons_ne_nil only _)]
      rcases hNear : candidatesIn g.buckets g.files.keys name bucket with
        _ | ⟨near, _ | ⟨_, _⟩⟩
      · rfl
      · rw [hNear] at h
        exact absurd rfl (h near)
      · rfl

theorem mem_keys_of_resolve {name target : String} (h : g.resolve name bucket = .found target) :
    target ∈ g.files.keys :=
  (hg.resolve_eq_found_iff.1 h).mem

end Indexed

/-! ## Dependencies -/

/-- A file depends on another one that it requires, or that assigns a global which
it reads. -/
def DependsOn (g : Graph) (name other : String) : Prop :=
  other ≠ name ∧ ∃ file, g.files.find? name = some file ∧
    ((∃ required ∈ file.effects.requires, g.resolve required file.bucket = .found other) ∨
      ∃ setter, g.files.find? other = some setter ∧
        ∃ global ∈ file.effects.reads, global ∈ setter.effects.writes)

/-- A file leads to another one along one or more dependencies. -/
def LeadsTo (g : Graph) : String → String → Prop := Relation.TransGen g.DependsOn

/-- No file leads back to itself. -/
def Acyclic (g : Graph) : Prop := ∀ name, ¬ g.LeadsTo name name

theorem requireTarget?_eq_some_iff {g : Graph} {file : ProjectFile} {required other : String} :
    g.requireTarget? file required = some other ↔
      g.resolve required file.bucket = .found other ∧ other ≠ file.name := by
  rw [requireTarget?]
  split
  · rename_i target hFound
    rw [hFound]
    by_cases hSelf : target = file.name
    · rw [if_pos hSelf]
      simp only [reduceCtorEq, RequireTarget.found.injEq, false_iff, not_and, not_not]
      rintro rfl
      exact hSelf
    · rw [if_neg hSelf]
      simp only [Option.some.injEq, RequireTarget.found.injEq, iff_self_and]
      rintro rfl
      exact hSelf
  · rename_i hOther
    simp only [reduceCtorEq, false_iff, not_and]
    exact fun hFound => absurd hFound (hOther other)

namespace Indexed

variable {g : Graph}

variable (hg : g.Indexed)
include hg

theorem name_find? {name : String} {file : ProjectFile} (h : g.files.find? name = some file) :
    file.name = name := by
  rw [hg.recorded name file h]
  rfl

variable {name other : String}

theorem mem_explicitDependencies_iff :
    other ∈ g.explicitDependencies name ↔
      other ≠ name ∧ ∃ file, g.files.find? name = some file ∧
        ∃ required ∈ file.effects.requires, g.resolve required file.bucket = .found other := by
  rw [explicitDependencies]
  cases hFile : g.files.find? name with
  | none => simp [EmptyCollection.emptyCollection]
  | some file =>
    simp only [SortedSet.mem_ofList, mem_filterMap, requireTarget?_eq_some_iff,
      hg.name_find? hFile, Option.some.injEq, exists_eq_left']
    constructor
    · rintro ⟨required, hRequired, hFound, hNe⟩
      exact ⟨hNe, required, hRequired, hFound⟩
    · rintro ⟨hNe, required, hRequired, hFound⟩
      exact ⟨required, hRequired, hFound, hNe⟩

theorem mem_setters_iff {global other : String} :
    other ∈ g.setters.get global ↔
      ∃ setter, g.files.find? other = some setter ∧ global ∈ setter.effects.writes := by
  rw [hg.setters, mem_map]
  simp only [mem_filter, decide_eq_true_eq, OrderedMap.values, mem_map, Prod.exists]
  constructor
  · rintro ⟨setter, ⟨⟨name, setter, hEntry, rfl⟩, hWrites⟩, rfl⟩
    have hFound := OrderedMap.find?_eq_some_iff.2 hEntry
    rw [hg.name_find? hFound]
    exact ⟨setter, hFound, hWrites⟩
  · rintro ⟨setter, hFound, hWrites⟩
    exact ⟨setter, ⟨⟨other, setter, OrderedMap.find?_eq_some_iff.1 hFound, rfl⟩, hWrites⟩,
      hg.name_find? hFound⟩

theorem mem_implicitDependencies_iff :
    other ∈ g.implicitDependencies name ↔
      other ≠ name ∧ ∃ file, g.files.find? name = some file ∧
        ∃ setter, g.files.find? other = some setter ∧
          ∃ global ∈ file.effects.reads, global ∈ setter.effects.writes := by
  rw [implicitDependencies]
  cases hFile : g.files.find? name with
  | none => simp [EmptyCollection.emptyCollection]
  | some file =>
    simp only [SortedSet.mem_ofList, mem_filter, mem_flatMap, hg.mem_setters_iff,
      decide_eq_true_eq, Option.some.injEq, exists_eq_left']
    constructor
    · rintro ⟨⟨global, hReads, setter, hSetter, hWrites⟩, hNe⟩
      exact ⟨hNe, setter, hSetter, global, hReads, hWrites⟩
    · rintro ⟨hNe, setter, hSetter, global, hReads, hWrites⟩
      exact ⟨⟨global, hReads, setter, hSetter, hWrites⟩, hNe⟩

/-- The computed dependencies are those that the files have by their effects. -/
theorem mem_dependencies_iff : other ∈ g.dependencies name ↔ g.DependsOn name other := by
  rw [dependencies, SortedSet.mem_union, hg.mem_explicitDependencies_iff,
    hg.mem_implicitDependencies_iff, DependsOn]
  constructor
  · rintro (⟨hNe, file, hFile, h⟩ | ⟨hNe, file, hFile, h⟩)
    · exact ⟨hNe, file, hFile, Or.inl h⟩
    · exact ⟨hNe, file, hFile, Or.inr h⟩
  · rintro ⟨hNe, file, hFile, h | h⟩
    · exact Or.inl ⟨hNe, file, hFile, h⟩
    · exact Or.inr ⟨hNe, file, hFile, h⟩

/-- Only files of the graph are depended on. -/
theorem mem_keys_of_dependsOn (h : g.DependsOn name other) : other ∈ g.files.keys := by
  obtain ⟨-, file, -, ⟨required, -, hFound⟩ | ⟨setter, hSetter, -⟩⟩ := h
  · exact hg.mem_keys_of_resolve hFound
  · exact OrderedMap.mem_keys_iff.2 ⟨setter, hSetter⟩

end Indexed

end LuaShape.Graph
