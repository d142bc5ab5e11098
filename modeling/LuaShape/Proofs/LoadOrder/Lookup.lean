import LuaShape.Proofs.LoadOrder.Dependency
import Mathlib.Data.List.Induction
import Mathlib.Data.List.TakeWhile

/-!
# What the indexes of a graph answer

A graph answers two questions through its indexes: what a required name stands for, and which
files assign a global that a file reads.  Here both answers are said from the insertions alone.

The names of a graph are those inserted, in the order in which they came first.  `LooksUp`
gives the rules for a required name over this list: it knows neither the index of short names
nor the buckets that the records of files carry, and says what it is to be a short name and to
lie in a bucket by how the names are spelled (`EndsIn`, `LiesIn`).

Main result: `indexes_meet_meaning`.
-/

namespace LuaShape

open List

namespace ModuleName

/-! ## Spelling -/

/-- A name ends in a shorter one that starts behind a `/`. -/
def EndsIn (name short : String) : Prop := ∃ front, name = front ++ "/" ++ short

/-- A name lies in a bucket: the bucket is a configured one, and it is the first part of the
name. -/
def LiesIn (buckets : List String) (name bucket : String) : Prop :=
  bucket ∈ buckets ∧ '/' ∉ bucket.toList ∧ (name = bucket ∨ ∃ rest, name = bucket ++ "/" ++ rest)

theorem mem_aliases_iff {name short : String} : short ∈ aliases name ↔ EndsIn name short := by
  simp only [aliases, mem_map, mem_tailsBehind_iff, EndsIn]
  constructor
  · rintro ⟨tail, ⟨front, hName⟩, rfl⟩
    refine ⟨String.ofList front, ?_⟩
    rw [← String.toList_inj]
    simpa using hName
  · rintro ⟨front, rfl⟩
    exact ⟨short.toList, ⟨front.toList, by simp⟩, String.ofList_toList⟩

/-- The first part of a text that has none of the separators is the text; otherwise it ends
before the first separator. -/
theorem firstPart_eq_iff {name part : String} :
    firstPart name = part ↔
      '/' ∉ part.toList ∧ (name = part ∨ ∃ rest, name = part ++ "/" ++ rest) := by
  rw [firstPart]
  constructor
  · rintro rfl
    refine ⟨fun hMem => ?_, ?_⟩
    · rw [String.toList_ofList] at hMem
      simpa using mem_takeWhile_imp hMem
    · have hSplit := takeWhile_append_dropWhile (p := (· ≠ '/')) (l := name.toList)
      cases hRest : name.toList.dropWhile (· ≠ '/') with
      | nil =>
        left
        rw [hRest, append_nil] at hSplit
        rw [hSplit, String.ofList_toList]
      | cons c rest =>
        right
        have hSlash : c = '/' := by
          have hHead := head?_dropWhile_not (fun x => decide (x ≠ '/')) name.toList
          rw [hRest] at hHead
          simpa using hHead
        refine ⟨String.ofList rest, ?_⟩
        rw [hRest, hSlash] at hSplit
        rw [← String.toList_inj, String.toList_append, String.toList_append,
          String.toList_ofList, String.toList_ofList, append_assoc, String.toList_ofList]
        exact hSplit.symm
  · rintro ⟨hFree, rfl | ⟨rest, rfl⟩⟩
    · rw [takeWhile_eq_self_iff.2, String.ofList_toList]
      intro c hc
      simpa using ne_of_mem_of_not_mem hc hFree
    · have hAll : ∀ c ∈ part.toList, decide (c ≠ '/') = true := by
        intro c hc
        simpa using ne_of_mem_of_not_mem hc hFree
      have hName : (part ++ "/" ++ rest).toList = part.toList ++ '/' :: rest.toList := by simp
      rw [hName, takeWhile_append_of_pos hAll]
      simp

theorem bucketOf_eq_some_iff {buckets : List String} {name bucket : String} :
    bucketOf buckets name = some bucket ↔ LiesIn buckets name bucket := by
  rw [LiesIn, ← firstPart_eq_iff, bucketOf]
  constructor
  · intro hFound
    have hSame := find?_some hFound
    simp only [decide_eq_true_eq] at hSame
    exact ⟨mem_of_find?_eq_some hFound, hSame.symm⟩
  · rintro ⟨hMem, rfl⟩
    cases hFound : buckets.find? fun bucket => bucket = firstPart name with
    | none => simpa using find?_eq_none.1 hFound _ hMem
    | some other =>
      have hSame := find?_some hFound
      simp only [decide_eq_true_eq] at hSame
      rw [hSame]

/-! ## The rules for a required name -/

/-- A module may be meant by a short name. -/
def Fits (ids : List String) (name id : String) : Prop := id ∈ ids ∧ EndsIn id name

/-- A module of a bucket may be meant by a short name. -/
def FitsIn (buckets ids : List String) (name bucket id : String) : Prop :=
  Fits ids name id ∧ LiesIn buckets id bucket

/-- What a name stands for when it is required from a bucket or from outside all of them, where
the modules of a list have been inserted in its order. -/
inductive LooksUp (buckets ids : List String) (name : String) (source : Option String) :
    RequireTarget → Prop where
  /-- A module's own name stands for it. -/
  | own (hOwn : name ∈ ids) : LooksUp buckets ids name source (.found name)
  /-- A name that no module ends in is missing. -/
  | missing (hOther : name ∉ ids) (hNone : ∀ id, ¬ Fits ids name id) :
      LooksUp buckets ids name source .missing
  /-- A name that one module ends in stands for it. -/
  | only {target : String} (hOther : name ∉ ids) (hOnly : ∀ id, Fits ids name id ↔ id = target) :
      LooksUp buckets ids name source (.found target)
  /-- A name that one module of the requiring bucket ends in stands for it. -/
  | near {bucket target : String} (hOther : name ∉ ids) (hSource : source = some bucket)
      (hOnly : ∀ id, FitsIn buckets ids name bucket id ↔ id = target) :
      LooksUp buckets ids name source (.found target)
  /-- Any other name is ambiguous between all modules that end in it, in their order. -/
  | several {candidates : List String} (hOther : name ∉ ids) (hSome : ∃ id, Fits ids name id)
      (hNotOnly : ∀ target, ¬ ∀ id, Fits ids name id ↔ id = target)
      (hNotNear : ∀ bucket target, source = some bucket →
        ¬ ∀ id, FitsIn buckets ids name bucket id ↔ id = target)
      (hOrder : candidates.Sublist ids) (hAll : ∀ id, id ∈ candidates ↔ Fits ids name id) :
      LooksUp buckets ids name source (.ambiguous candidates)

theorem mem_candidates_iff_fits {ids : List String} {name id : String} :
    id ∈ candidates ids name ↔ Fits ids name id := by
  rw [mem_candidates, mem_aliases_iff, Fits]

theorem mem_candidatesIn_iff_fitsIn {buckets ids : List String} {name bucket id : String} :
    id ∈ candidatesIn buckets ids name (some bucket) ↔ FitsIn buckets ids name bucket id := by
  rw [candidatesIn, mem_filter, mem_candidates_iff_fits, FitsIn, ← bucketOf_eq_some_iff]
  simp

theorem candidatesIn_none (buckets ids : List String) (name : String) :
    candidatesIn buckets ids name none = [] := by
  simp [candidatesIn]

theorem eq_singleton_iff_of_nodup {names : List String} (h : names.Nodup) {target : String} :
    names = [target] ↔ ∀ id, id ∈ names ↔ id = target := by
  rw [← perm_singleton, perm_ext_iff_of_nodup h (nodup_singleton target)]
  simp only [mem_singleton]

/-- A part of a list without repetition is told by its members. -/
theorem filter_eq_of_sublist {part names : List String} (h : part.Sublist names)
    (hNames : names.Nodup) : names.filter (· ∈ part) = part := by
  induction h with
  | slnil => rfl
  | cons name hRest ih =>
    rw [nodup_cons] at hNames
    have hOut : name ∉ _ := fun hMem => hNames.1 (hRest.subset hMem)
    rw [filter_cons_of_neg (by simpa using hOut), ih hNames.2]
  | @cons_cons part names name hRest ih =>
    rw [nodup_cons] at hNames
    rw [filter_cons_of_pos (by simp)]
    refine congrArg (name :: ·) ((filter_congr ?_).trans (ih hNames.2))
    intro other hOther
    have hNe : other ≠ name := ne_of_mem_of_not_mem hOther hNames.1
    simp [hNe]

section Rules

variable {buckets ids : List String} {name : String} {source : Option String}
variable {target : String}

variable (hIds : ids.Nodup)
include hIds

theorem candidates_eq_singleton_iff :
    candidates ids name = [target] ↔ ∀ id, Fits ids name id ↔ id = target := by
  have hDistinct : (candidates ids name).Nodup := hIds.filter _
  rw [eq_singleton_iff_of_nodup hDistinct]
  simp only [mem_candidates_iff_fits]

theorem candidatesIn_eq_singleton_iff :
    candidatesIn buckets ids name source = [target] ↔
      ∃ bucket, source = some bucket ∧ ∀ id, FitsIn buckets ids name bucket id ↔ id = target := by
  cases source with
  | none => simp [candidatesIn_none]
  | some bucket =>
    have hDistinct : (candidatesIn buckets ids name (some bucket)).Nodup :=
      (hIds.filter _).filter _
    rw [eq_singleton_iff_of_nodup hDistinct]
    simp only [mem_candidatesIn_iff_fitsIn, Option.some.injEq, exists_eq_left']

/-- A name means a module exactly when one of the rules finds it. -/
theorem means_iff_looksUp :
    Means buckets ids name source target ↔ LooksUp buckets ids name source (.found target) := by
  rw [Means]
  split
  · rename_i hOwn
    constructor
    · rintro rfl
      exact .own hOwn
    · intro h
      cases h with
      | own => rfl
      | only hOther => exact absurd hOwn hOther
      | near hOther => exact absurd hOwn hOther
  · rename_i hOther
    rw [candidates_eq_singleton_iff hIds, candidatesIn_eq_singleton_iff hIds]
    constructor
    · rintro (hOnly | ⟨bucket, hSource, hOnly⟩)
      · exact .only hOther hOnly
      · exact .near hOther hSource hOnly
    · intro h
      cases h with
      | own hOwn => exact absurd hOwn hOther
      | only _ hOnly => exact Or.inl hOnly
      | near _ hSource hOnly => exact Or.inr ⟨_, hSource, hOnly⟩

/-- Where no rule finds a module the name is missing, or ambiguous between all candidates. -/
theorem looksUp_of_not_means (h : ∀ target, ¬ Means buckets ids name source target) :
    LooksUp buckets ids name source
      (if candidates ids name = [] then .missing else .ambiguous (candidates ids name)) := by
  have hOther : name ∉ ids := fun hOwn => h name ((means_iff_looksUp hIds).2 (.own hOwn))
  split
  · rename_i hNil
    refine .missing hOther fun id hFits => ?_
    rw [← mem_candidates_iff_fits, hNil] at hFits
    cases hFits
  · rename_i hSome
    obtain ⟨id, hId⟩ := exists_mem_of_ne_nil _ hSome
    refine .several hOther ⟨id, mem_candidates_iff_fits.1 hId⟩ ?_ ?_ filter_sublist fun _ =>
      mem_candidates_iff_fits
    · exact fun target hOnly => h target ((means_iff_looksUp hIds).2 (.only hOther hOnly))
    · exact fun bucket target hSource hOnly =>
        h target ((means_iff_looksUp hIds).2 (.near hOther hSource hOnly))

/-- The rules give one answer only. -/
theorem LooksUp.not_means {answer : RequireTarget} (h : LooksUp buckets ids name source answer)
    (hFound : ∀ target, answer ≠ .found target) (target : String) :
    ¬ Means buckets ids name source target := by
  rw [means_iff_looksUp hIds]
  intro hMeans
  cases h with
  | own => exact hFound _ rfl
  | only => exact hFound _ rfl
  | near => exact hFound _ rfl
  | missing hOther hNone =>
    cases hMeans with
    | own hOwn => exact hOther hOwn
    | only _ hOnly => exact hNone target ((hOnly target).2 rfl)
    | near _ _ hOnly => exact hNone target ((hOnly target).2 rfl).1
  | several hOther _ hNotOnly hNotNear =>
    cases hMeans with
    | own hOwn => exact hOther hOwn
    | only _ hOnly => exact hNotOnly target hOnly
    | near _ hSource hOnly => exact hNotNear _ target hSource hOnly

end Rules

end ModuleName

namespace Graph

open ModuleName (LooksUp candidates means_iff_looksUp looksUp_of_not_means mem_candidates_iff_fits)

/-- The look-up through the indexes follows the rules, and no other answer does. -/
theorem Indexed.resolve_eq_iff_looksUp {g : Graph} (hg : g.Indexed) {name : String}
    {source : Option String} {answer : RequireTarget} :
    g.resolve name source = answer ↔ LooksUp g.buckets g.files.keys name source answer := by
  have hIds : g.files.keys.Nodup := g.files.distinct
  constructor
  · rintro rfl
    by_cases hFound : ∃ target, g.resolve name source = .found target
    · obtain ⟨target, hTarget⟩ := hFound
      rw [hTarget, ← means_iff_looksUp hIds]
      exact hg.resolve_eq_found_iff.1 hTarget
    · rw [hg.resolve_of_not_found fun target hTarget => hFound ⟨target, hTarget⟩]
      refine looksUp_of_not_means hIds fun target hMeans => hFound ⟨target, ?_⟩
      exact hg.resolve_eq_found_iff.2 hMeans
  · intro h
    by_cases hFound : ∃ target, answer = .found target
    · obtain ⟨target, rfl⟩ := hFound
      exact hg.resolve_eq_found_iff.2 ((means_iff_looksUp hIds).2 h)
    · have hNone : ∀ target, g.resolve name source ≠ .found target := fun target hTarget =>
        h.not_means hIds (fun other hOther => hFound ⟨other, hOther⟩) target
          (hg.resolve_eq_found_iff.1 hTarget)
      rw [hg.resolve_of_not_found hNone]
      cases h with
      | own => exact absurd ⟨_, rfl⟩ hFound
      | only => exact absurd ⟨_, rfl⟩ hFound
      | near => exact absurd ⟨_, rfl⟩ hFound
      | missing _ hAbsent =>
        rw [if_pos]
        rw [eq_nil_iff_forall_not_mem]
        exact fun id hId => hAbsent id (mem_candidates_iff_fits.1 hId)
      | @several listed _ hSome _ _ hOrder hAll =>
        obtain ⟨id, hId⟩ := hSome
        have hSame : candidates g.files.keys name = listed := by
          rw [← ModuleName.filter_eq_of_sublist hOrder hIds]
          refine filter_congr fun id hKnown => ?_
          simp [hAll, ModuleName.Fits, hKnown, ModuleName.mem_aliases_iff]
        rw [if_neg, hSame]
        intro hNil
        rw [← mem_candidates_iff_fits, hNil] at hId
        cases hId

theorem ofFiles_concat (buckets : List String) (files : List (String × Effects))
    (file : String × Effects) :
    ofFiles buckets (files ++ [file]) =
      ((ofFiles buckets files).insert? file.1 file.2).getD (ofFiles buckets files) := by
  rw [ofFiles, insertAll, foldl_append]
  rfl

/-- The names of a graph are those inserted, each where it came first. -/
theorem keys_ofFiles (buckets : List String) (files : List (String × Effects)) :
    (ofFiles buckets files).files.keys = (files.map Prod.fst).eraseDups := by
  induction files using List.reverseRecOn with
  | nil => rfl
  | append_singleton files file ih =>
    rw [ofFiles_concat, map_append, eraseDups_append, ← ih]
    obtain ⟨hTaken, hRefused⟩ | ⟨g', hSome, hInserted⟩ :=
      (ofFiles buckets files).insert_cases file.1 file.2
    · have hOld : file.1 ∈ files.map Prod.fst := mem_keys_ofFiles.1 hTaken
      rw [hRefused, Option.getD_none]
      simp [List.removeAll, hOld]
    · have hNew : file.1 ∉ files.map Prod.fst := fun hOld =>
        hInserted.fresh (mem_keys_ofFiles.2 hOld)
      rw [hSome, Option.getD_some, hInserted.keys]
      simp [List.removeAll, hNew, eraseDups_cons]

/-- A file has the effects with which its name came first. -/
theorem find?_ofFiles_eq_some_iff {buckets : List String} {files : List (String × Effects)}
    {name : String} {file : ProjectFile} :
    (ofFiles buckets files).files.find? name = some file ↔
      ∃ effects, files.lookup name = some effects ∧ file = record buckets name effects := by
  have hFirst : ∀ entries : List (String × Effects),
      (entries.find? fun entry => entry.1 = name).map Prod.snd = entries.lookup name := by
    intro entries
    induction entries with
    | nil => rfl
    | cons entry entries ih =>
      obtain ⟨key, effects⟩ := entry
      by_cases hName : key = name
      · simp [hName]
      · simpa [lookup_cons, hName, beq_false_of_ne (Ne.symm hName)] using ih
  rw [find?_ofFiles, ← hFirst, Option.map_eq_some_iff]
  simp only [Option.map_eq_some_iff]
  constructor
  · rintro ⟨entry, hEntry, rfl⟩
    exact ⟨entry.2, ⟨entry, hEntry, rfl⟩, rfl⟩
  · rintro ⟨effects, ⟨entry, hEntry, rfl⟩, rfl⟩
    exact ⟨entry, hEntry, rfl⟩

/-- **The indexes say what the insertions mean.**  Whatever files are inserted, those whose
name is taken being refused without a change, a required name stands for what the rules say
over the names in the order in which they came first, and for nothing else; and the files that
another one depends on through globals are the others that assign a global which it reads. -/
theorem indexes_meet_meaning (buckets : List String) (files : List (String × Effects)) :
    let g := ofFiles buckets files
    let ids := (files.map Prod.fst).eraseDups
    (∀ name effects, g.insert? name effects = none ↔ name ∈ ids) ∧
    (∀ name source answer,
      g.resolve name source = answer ↔ LooksUp buckets ids name source answer) ∧
    ∀ id other, other ∈ g.implicitDependencies id ↔
      other ≠ id ∧ ∃ own others, files.lookup id = some own ∧ files.lookup other = some others ∧
        ∃ global ∈ own.reads, global ∈ others.writes := by
  intro g ids
  have hg : g.Indexed := indexed_ofFiles buckets files
  have hIds : g.files.keys = ids := keys_ofFiles buckets files
  have hBuckets : g.buckets = buckets := buckets_insertAll (empty buckets) files
  refine ⟨fun name effects => ?_, fun name source answer => ?_, fun id other => ?_⟩
  · rw [← hIds]
    obtain ⟨hTaken, hRefused⟩ | ⟨g', hSome, hInserted⟩ := g.insert_cases name effects
    · simp [hTaken, hRefused]
    · simp [hInserted.fresh, hSome]
  · rw [hg.resolve_eq_iff_looksUp, hIds, hBuckets]
  · rw [hg.mem_implicitDependencies_iff]
    refine and_congr_right fun _ => ?_
    constructor
    · rintro ⟨file, hFile, setter, hSetter, global, hReads, hWrites⟩
      obtain ⟨own, hOwn, rfl⟩ := find?_ofFiles_eq_some_iff.1 hFile
      obtain ⟨others, hOthers, rfl⟩ := find?_ofFiles_eq_some_iff.1 hSetter
      exact ⟨own, others, hOwn, hOthers, global, hReads, hWrites⟩
    · rintro ⟨own, others, hOwn, hOthers, global, hReads, hWrites⟩
      exact ⟨_, find?_ofFiles_eq_some_iff.2 ⟨own, hOwn, rfl⟩, _,
        find?_ofFiles_eq_some_iff.2 ⟨others, hOthers, rfl⟩, global, hReads, hWrites⟩

end Graph

end LuaShape
