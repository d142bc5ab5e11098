import LuaShape.Module.Name
import LuaShape.Project.Load
import Mathlib.Data.List.TakeWhile

/-!
# The bucket of a file that is found

Files are looked for in the directory that a bucket names as a path, while the bucket of a module
is read off the first part of its name.  The two agree for buckets that are a single file name,
and for no others.
-/

namespace LuaShape

open List

namespace Path

theorem splitAt_ne_nil (separator : Char) (cs : List Char) : splitAt separator cs ≠ [] := by
  cases cs with
  | nil => simp [splitAt]
  | cons c cs =>
    rw [splitAt]
    split
    · simp
    · split <;> simp

theorem splitAt_append (separator : Char) (cs ds : List Char) :
    splitAt separator (cs ++ separator :: ds) = splitAt separator cs ++ splitAt separator ds := by
  induction cs with
  | nil => simp [splitAt]
  | cons c cs ih =>
    obtain ⟨word, words, hWords⟩ := exists_cons_of_ne_nil (splitAt_ne_nil separator cs)
    simp only [cons_append, splitAt, ih, hWords]
    split <;> rfl

theorem splitAt_of_not_mem {separator : Char} {cs : List Char} (h : separator ∉ cs) :
    splitAt separator cs = [cs] := by
  induction cs with
  | nil => rfl
  | cons c cs ih =>
    rw [mem_cons, not_or] at h
    rw [splitAt, if_neg fun hc => h.1 hc.symm, ih h.2]

/-- What a stretch means at the start of a path. -/
def leadOf (word : List Char) : List Part :=
  if word = [] then [.root] else if word = ['.'] then [.here] else (partOf? word).toList

theorem parts_eq {path : String} (h : path ≠ "") : ∃ word words,
    splitAt '/' path.toList = word :: words ∧ parts path = leadOf word ++ words.filterMap partOf? := by
  rw [parts]
  split
  next hNil => exact absurd (String.toList_eq_nil_iff.1 hNil) h
  next rest hRest => exact ⟨[], splitAt '/' rest, by simp [hRest, splitAt], rfl⟩
  next hNil hSlash =>
    obtain ⟨c, cs, hPath⟩ := exists_cons_of_ne_nil (mt String.toList_eq_nil_iff.1 h)
    obtain ⟨word, words, hWords⟩ := exists_cons_of_ne_nil (splitAt_ne_nil '/' cs)
    have hSplit : splitAt '/' path.toList = (c :: word) :: words := by
      rw [hPath, splitAt, if_neg (fun hc => hSlash cs (by rw [hPath, hc])), hWords]
    refine ⟨c :: word, words, hSplit, ?_⟩
    split
    next hHere =>
      obtain ⟨hWord, rfl⟩ := List.cons.inj (hSplit.symm.trans hHere)
      simp [leadOf, hWord]
    next hHere =>
      have hWord : c :: word ≠ ['.'] := fun hWord => hHere words (hWord ▸ hSplit)
      rw [hSplit, leadOf, if_neg (cons_ne_nil _ _), if_neg hWord, filterMap_cons]
      cases partOf? (c :: word) <;> rfl

/-- A path behind a directory adds the parts that its stretches mean. -/
theorem parts_join {directory path : String} (hDirectory : directory ≠ "")
    (hPath : path.toList.head? ≠ some '/') :
    parts (join directory path) = parts directory ++ (splitAt '/' path.toList).filterMap partOf? := by
  obtain ⟨word, words, hWords, hParts⟩ := parts_eq hDirectory
  have hOf : ∀ {whole : String} (words'), whole ≠ "" → splitAt '/' whole.toList = word :: words' →
      parts whole = leadOf word ++ words'.filterMap partOf? := by
    intro whole words' hWhole hSplit
    obtain ⟨word', words', hSplit', hEq⟩ := parts_eq hWhole
    obtain ⟨rfl, rfl⟩ := List.cons.inj (hSplit'.symm.trans hSplit)
    exact hEq
  rw [join]
  split
  next hSlash => simp [hSlash] at hPath
  next =>
    split
    next hLast => simp [hDirectory] at hLast
    next hLast =>
      -- the slash at the end of the directory adds an empty stretch, which means nothing
      obtain ⟨before, hBefore⟩ := getLast?_eq_some_iff.1 hLast
      obtain ⟨word', words', hWords'⟩ := exists_cons_of_ne_nil (splitAt_ne_nil '/' before)
      have hSplit := splitAt_append '/' before []
      rw [← hBefore, hWords, hWords', splitAt, cons_append, List.cons.injEq] at hSplit
      obtain ⟨rfl, rfl⟩ := hSplit
      rw [hOf (words' ++ splitAt '/' path.toList), hParts]
      · simp [partOf?]
      · simp [hDirectory]
      · rw [String.toList_append, hBefore, append_assoc, singleton_append, splitAt_append,
          hWords', cons_append]
    next =>
      rw [hOf (words ++ splitAt '/' path.toList), hParts]
      · simp
      · simp [hDirectory]
      · rw [String.toList_append, String.toList_append, append_assoc]
        exact (splitAt_append '/' directory.toList path.toList).trans (by rw [hWords, cons_append])

theorem join_ne_empty (directory : String) {path : String} (h : path ≠ "") :
    join directory path ≠ "" := by
  rw [join]
  split
  · exact h
  · split <;> simp [h]

theorem partsBelow?_append (front behind : List Part) :
    partsBelow? front (front ++ behind) = some behind := by
  induction front with
  | nil => rfl
  | cons p front ih => simpa [partsBelow?] using ih

theorem dropLastExtension_append (front : List Part) {behind : List Part} (h : behind ≠ []) :
    dropLastExtension (front ++ behind) = front ++ dropLastExtension behind := by
  induction front with
  | nil => rfl
  | cons p front ih =>
    obtain ⟨q, rest, hRest⟩ := exists_cons_of_ne_nil (append_ne_nil_of_right_ne_nil front h)
    rw [cons_append, hRest, dropLastExtension, ← hRest, ih, cons_append]
    simp

theorem exists_dropLastExtension (name : String) (names : List String) :
    ∃ p ps, dropLastExtension ((name :: names).map .name) = p :: ps := by
  cases names <;> simp [dropLastExtension]

/-- A name that an entry of a directory can have. -/
def IsName (name : String) : Prop := name ∉ ["", ".", ".."] ∧ '/' ∉ name.toList

theorem parts_of_isName {name : String} (h : IsName name) : parts name = [.name name] ∧
    (splitAt '/' name.toList).filterMap partOf? = [.name name] := by
  obtain ⟨hDots, hSlash⟩ := h
  have hSplit := splitAt_of_not_mem hSlash
  simp only [mem_cons, not_mem_nil, or_false, not_or, ← String.toList_inj] at hDots
  have hPart : partOf? name.toList = some (.name name) := by simp_all [partOf?]
  obtain ⟨word, words, hWords, hParts⟩ := parts_eq (mt String.toList_inj.2 hDots.1)
  obtain ⟨rfl, rfl⟩ := List.cons.inj (hWords.symm.trans hSplit)
  rw [hParts, hSplit]
  simp_all [leadOf]

theorem parts_join_name {directory name : String} (hDirectory : directory ≠ "") (h : IsName name) :
    parts (join directory name) = parts directory ++ [.name name] := by
  rw [parts_join hDirectory, (parts_of_isName h).2]
  exact fun hSlash => h.2 (mem_of_mem_head? hSlash)

end Path

/-! ## Files below a directory -/

namespace FileTree

mutual

/-- All entries of all directories have proper names. -/
def Named : FileTree → Prop
  | .file _ | .unreadable _ => True
  | .directory entries => NamedEntries entries

/-- Entries with proper names, and all that is in them. -/
def NamedEntries : List (String × FileTree) → Prop
  | [] => True
  | (name, node) :: rest => Path.IsName name ∧ node.Named ∧ NamedEntries rest

end

theorem NamedEntries.node {entries : List (String × FileTree)} (h : NamedEntries entries)
    {e : String × FileTree} (he : e ∈ entries) : e.2.Named := by
  induction entries with
  | nil => cases he
  | cons _ entries ih =>
    rcases mem_cons.1 he with rfl | he
    · exact h.2.1
    · exact ih h.2.2 he

theorem Named.follow {words : List String} {above : List FileTree} {node found : FileTree}
    (hAbove : ∀ t ∈ above, t.Named) (hNode : node.Named)
    (h : FileTree.follow above node words = .ok found) : found.Named := by
  induction words generalizing above node with
  | nil =>
    cases h
    exact hNode
  | cons word words ih =>
    cases node with
    | file | unreadable => cases h
    | directory entries =>
      simp only [FileTree.follow] at h
      split at h
      · exact ih hAbove hNode h
      split at h
      · split at h
        · exact ih (fun t ht => hAbove t (mem_cons_of_mem _ ht)) (hAbove _ mem_cons_self) h
        · exact ih (by simp) hNode h
      · split at h
        next child hEntry =>
          refine ih (forall_mem_cons.2 ⟨hNode, hAbove⟩) ?_ h
          rw [ entry?] at hEntry
          split at hEntry
          · cases hEntry
          · obtain ⟨e, hFind, rfl⟩ := Option.map_eq_some_iff.1 (Except.ok.inj hEntry)
            exact NamedEntries.node hNode (mem_of_find?_eq_some hFind)
        all_goals cases h

theorem Named.directory? {t u : FileTree} {here path : String} (h : t.Named)
    (hFound : t.directory? here path = some u) :
    ∃ entries, u = .directory entries ∧ NamedEntries entries := by
  rw [FileTree.directory?] at hFound
  split at hFound
  next entries hFind =>
    cases hFound
    rw [find] at hFind
    cases hWords : wordsOf here path with
    | error e =>
      rw [hWords] at hFind
      cases hFind
    | ok words =>
      rw [hWords] at hFind
      have hFollow : FileTree.follow [] t words = .ok (.directory entries) := hFind
      exact ⟨entries, rfl, h.follow (by simp) hFollow⟩
  next => cases hFound

theorem mem_insertByName {α : Type} {e f : String × α} {entries : List (String × α)}
    (h : f ∈ insertByName e entries) : f = e ∨ f ∈ entries := by
  induction entries with
  | nil => simpa [insertByName] using h
  | cons g entries ih =>
    rw [insertByName] at h
    split at h
    · rcases mem_cons.1 h with rfl | h
      · simp
      · exact (ih h).imp_right (mem_cons_of_mem _)
    · exact mem_cons.1 h

theorem mem_sortByName {α : Type} {e : String × α} {entries : List (String × α)}
    (h : e ∈ sortByName entries) : e ∈ entries := by
  induction entries with
  | nil => exact h
  | cons f entries ih => exact mem_cons.2 ((mem_insertByName h).imp_right ih)

theorem exists_entry_of_mem {path : String} {entries : List (String × FileTree)}
    {found : String × Except AccessError ByteArray} (h : found ∈ (directory entries).filesBelow path) :
    ∃ e ∈ filesOfEntries path entries, found ∈ e.2 := by
  rw [filesBelow] at h
  split at h
  · cases h
  · obtain ⟨e, he, hFound⟩ := mem_flatMap.1 h
    exact ⟨e, mem_sortByName he, hFound⟩

mutual

/-- A file below a node has the path of the node and names behind it. -/
theorem parts_of_mem_filesBelow {path : String} (hPath : path ≠ "") : ∀ {t : FileTree}, t.Named →
    ∀ {found}, found ∈ t.filesBelow path →
      ∃ names : List String, Path.parts found.1 = Path.parts path ++ names.map .name
  | .file _, _, found, hFound | .unreadable _, _, found, hFound =>
    ⟨[], by simp_all [filesBelow]⟩
  | .directory entries, h, found, hFound => by
      obtain ⟨e, he, hFound⟩ := exists_entry_of_mem hFound
      obtain ⟨name, names, hParts⟩ := parts_of_mem_filesOfEntries hPath h he hFound
      exact ⟨name :: names, hParts⟩

/-- A file below an entry of a directory has the path of the directory and one or more names
behind it. -/
theorem parts_of_mem_filesOfEntries {path : String} (hPath : path ≠ "") :
    ∀ {entries : List (String × FileTree)}, NamedEntries entries →
      ∀ {e}, e ∈ filesOfEntries path entries → ∀ {found}, found ∈ e.2 →
        ∃ name names, Path.parts found.1 = Path.parts path ++ (name :: names).map .name
  | (name, node) :: rest, h, e, he, found, hFound => by
      rcases mem_cons.1 he with rfl | he
      · have hName : name ≠ "" := fun hNil => h.1.1 (by simp [hNil])
        obtain ⟨names, hParts⟩ :=
          parts_of_mem_filesBelow (Path.join_ne_empty path hName) h.2.1 hFound
        rw [Path.parts_join_name hPath h.1] at hParts
        exact ⟨name, names, by simpa using hParts⟩
      · exact parts_of_mem_filesOfEntries hPath h.2.2 he hFound

end

end FileTree

namespace ModuleName

/-- No bucket with a slash is seen in a name. -/
theorem not_mem_of_bucketOf {buckets : List String} {name bucket : String}
    (h : bucketOf buckets name = some bucket) : '/' ∉ bucket.toList := by
  have hFirst : bucket = firstPart name := by simpa using find?_some h
  rw [hFirst, firstPart, String.toList_ofList]
  intro hSlash
  simpa using mem_takeWhile_imp hSlash

theorem firstPart_of_append {front : String} (h : '/' ∉ front.toList) (rest : String) :
    firstPart (front ++ "/" ++ rest) = front := by
  rw [firstPart, String.toList_append, String.toList_append, append_assoc,
    takeWhile_append_of_pos]
  · simp
  · rintro c hc
    simpa using ne_of_mem_of_not_mem hc h

end ModuleName

namespace ProjectConfig

/-- A bucket is a path below the root: it is relative, does not go up, and leads somewhere. -/
structure IsBucket (bucket : String) : Prop where
  relative : bucket.toList.head? ≠ some '/'
  down : .parent ∉ Path.parts bucket
  leads : ∃ name, .name name ∈ Path.parts bucket

theorem IsBucket.ne_empty {bucket : String} (h : IsBucket bucket) : bucket ≠ "" := by
  rintro rfl
  obtain ⟨name, hName⟩ := h.leads
  simp [Path.parts] at hName

/-- A bucket without slashes is a name. -/
theorem IsBucket.isName {bucket : String} (h : IsBucket bucket) (hSlash : '/' ∉ bucket.toList) :
    Path.IsName bucket := by
  refine ⟨?_, hSlash⟩
  have hNone : ∀ {p}, p ∈ Path.parts "." → p = .here := by simp [Path.parts, Path.splitAt]
  have hDown : .parent ∈ Path.parts ".." := by simp [Path.parts, Path.splitAt, Path.partOf?]
  simp only [mem_cons, not_mem_nil, or_false, not_or]
  refine ⟨h.ne_empty, ?_, ?_⟩
  · rintro rfl
    obtain ⟨name, hName⟩ := h.leads
    cases hNone hName
  · rintro rfl
    exact h.down hDown

/-- The parts of a bucket stand behind those of the root. -/
theorem IsBucket.parts_join {bucket : String} (h : IsBucket bucket) (root : String) : ∃ front,
    Path.parts (Path.join root bucket) = Path.parts root ++ front ∧
      ('/' ∉ bucket.toList → front = [.name bucket]) := by
  by_cases hRoot : root = ""
  · refine ⟨Path.parts bucket, ?_, fun hSlash => (Path.parts_of_isName (h.isName hSlash)).1⟩
    rw [hRoot, Path.join]
    split
    next hSlash => exact absurd (by rw [hSlash]; rfl) h.relative
    next => rfl
  · exact ⟨_, Path.parts_join hRoot h.relative,
      fun hSlash => (Path.parts_of_isName (h.isName hSlash)).2⟩

/-- **Files found in a bucket are modules, and the bucket is seen in their names exactly if it is
a single name.**  Files lie in a tree whose entries have proper names. -/
theorem found_in_bucket {config : ProjectConfig} {bucket here : String} {t : FileTree}
    {found : FoundFile} (hBuckets : config.buckets = [bucket]) (h : IsBucket bucket) (hTree : t.Named)
    (hFound : found ∈ ((config.discover (FileSystem.ofTree here)).run t).1) :
    ∃ name, Path.moduleName? config.root found.path = some name ∧
      (ModuleName.bucketOf config.buckets name = some bucket ↔ '/' ∉ bucket.toList) := by
  have hRun : ((config.discover (FileSystem.ofTree here)).run t).1 =
      ((t.directory? here (Path.join config.root bucket)).map
        (config.sourceFiles (Path.join config.root bucket))).getD [] ++ [] := by
    rw [discover, searched, hBuckets]
    rfl
  rw [hRun, append_nil] at hFound
  cases hDirectory : t.directory? here (Path.join config.root bucket) with
  | none => simp [hDirectory] at hFound
  | some u =>
    rw [hDirectory] at hFound
    obtain ⟨entries, rfl, hEntries⟩ := hTree.directory? hDirectory
    obtain ⟨⟨path, content⟩, hFile, hSome⟩ := mem_filterMap.1 hFound
    obtain ⟨-, rfl⟩ : _ ∧ FoundFile.mk path content = found := by simpa using hSome
    obtain ⟨e, he, hFile⟩ := FileTree.exists_entry_of_mem hFile
    obtain ⟨word, words, hParts⟩ := FileTree.parts_of_mem_filesOfEntries
      (Path.join_ne_empty config.root h.ne_empty) hEntries he hFile
    obtain ⟨front, hFront, hName⟩ := h.parts_join config.root
    obtain ⟨p, ps, hDrop⟩ := Path.exists_dropLastExtension word words
    refine ⟨String.intercalate "/" ((front ++ p :: ps).map Path.Part.text), ?_,
      ModuleName.not_mem_of_bucketOf, fun hSlash => ?_⟩
    · rw [Path.moduleName?, hParts, hFront, append_assoc, Path.partsBelow?_append]
      simp only [Option.bind_eq_bind, Option.bind_some]
      rw [Path.dropLastExtension_append _ (by simp), hDrop]
      split
      next hNil => simp at hNil
      next => rfl
    · rw [hBuckets, hName hSlash, ModuleName.bucketOf]
      simp only [cons_append, nil_append, map_cons, String.intercalate_cons_cons,
        Path.Part.text]
      rw [ModuleName.firstPart_of_append hSlash]
      simp

/-- A tree with one file, two directories below the top. -/
def treeOfLibrary : FileTree :=
  .directory [("libs", .directory [("shared", .directory [("a.lua", .file .empty)])])]

theorem named_treeOfLibrary : treeOfLibrary.Named := by
  simp [treeOfLibrary, FileTree.Named, FileTree.NamedEntries, Path.IsName]

theorem found_in_bucket_of_library :
    let config : ProjectConfig := ⟨".", ["libs"], "lua"⟩
    ∃ found ∈ ((config.discover (FileSystem.ofTree "/")).run treeOfLibrary).1, ∃ name,
      Path.moduleName? "." found.path = some name ∧
        ModuleName.bucketOf ["libs"] name = some "libs" := by
  intro config
  have hPaths : "./libs/shared/a.lua" ∈
      ((config.discover (FileSystem.ofTree "/")).run treeOfLibrary).1.map FoundFile.path := by
    decide +kernel
  obtain ⟨found, hFound, -⟩ := mem_map.1 hPaths
  have hBucket : IsBucket "libs" := ⟨by decide, by decide +kernel, "libs", by decide +kernel⟩
  obtain ⟨name, hName, hIn⟩ := found_in_bucket (show config.buckets = ["libs"] from rfl) hBucket
    named_treeOfLibrary hFound
  exact ⟨found, hFound, name, hName, hIn.2 (by decide)⟩

/-- A file found in a directory below another one is a module outside of all buckets. -/
theorem bucket_unseen_below_directory :
    let config : ProjectConfig := ⟨".", ["libs/shared"], "lua"⟩
    ((config.discover (FileSystem.ofTree "/")).run treeOfLibrary).1.map FoundFile.path =
        ["./libs/shared/a.lua"] ∧
      Path.moduleName? "." "./libs/shared/a.lua" = some "libs/shared/a" ∧
      ModuleName.bucketOf ["libs/shared"] "libs/shared/a" = none := by
  decide +kernel

end ProjectConfig

end LuaShape
