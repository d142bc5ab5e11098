import LuaShape.Proofs.Inference.LoadEffects
import LuaShape.Proofs.LoadOrder.Worklist
import LuaShape.Summary.Project
import Mathlib.Data.List.Nodup

/-!
# Reading the modules of a project one after the other

All modules are made known before the first is read.  `Known` states what holds
between two modules: which are known, in which order, and which of them have been
read.  Reading one keeps it (`Known.readModule`), and the reports that reading adds
are about modules behind the reader in the order (`Known.readAll`).
-/

namespace LuaShape.Inference

open List

theorem diagnostics_register (s : Inference) (name : String) :
    (s.register name).2.diagnostics = s.diagnostics := by
  rw [register]
  split <;> rfl

theorem diagnostics_registerAll (s : Inference) (names : List String) :
    (s.registerAll names).diagnostics = s.diagnostics := by
  induction names generalizing s with
  | nil => rfl
  | cons name names ih => exact (ih (s.register name).2).trans (s.diagnostics_register name)

theorem diagnostics_beginModule (s : Inference) (name : String) :
    (s.beginModule name).2.diagnostics = s.diagnostics :=
  s.diagnostics_register name

/-- Where the functions of a chunk require nothing, reading it reports only requires that are
among the effects of loading it. -/
theorem exists_outline_readThrough (s : Inference) (name : String) {chunk : Chunk}
    (hChunk : NestedRequires.ofChunk chunk = []) :
    ∃ new, (s.readThrough name chunk).inference.outline =
        (s.beginModule name).2.outline.report new ∧
      ∀ d ∈ new, ∃ required ∈ (Effects.ofChunk chunk).requires,
        (s.beginModule name).2.outline.Early required d := by
  obtain ⟨c, hAgrees⟩ := s.agrees_readThrough name chunk
  obtain ⟨new, hNew, hEarly⟩ := hAgrees.told.outline
  refine ⟨new, hNew, fun d hd => ?_⟩
  obtain ⟨argument, ⟨node, inFunction, hRequired⟩, hEarly⟩ := hEarly d hd
  refine ⟨ModuleName.ofRequire argument, ?_, hEarly⟩
  rcases (Lexical.loads_ofChunk chunk).required _ hRequired with hOld | hMem | ⟨body, hBody, hIn⟩
  · cases hOld
  · exact hMem
  · obtain ⟨e, he, -, hName⟩ := hIn
    have hFree := (NestedRequires.free_ofBlock chunk.block).2 hChunk _ hBody e he
    rw [hFree] at hName
    cases hName

/-- The heading of a known module, given those that have been read. -/
def headingOf (buckets done : List String) (name : String) : Heading :=
  ⟨name, ModuleName.bucketOf buckets name, decide (name ∈ done)⟩

/-- The modules of an order are known, and those of a list have been read. -/
structure Known (buckets order done : List String) (s : Inference) : Prop where
  buckets_eq : s.outline.buckets = buckets
  modules_eq : s.outline.modules = order.map (headingOf buckets done)

/-- A module is known, and it is the one being read. -/
structure At (buckets order done : List String) (name : String) (s : Inference) : Prop
    extends Known buckets order done s where
  reader : s.outline.reader? = some (headingOf buckets done name)

/-! ## Reports about requires -/

/-- While it loads, a module requires another one of an order by some name. -/
def LoadRequires (buckets order : List String) (name : String) (chunk : Chunk)
    (target : String) : Prop :=
  target ≠ name ∧ ∃ required ∈ (Effects.ofChunk chunk).requires,
    ModuleName.Means buckets order required (ModuleName.bucketOf buckets name) target

/-- A report says that the reader requires another module while it loads, and that
the other module has not been read. -/
def Early (buckets order done : List String) (name : String) (chunk : Chunk)
    (d : Diagnostic) : Prop :=
  ∃ target, LoadRequires buckets order name chunk target ∧ target ∉ done ∧
    d = .requiredEarly name target

/-- A report says that a module requires another one while it loads, and that the
other one does not stand before it in the order. -/
def Misplaced (buckets order : List String) (chunks : List (String × Chunk))
    (d : Diagnostic) : Prop :=
  ∃ name chunk target, chunks.find? (fun entry => entry.1 = name) = some (name, chunk) ∧
    LoadRequires buckets order name chunk target ∧ ¬ Schedule.Precedes order target name ∧
    d = .requiredEarly name target

/-! ## What is known -/

section

variable {buckets order done : List String} {s : Inference} {name : String}

namespace Known

theorem names (h : Known buckets order done s) : s.outline.names = order := by
  rw [Outline.names, h.modules_eq, map_map]
  exact map_id' order

theorem isRead (h : Known buckets order done s) (hName : name ∈ order) :
    s.outline.isRead name = decide (name ∈ done) := by
  have hSome : (order.find? fun x => x = name).isSome = true := by
    rw [find?_isSome]
    exact ⟨name, hName, decide_eq_true rfl⟩
  obtain ⟨found, hFound⟩ := Option.isSome_iff_exists.1 hSome
  obtain rfl : found = name := by simpa using find?_some hFound
  have hFind : (order.map (headingOf buckets done)).find? (fun m => m.name = found) =
      some (headingOf buckets done found) := by
    rw [find?_map]
    exact congrArg (Option.map (headingOf buckets done)) hFound
  rw [Outline.isRead, h.modules_eq, hFind]
  rfl

/-- Diagnostics do not matter to what is known. -/
theorem report {s' : Inference} (h : Known buckets order done s) {new : List Diagnostic}
    (hs : s'.outline = s.outline.report new) : Known buckets order done s' where
  buckets_eq := by
    rw [hs]
    exact h.buckets_eq
  modules_eq := by
    rw [hs]
    exact h.modules_eq

/-! ## Making modules known -/

theorem empty (buckets : List String) : Known buckets [] [] (Inference.empty buckets) :=
  ⟨rfl, rfl⟩

theorem register (h : Known buckets order [] s) (hName : name ∉ order) :
    Known buckets (order ++ [name]) [] (s.register name).2 := by
  have hNone : s.modules.findIdx? (fun m => decide (m.name = name)) = none := by
    rw [findIdx?_eq_none_iff]
    intro m hm
    have hNames : m.name ∈ s.outline.names := by
      rw [names_outline]
      exact mem_map_of_mem hm
    rw [h.names] at hNames
    exact decide_eq_false fun hEq => hName (hEq ▸ hNames)
  rw [Inference.register, hNone]
  refine ⟨h.buckets_eq, ?_⟩
  show (s.modules ++ [_]).map ModuleRecord.heading = _
  have hBuckets : s.buckets = buckets := h.buckets_eq
  have hModules : s.modules.map ModuleRecord.heading = order.map (headingOf buckets []) :=
    h.modules_eq
  rw [map_append, map_append, hModules, hBuckets]
  rfl

/-- Making distinct modules known. -/
theorem registerAll (h : Known buckets order [] s) {names : List String}
    (hNames : (order ++ names).Nodup) :
    Known buckets (order ++ names) [] (s.registerAll names) := by
  induction names generalizing order s with
  | nil => rwa [append_nil]
  | cons name names ih =>
    have hNew : name ∉ order := fun hMem =>
      disjoint_of_nodup_append hNames hMem mem_cons_self
    have hRest := ih (h.register hNew) (by rwa [append_assoc])
    rwa [append_assoc] at hRest

/-! ## Reading a module -/

/-- The reader is the module found under its name. -/
theorem beginModule (h : Known buckets order done s) (hName : name ∈ order) :
    At buckets order done name (s.beginModule name).2 := by
  have hSome : (s.modules.findIdx? fun m => m.name = name).isSome = true := by
    rw [← h.names, names_outline, mem_map] at hName
    obtain ⟨m, hm, rfl⟩ := hName
    rw [findIdx?_isSome, any_eq_true]
    exact ⟨m, hm, decide_eq_true rfl⟩
  obtain ⟨index, hIndex⟩ := Option.isSome_iff_exists.1 hSome
  have hBegin : (s.beginModule name).2.outline = { s.outline with current := index } := by
    rw [Inference.beginModule, Inference.register, hIndex]
    rfl
  refine { buckets_eq := ?_, modules_eq := ?_, reader := ?_ }
  · rw [hBegin]
    exact h.buckets_eq
  · rw [hBegin]
    exact h.modules_eq
  · obtain ⟨hLt, hFound, -⟩ := findIdx?_eq_some_iff_getElem.1 hIndex
    have hModule : s.outline.modules[index]? = some (s.modules[index]).heading := by
      simp [outline, hLt]
    rw [hBegin]
    show s.outline.modules[index]? = _
    rw [hModule, Option.some.injEq]
    rw [h.modules_eq, getElem?_map, Option.map_eq_some_iff] at hModule
    obtain ⟨x, -, hx⟩ := hModule
    have hSame : x = name := by
      have hNames : x = (s.modules[index]).name := congrArg Heading.name hx
      rw [hNames]
      exact of_decide_eq_true hFound
    rw [← hx, hSame]

end Known

namespace At

variable (h : At buckets order done name s)
include h

/-- Reports keep the reader. -/
theorem report {s' : Inference} {new : List Diagnostic} (hs : s'.outline = s.outline.report new) :
    At buckets order done name s' where
  toKnown := h.toKnown.report hs
  reader := by
    rw [hs]
    exact h.reader

/-- The position of the reader is that of its name. -/
theorem getElem?_current : order[s.current]? = some name := by
  have hReader : (s.outline.modules[s.current]?).map Heading.name = some name := by
    show s.outline.reader?.map Heading.name = some name
    rw [h.reader]
    rfl
  rw [h.modules_eq, getElem?_map, Option.map_map] at hReader
  simpa [Function.comp_def, headingOf] using hReader

/-- Behind its end the reader has been read. -/
theorem endModule (hOrder : order.Nodup) (scope : ScopeTree) :
    Known buckets order (name :: done) (s.endModule scope) := by
  have hModules : s.modules.map ModuleRecord.heading = order.map (headingOf buckets done) :=
    h.modules_eq
  have hReader := h.getElem?_current
  refine ⟨h.buckets_eq, ?_⟩
  show (s.modules.modify s.current _).map ModuleRecord.heading = _
  apply ext_getElem?
  intro i
  have hAt : (s.modules[i]?).map ModuleRecord.heading =
      (order[i]?).map (headingOf buckets done) := by
    rw [← getElem?_map, ← getElem?_map, hModules]
  rw [getElem?_map, getElem?_map, getElem?_modify]
  by_cases hi : s.current = i
  · subst hi
    rw [hReader, Option.map_some, Option.map_eq_some_iff] at hAt
    obtain ⟨m, hm, hHeading⟩ := hAt
    have hEnd : (⟨m.name, m.bucket, true⟩ : Heading) = headingOf buckets (name :: done) name := by
      rw [ModuleRecord.heading, headingOf, Heading.mk.injEq] at hHeading
      simp [headingOf, hHeading.1, hHeading.2.1]
    simpa [hm, hReader, ModuleRecord.heading] using hEnd
  · simp only [hi, if_false, id_map', hAt]
    refine Option.map_congr fun x hx => ?_
    have hNe : x ≠ name := by
      rintro rfl
      have hLt : i < order.length := (List.getElem?_eq_some_iff.1 hx).1
      exact hi ((List.getElem?_inj hLt hOrder).1 (hx.trans hReader.symm)).symm
    simp [headingOf, hNe]

theorem early {chunk : Chunk} {required : String}
    (hRequired : required ∈ (Effects.ofChunk chunk).requires) {d : Diagnostic}
    (hEarly : s.outline.Early required d) : Early buckets order done name chunk d := by
  obtain ⟨target, hFinds, hRead, hOther, hd⟩ := hEarly
  rw [Outline.Finds, h.names, h.reader, h.buckets_eq] at hFinds
  rw [h.reader] at hOther hd
  refine ⟨target, ⟨?_, required, hRequired, hFinds⟩, ?_, hd⟩
  · rintro rfl
    exact hOther rfl
  · rw [h.isRead hFinds.mem] at hRead
    exact of_decide_eq_false hRead

end At

namespace Known

/-- Reading a module whose functions require nothing.  All reports are about modules
that it requires while it loads. -/
theorem readModule (h : Known buckets order done s) (hOrder : order.Nodup)
    (hName : name ∈ order) {chunk : Chunk} (hChunk : NestedRequires.ofChunk chunk = []) :
    Known buckets order (name :: done) (s.readModule name chunk) ∧
      ∃ new, (s.readModule name chunk).diagnostics = s.diagnostics ++ new ∧
        ∀ d ∈ new, Early buckets order done name chunk d := by
  have hBegin := h.beginModule hName
  obtain ⟨new, hNew, hEarly⟩ := s.exists_outline_readThrough name hChunk
  refine ⟨(hBegin.report hNew).endModule hOrder _, new, ?_, ?_⟩
  · rw [← diagnostics_beginModule s name]
    exact congrArg Outline.diagnostics hNew
  · intro d hd
    obtain ⟨required, hRequired, hEarly⟩ := hEarly d hd
    exact hBegin.early hRequired hEarly

/-! ## Reading all modules -/

/-- Reading modules in order, behind some that have been read. -/
theorem readAll {chunks : List (String × Chunk)} {front names : List String}
    (h : Known buckets (front ++ names) front.reverse s) (hOrder : (front ++ names).Nodup)
    (hChunks : ∀ name ∈ names, ∃ chunk, NestedRequires.ofChunk chunk = [] ∧
      chunks.find? (fun entry => entry.1 = name) = some (name, chunk)) :
    ∃ new, (s.readAll chunks names).diagnostics = s.diagnostics ++ new ∧
      ∀ d ∈ new, Misplaced buckets (front ++ names) chunks d := by
  induction names generalizing front s with
  | nil => exact ⟨[], (append_nil _).symm, by simp⟩
  | cons name names ih =>
    obtain ⟨chunk, hChunk, hFound⟩ := hChunks name mem_cons_self
    have hName : name ∈ front ++ name :: names :=
      mem_append_right front mem_cons_self
    obtain ⟨hKnown, first, hFirst, hEarly⟩ := h.readModule hOrder hName hChunk
    have hSplit : front ++ name :: names = (front ++ [name]) ++ names := by simp
    have hDone : name :: front.reverse = (front ++ [name]).reverse := by simp
    rw [hSplit, hDone] at hKnown
    obtain ⟨rest, hRest, hLater⟩ := ih hKnown (hSplit ▸ hOrder) fun other hOther =>
      hChunks other (mem_cons_of_mem name hOther)
    have hRead : s.readAll chunks (name :: names) =
        (s.readModule name chunk).readAll chunks names := by
      rw [Inference.readAll, foldl_cons, hFound]
      rfl
    refine ⟨first ++ rest, ?_, ?_⟩
    · rw [hRead, hRest, hFirst, append_assoc]
    · intro d hd
      rcases mem_append.1 hd with hd | hd
      · obtain ⟨target, hRequires, hUnread, hd⟩ := hEarly d hd
        refine ⟨name, chunk, target, hFound, hRequires, ?_, hd⟩
        intro hBefore
        exact hUnread (mem_reverse.2 (hBefore.mem_front hOrder))
      · rw [hSplit]
        exact hLater d hd

end Known

/-- Reading all modules of an order from the start. -/
theorem misplaced_of_mem_readAll {chunks : List (String × Chunk)} (hOrder : order.Nodup)
    (hChunks : ∀ name ∈ order, ∃ chunk, NestedRequires.ofChunk chunk = [] ∧
      chunks.find? (fun entry => entry.1 = name) = some (name, chunk))
    {d : Diagnostic}
    (h : d ∈ (((Inference.empty buckets).registerAll order).readAll chunks order).diagnostics) :
    Misplaced buckets order chunks d := by
  have hKnown : Known buckets ([] ++ order) [] ((Inference.empty buckets).registerAll order) :=
    (Known.empty buckets).registerAll hOrder
  obtain ⟨new, hNew, hMisplaced⟩ := hKnown.readAll hOrder hChunks
  rw [hNew, diagnostics_registerAll] at h
  exact hMisplaced d h

end

end LuaShape.Inference
