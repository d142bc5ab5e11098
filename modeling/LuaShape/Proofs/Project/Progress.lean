import LuaShape.Proofs.Inference.Modules
import LuaShape.Proofs.Inference.Placed
import LuaShape.Proofs.Project.Chunks

/-!
# When all modules have been read

`Progress` gathers what holds between two modules of a run: which modules are known and
which of them have been read, that the representation is consistent, that globals and
named tables are placed, and that every module that has been read lists the globals its
chunk assigns.  Reading a module keeps it, whatever the chunk (`Progress.readModule`), and
so does spreading the arguments of calls at the end.
-/

namespace LuaShape.Inference

open List

variable {buckets order done : List String} {chunks : List (String × Chunk)} {s : Inference}
  {name : String}

/-! ## Making modules known -/

theorem exists_modules_register (s : Inference) (name : String) :
    ∃ more, (s.register name).2 = { s with modules := s.modules ++ more } := by
  rw [register]
  split
  · exact ⟨[], by rw [append_nil]⟩
  · exact ⟨_, rfl⟩

theorem globalsAt_register (s : Inference) (name : String) (index : Nat) :
    s.globalsAt index ⊆ (s.register name).2.globalsAt index := by
  obtain ⟨more, hEq⟩ := s.exists_modules_register name
  intro g hg
  rw [hEq]
  rw [globalsAt] at hg ⊢
  cases hModule : s.modules[index]? with
  | none => simp [hModule] at hg
  | some m =>
    rw [hModule] at hg
    rw [List.getElem?_append_left (List.getElem?_eq_some_iff.1 hModule).1, hModule]
    exact hg

theorem Placed.register (hp : Placed s) (name : String) : Placed (s.register name).2 := by
  have hGlobals := s.globalsAt_register name
  obtain ⟨more, hEq⟩ := s.exists_modules_register name
  rw [hEq] at hGlobals ⊢
  refine hp.congr (fun _ => rfl) rfl rfl hGlobals ?_
  rw [length_append]
  exact Nat.le_add_right _ _

theorem placed_registerAll (names : List String) (hs : Sound s) (hp : Placed s) :
    Sound (s.registerAll names) ∧ Placed (s.registerAll names) := by
  induction names generalizing s with
  | nil => exact ⟨hs, hp⟩
  | cons name names ih => exact ih (hs.register name) (hp.register name)

theorem Placed.changes {P : TermId → Prop} {s' : Inference} (hp : Placed s) (hs : Sound s)
    (hReading : s.IsReading) (h : Changes P s s') : Placed s' := by
  induction h with
  | refl => exact hp
  | tail hChanges hStep ih =>
    exact ih.change (Changes.sound hChanges hs) (Changes.isReading hChanges hReading) hStep.change

/-! ## Reading modules -/

/-- Whatever the chunk, reading only adds reports of early requires to the outline. -/
theorem exists_outline_readBlock (s : Inference) (name : String) (chunk : Chunk) :
    ∃ new, ((Read.readBlock chunk.block).run
        { inference := (s.beginModule name).2
          scope := (s.beginModule name).1 }).2.inference.outline =
          (s.beginModule name).2.outline.report new ∧
      ∀ d ∈ new, ∃ file target, d = .requiredEarly file target := by
  obtain ⟨c, hAgrees⟩ := s.agrees_readThrough name chunk
  obtain ⟨new, hNew, hEarly⟩ := hAgrees.told.outline
  refine ⟨new, hNew, fun d hd => ?_⟩
  obtain ⟨_, -, target, -, -, -, hd⟩ := hEarly d hd
  exact ⟨_, target, hd⟩

/-- Whatever the chunk, a module that has been read counts as read, and nothing else that is
known of modules changes. -/
theorem Known.afterReading (h : Known buckets order done s) (hOrder : order.Nodup)
    (hName : name ∈ order) (chunk : Chunk) :
    Known buckets order (name :: done) (s.readModule name chunk) := by
  obtain ⟨new, hNew, -⟩ := s.exists_outline_readBlock name chunk
  exact ((h.beginModule hName).report hNew).endModule hOrder _

/-! ## Progress -/

/-- Modules are known and some of them have been read; those list all globals that their
chunks assign. -/
structure Progress (buckets order done : List String) (chunks : List (String × Chunk))
    (s : Inference) : Prop extends Known buckets order done s where
  sound : Sound s
  placed : Placed s
  assigned : ∀ index name chunk g, order[index]? = some name → name ∈ done →
    chunks.find? (fun entry => entry.1 = name) = some (name, chunk) →
    g ∈ AssignedGlobals.ofChunk chunk → g ∈ s.globalsAt index

theorem At.isReading (h : At buckets order done name s) : s.IsReading := by
  have hReader := h.reader
  rw [reader?_outline, currentModule?] at hReader
  obtain ⟨_, hModule, -⟩ := Option.map_eq_some_iff.1 hReader
  exact (List.getElem?_eq_some_iff.1 hModule).1

theorem progress_registerAll (hOrder : order.Nodup) :
    Progress buckets order [] chunks ((empty buckets).registerAll order) := by
  obtain ⟨hSound, hPlaced⟩ :=
    placed_registerAll order (sound_empty buckets) (placed_empty buckets)
  exact { (Known.empty buckets).registerAll hOrder with
    sound := hSound
    placed := hPlaced
    assigned := fun _ _ _ _ _ hDone => by cases hDone }

/-- Spreading arguments defines no globals. -/
theorem definitionsOf_propagateArguments (s : Inference) (name : String) :
    s.propagateArguments.definitionsOf (.global name) = s.definitionsOf (.global name) := by
  have hPush : ∀ (given : List (SymbolId × Definition))
      (definitions : OrderedMap Ident (List Definition)),
      (given.foldl (fun definitions entry => definitions.push (.bound entry.1) entry.2)
        definitions).get (.global name) = definitions.get (.global name) := by
    intro given
    induction given with
    | nil => exact fun _ => rfl
    | cons entry rest ih =>
      intro definitions
      rw [foldl_cons, ih, OrderedMap.get_push]
      exact if_neg nofun
  rw [Inference.propagateArguments]
  split
  · rfl
  · exact hPush _ s.definitions

/-- A module that has been read lists the globals that its chunk assigns. -/
theorem Placed.mem_globalsAt {chunk : Chunk} (h : Placed (s.readModule name chunk)) {g : String}
    (hg : g ∈ AssignedGlobals.ofChunk chunk) :
    g ∈ (s.readModule name chunk).globalsAt (s.beginModule name).2.current := by
  obtain ⟨inFunction, hOrigin⟩ := s.mem_origins_readThrough name hg
  obtain ⟨d, hd, hEq⟩ := mem_map.1 hOrigin
  have hModule : d.module = (s.beginModule name).2.current := congrArg Prod.fst hEq
  rw [← hModule]
  exact h.listed g d hd

namespace Progress

/-- Reading a module. -/
theorem readModule (h : Progress buckets order done chunks s) (hOrder : order.Nodup)
    (hName : name ∈ order) {chunk : Chunk}
    (hChunk : chunks.find? (fun entry => entry.1 = name) = some (name, chunk)) :
    Progress buckets order (name :: done) chunks (s.readModule name chunk) := by
  have hBegin := h.toKnown.beginModule hName
  have hSound := h.sound.beginModule name
  have hPlaced : Placed (s.beginModule name).2 :=
    (h.placed.register name).congr (fun _ => rfl) rfl rfl (fun _ => List.Subset.refl _)
      (Nat.le_refl _)
  have hChanges := changes_readModule h.sound name chunk
  have hAfter := hPlaced.changes hSound hBegin.isReading hChanges
  refine { h.toKnown.afterReading hOrder hName chunk with
    sound := hChanges.sound hSound
    placed := hAfter
    assigned := ?_ }
  intro index other otherChunk g hIndex hDone hOther hg
  by_cases hSame : other = name
  · subst hSame
    rw [hChunk] at hOther
    cases hOther
    have hLt := (List.getElem?_eq_some_iff.1 hIndex).1
    rw [(List.getElem?_inj hLt hOrder).1 (hIndex.trans hBegin.getElem?_current.symm)]
    exact hAfter.mem_globalsAt hg
  · have hDone := (mem_cons.1 hDone).resolve_left hSame
    refine hChanges.globalsAt index (s.globalsAt_register name index ?_)
    exact h.assigned index other otherChunk g hIndex hDone hOther hg

/-- Reading modules in order, behind some that have been read. -/
theorem readAll {front names : List String}
    (h : Progress buckets (front ++ names) front.reverse chunks s)
    (hOrder : (front ++ names).Nodup)
    (hChunks : ∀ name ∈ names, ∃ chunk,
      chunks.find? (fun entry => entry.1 = name) = some (name, chunk)) :
    Progress buckets (front ++ names) (front ++ names).reverse chunks (s.readAll chunks names) := by
  induction names generalizing front s with
  | nil =>
    rw [append_nil] at h ⊢
    exact h
  | cons name names ih =>
    obtain ⟨chunk, hFound⟩ := hChunks name mem_cons_self
    have hRead := h.readModule hOrder (mem_append_right front mem_cons_self) hFound
    have hSplit : front ++ name :: names = (front ++ [name]) ++ names := by simp
    have hDone : name :: front.reverse = (front ++ [name]).reverse := by simp
    have hStep : s.readAll chunks (name :: names) =
        (s.readModule name chunk).readAll chunks names := by
      rw [Inference.readAll, foldl_cons, hFound]
      rfl
    rw [hSplit, hDone] at hRead
    rw [hSplit] at hOrder ⊢
    rw [hStep]
    exact ih hRead hOrder fun other hOther => hChunks other (mem_cons_of_mem name hOther)

/-- Spreading arguments. -/
theorem propagateArguments (h : Progress buckets order done chunks s) :
    Progress buckets order done chunks s.propagateArguments := by
  have hFrame : ∃ definitions argumentsKnown,
      s.propagateArguments = { s with definitions, argumentsKnown } := by
    rw [Inference.propagateArguments]
    split <;> exact ⟨_, _, rfl⟩
  have hDefs := s.definitionsOf_propagateArguments
  have hSound := (changes_propagateArguments (P := fun _ => True) h.sound.grounded).sound h.sound
  obtain ⟨definitions, argumentsKnown, hEq⟩ := hFrame
  rw [hEq] at hDefs hSound ⊢
  exact
    { buckets_eq := h.buckets_eq
      modules_eq := h.modules_eq
      sound := hSound
      placed := h.placed.congr hDefs rfl rfl (fun _ => List.Subset.refl _) (Nat.le_refl _)
      assigned := h.assigned }

/-- A module is at the position of its name, and it has been read if it is among those. -/
theorem module_at (h : Progress buckets order done chunks s) {index : Nat} {m : ModuleRecord}
    (hModule : s.modules[index]? = some m) :
    order[index]? = some m.name ∧ m.isRead = decide (m.name ∈ done) := by
  have hHeading : (s.modules.map ModuleRecord.heading)[index]? =
      (order.map (headingOf buckets done))[index]? := congrArg (fun l => l[index]?) h.modules_eq
  rw [getElem?_map, hModule, getElem?_map, Option.map_some] at hHeading
  obtain ⟨name, hName, hSame⟩ := Option.map_eq_some_iff.1 hHeading.symm
  have hModuleName : name = m.name := congrArg Heading.name hSame
  subst hModuleName
  exact ⟨hName, (congrArg Heading.isRead hSame).symm⟩

end Progress

end LuaShape.Inference
