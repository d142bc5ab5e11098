import LuaShape.Proofs.LoadOrder.Order
import Mathlib.Data.List.Forall2

/-!
# The order in which files are inserted does not matter

Two graphs that hold the same files, inserted in different orders, differ in the
order of their indexes alone.  A required name then leads to the same file in
both, or is ambiguous in both with the same candidates in another order.  So the
files have the same dependencies, the groups are the same sets, and the worklist
takes the same steps on both graphs.  The two runs go in lockstep (`Alike.step`,
`Alike.run`), with the same files placed and seen and with diagnostics that are
alike one by one.
-/

namespace LuaShape

open List

/-! ## Diagnostics that are alike -/

/-- Two reports are the same, save that candidates may be listed in another order. -/
inductive Diagnostic.Alike : Diagnostic → Diagnostic → Prop where
  | same (d : Diagnostic) : Alike d d
  | ambiguous (file name : String) {candidates candidates' : List String}
      (h : candidates.Perm candidates') :
      Alike (.ambiguousRequire file name candidates) (.ambiguousRequire file name candidates')

/-- Diagnostics are alike one by one. -/
def ReportsAlike : List Diagnostic → List Diagnostic → Prop :=
  List.Forall₂ Diagnostic.Alike

theorem ReportsAlike.refl (ds : List Diagnostic) : ReportsAlike ds ds :=
  forall₂_same.2 fun d _ => .same d

theorem ReportsAlike.append {ds ds' es es' : List Diagnostic} (h : ReportsAlike ds ds')
    (h' : ReportsAlike es es') : ReportsAlike (ds ++ es) (ds' ++ es') :=
  rel_append h h'

/-- A broken cycle is reported in both or in none. -/
theorem ReportsAlike.cycleBroken_mem_iff {ds ds' : List Diagnostic} (h : ReportsAlike ds ds')
    {file other : String} :
    Diagnostic.cycleBroken file other ∈ ds ↔ Diagnostic.cycleBroken file other ∈ ds' := by
  induction h with
  | nil => rfl
  | cons hFirst _ ih =>
    rw [mem_cons, mem_cons, ih]
    cases hFirst with
    | same => rfl
    | ambiguous => simp

/-! ## Graphs of the same files -/

namespace Graph

/-- Two graphs hold the same files. -/
structure SameFiles (g g' : Graph) : Prop where
  indexed : g.Indexed
  indexed' : g'.Indexed
  buckets : g.buckets = g'.buckets
  find? : ∀ name, g.files.find? name = g'.files.find? name

namespace SameFiles

variable {g g' : Graph} (h : g.SameFiles g')
include h

theorem mem_keys_iff (name : String) : name ∈ g.files.keys ↔ name ∈ g'.files.keys := by
  rw [OrderedMap.mem_keys_iff, OrderedMap.mem_keys_iff, h.find?]

theorem keys_perm : g.files.keys.Perm g'.files.keys :=
  (perm_ext_iff_of_nodup g.files.distinct g'.files.distinct).2 h.mem_keys_iff

theorem resolve_eq_found_iff {name target : String} {bucket : Option String} :
    g.resolve name bucket = .found target ↔ g'.resolve name bucket = .found target := by
  rw [h.indexed.resolve_eq_found_iff, h.indexed'.resolve_eq_found_iff, h.buckets,
    ModuleName.Means.perm h.keys_perm]

theorem dependsOn_iff {name other : String} :
    g.DependsOn name other ↔ g'.DependsOn name other := by
  simp only [DependsOn, h.find?, h.resolve_eq_found_iff]

theorem dependencies_eq (name : String) : g.dependencies name = g'.dependencies name := by
  refine SortedSet.ext_mem fun other => ?_
  rw [h.indexed.mem_dependencies_iff, h.indexed'.mem_dependencies_iff, h.dependsOn_iff]

/-- A require calls for no report in either graph, or for reports that are alike. -/
theorem requireReport?_alike (file : ProjectFile) (name : String) :
    Option.Rel Diagnostic.Alike (g.requireReport? file name) (g'.requireReport? file name) := by
  by_cases hFound : ∃ target, g.resolve name file.bucket = .found target
  · obtain ⟨target, hFound⟩ := hFound
    rw [requireReport?, requireReport?, hFound, h.resolve_eq_found_iff.1 hFound]
    exact .none
  · have hNone : ∀ target, g.resolve name file.bucket ≠ .found target := fun target hTarget =>
      hFound ⟨target, hTarget⟩
    have hNone' : ∀ target, g'.resolve name file.bucket ≠ .found target := fun target hTarget =>
      hNone target (h.resolve_eq_found_iff.2 hTarget)
    have hPerm : (ModuleName.candidates g.files.keys name).Perm
        (ModuleName.candidates g'.files.keys name) := h.keys_perm.filter _
    rw [requireReport?, requireReport?, h.indexed.resolve_of_not_found hNone,
      h.indexed'.resolve_of_not_found hNone']
    by_cases hNil : ModuleName.candidates g.files.keys name = []
    · have hNil' : ModuleName.candidates g'.files.keys name = [] := by
        rw [hNil] at hPerm
        exact hPerm.nil_eq.symm
      rw [if_pos hNil, if_pos hNil']
      exact .some (.same _)
    · have hNil' : ModuleName.candidates g'.files.keys name ≠ [] := by
        intro hEmpty
        rw [hEmpty] at hPerm
        exact hNil hPerm.eq_nil
      rw [if_neg hNil, if_neg hNil']
      exact .some (.ambiguous file.name name hPerm)

theorem requireReports_alike (name : String) :
    ReportsAlike (g.requireReports name) (g'.requireReports name) := by
  rw [requireReports, requireReports, h.find?]
  cases g'.files.find? name with
  | none => exact .nil
  | some file =>
    refine rel_filterMap (R := Eq) ?_ (forall₂_refl _)
    rintro required _ rfl
    exact h.requireReport?_alike file required

end SameFiles

end Graph

/-! ## Two runs in lockstep -/

namespace Schedule

/-- Two states of the search that differ in the candidates of reports alone. -/
structure Alike (p p' : Progress) : Prop where
  placed : p.placed = p'.placed
  seen : p.seen = p'.seen
  diagnostics : ReportsAlike p.diagnostics p'.diagnostics

namespace Alike

variable {g g' : Graph} {p p' : Progress}

theorem visit (hg : g.SameFiles g') (h : Alike p p') (file : String) :
    Alike (p.visit g file) (p'.visit g' file) := by
  rw [Progress.visit, Progress.visit, h.seen]
  split
  · exact h
  · exact ⟨h.placed, rfl, h.diagnostics.append (hg.requireReports_alike file)⟩

theorem breakCycle (h : Alike p p') (file other : String) :
    Alike (p.breakCycle file other) (p'.breakCycle file other) := by
  have hIff : Diagnostic.cycleBroken file other ∈ p.diagnostics ↔
      Diagnostic.cycleBroken file other ∈ p'.diagnostics :=
    h.diagnostics.cycleBroken_mem_iff
  rw [Progress.breakCycle, Progress.breakCycle]
  by_cases hOld : Diagnostic.cycleBroken file other ∈ p.diagnostics
  · rw [if_pos hOld, if_pos (hIff.1 hOld)]
    exact h
  · rw [if_neg hOld, if_neg (mt hIff.2 hOld)]
    exact ⟨h.placed, h.seen, h.diagnostics.append (.refl _)⟩

theorem breakCycles (h : Alike p p') (file : String) (others : List String) :
    Alike (others.foldl (Progress.breakCycle file) p)
      (others.foldl (Progress.breakCycle file) p') := by
  induction others generalizing p p' with
  | nil => exact h
  | cons other others ih => exact ih (h.breakCycle file other)

theorem place (h : Alike p p') (file : String) : Alike (p.place file) (p'.place file) where
  placed := by rw [Progress.place, Progress.place, h.placed]
  seen := h.seen
  diagnostics := h.diagnostics

/-- A step does the same to both, and leaves the same stack. -/
theorem step (hg : g.SameFiles g') (h : Alike p p') (file : String) (stack : List String) :
    Alike (Schedule.step g p file stack).1 (Schedule.step g' p' file stack).1 ∧
      (Schedule.step g p file stack).2 = (Schedule.step g' p' file stack).2 := by
  have hVisit := h.visit hg file
  rw [Schedule.step, Schedule.step, h.placed]
  by_cases hPlaced : file ∈ p'.placed
  · rw [if_pos hPlaced, if_pos hPlaced]
    exact ⟨h, rfl⟩
  · rw [if_neg hPlaced, if_neg hPlaced]
    dsimp only
    rw [hg.dependencies_eq, hVisit.placed, hVisit.seen]
    generalize ((g'.dependencies file).toList.filter (· ∉ (p'.visit g' file).placed)) = unplaced
    have hBroken := hVisit.breakCycles file
      (unplaced.filter (· ∈ (p'.visit g' file).seen))
    rw [hBroken.seen]
    split
    · exact ⟨hBroken.place file, rfl⟩
    · exact ⟨hBroken, rfl⟩

/-- The two runs go in lockstep. -/
theorem run (hg : g.SameFiles g') (limit : Nat) (h : Alike p p') (stack : List String) :
    Alike (Schedule.run g limit p stack) (Schedule.run g' limit p' stack) := by
  induction limit generalizing p p' stack with
  | zero => exact h
  | succ limit ih =>
    cases stack with
    | nil => exact h
    | cons file stack =>
      obtain ⟨hNext, hStack⟩ := h.step hg file stack
      show Alike
        (Schedule.run g limit (Schedule.step g p file stack).1
          (Schedule.step g p file stack).2)
        (Schedule.run g' limit (Schedule.step g' p' file stack).1
          (Schedule.step g' p' file stack).2)
      rw [hStack]
      exact ih hNext _

end Alike

variable {g g' : Graph}

theorem limitFor_eq (hg : g.SameFiles g') : limitFor g = limitFor g' := by
  rw [limitFor, limitFor, ← length_keys, ← length_keys, hg.keys_perm.length_eq]

/-- The groups of both graphs hold the same files. -/
theorem ofList_group_eq (hg : g.SameFiles g') (bucket : Option String) :
    SortedSet.ofList (group g bucket) = SortedSet.ofList (group g' bucket) := by
  refine SortedSet.ext_mem fun name => ?_
  rw [SortedSet.mem_ofList, SortedSet.mem_ofList, mem_group_iff hg.indexed,
    mem_group_iff hg.indexed', hg.mem_keys_iff, hg.buckets]

theorem Alike.runGroup (hg : g.SameFiles g') {p p' : Progress} (h : Alike p p')
    (bucket : Option String) :
    Alike (Schedule.runGroup g p (group g bucket)) (Schedule.runGroup g' p' (group g' bucket)) := by
  rw [Schedule.runGroup, Schedule.runGroup, limitFor_eq hg, ofList_group_eq hg]
  exact h.run hg _ _

theorem Alike.runGroups (hg : g.SameFiles g') {p p' : Progress} (h : Alike p p')
    (buckets : List (Option String)) :
    Alike ((buckets.map (group g)).foldl (Schedule.runGroup g) p)
      ((buckets.map (group g')).foldl (Schedule.runGroup g') p') := by
  induction buckets generalizing p p' with
  | nil => exact h
  | cons bucket buckets ih => exact ih (h.runGroup hg bucket)

theorem groups_eq (g : Graph) : groups g = (g.buckets.map some ++ [none]).map (group g) := by
  simp [groups, Function.comp_def]

/-- Both graphs get the same order, and reports that are alike. -/
theorem ofGraph_alike (hg : g.SameFiles g') :
    (ofGraph g).order = (ofGraph g').order ∧
      ReportsAlike (ofGraph g).diagnostics (ofGraph g').diagnostics := by
  have hStart : Alike {} {} := ⟨rfl, rfl, .nil⟩
  have hFinal : Alike (finished g) (finished g') := by
    rw [finished, finished, groups_eq, groups_eq, hg.buckets]
    exact hStart.runGroups hg _
  exact ⟨hFinal.placed, hFinal.diagnostics⟩

end Schedule

end LuaShape
