import LuaShape.Proofs.LoadOrder.Order

/-!
# What the search for an order reports

A file is taken from the stack once or twice, and each time its dependencies are looked at
anew.  Still every require is reported on exactly once, because reports are made when a file
is seen for the first time, and every file is seen in the end; and no ignored edge is reported
twice, because the reports made so far are searched first.

`Advised` states this for any moment of the search: the reports about a require are all there
if the file has been seen, and none is there otherwise.  A step keeps it, and so do the loops.

Main result: `advice_is_exact`.
-/

namespace LuaShape

open List

/-- Whether a report is about the require of a name in a file. -/
def Diagnostic.concerns (file name : String) : Diagnostic → Bool
  | .ambiguousRequire reported required _ => file = reported && name = required
  | .unresolvedRequire reported required => file = reported && name = required
  | _ => false

/-- The reports that the require of a name in a file calls for, by what the name stands for. -/
def RequireTarget.advice (file name : String) : RequireTarget → List Diagnostic
  | .found _ => []
  | .ambiguous candidates => [.ambiguousRequire file name candidates]
  | .missing => [.unresolvedRequire file name]

namespace Graph

/-! ## Reports about one file -/

theorem toList_requireReport? (g : Graph) (record : ProjectFile) (name : String) :
    (g.requireReport? record name).toList =
      (g.resolve name record.bucket).advice record.name name := by
  rw [requireReport?]
  cases g.resolve name record.bucket <;> rfl

variable {g : Graph}

/-- A report about a require concerns this require alone. -/
theorem concerns_iff_of_requireReport? {record : ProjectFile} {required : String} {d : Diagnostic}
    (h : g.requireReport? record required = some d) (file name : String) :
    d.concerns file name = true ↔ file = record.name ∧ name = required := by
  rw [requireReport?] at h
  split at h
  · cases h
  all_goals
    cases h
    simp [Diagnostic.concerns]

theorem mem_requireReports_iff {file : String} {d : Diagnostic} :
    d ∈ g.requireReports file ↔ ∃ record, g.files.find? file = some record ∧
      ∃ name ∈ record.effects.requires, g.requireReport? record name = some d := by
  rw [requireReports]
  cases g.files.find? file with
  | none => simp
  | some record =>
    simp only [mem_filterMap, Option.some.injEq, exists_eq_left']
    rfl

/-- The reports about one file concern no other one. -/
theorem filter_requireReports_of_ne (hg : g.Indexed) {file other : String} (h : file ≠ other)
    (name : String) : (g.requireReports other).filter (Diagnostic.concerns file name) = [] := by
  rw [filter_eq_nil_iff]
  intro d hd hConcerns
  obtain ⟨record, hRecord, required, -, hReport⟩ := mem_requireReports_iff.1 hd
  have hFile := ((concerns_iff_of_requireReport? hReport file name).1 hConcerns).1
  exact h (hFile.trans (hg.name_find? hRecord))

/-- Each require of a file is reported on as its look-up calls for. -/
theorem filter_requireReports (hg : g.Indexed) {file name : String} {record : ProjectFile}
    (hRecord : g.files.find? file = some record) :
    (g.requireReports file).filter (Diagnostic.concerns file name) =
      if name ∈ record.effects.requires then
        (g.resolve name record.bucket).advice file name else [] := by
  have hName : record.name = file := hg.name_find? hRecord
  have hList : ∀ names : List String, names.Nodup →
      (names.filterMap (g.requireReport? record)).filter (Diagnostic.concerns file name) =
        if name ∈ names then (g.requireReport? record name).toList else [] := by
    intro names hNames
    induction names with
    | nil => rfl
    | cons required names ih =>
      rw [nodup_cons] at hNames
      have hRest := ih hNames.2
      cases hReport : g.requireReport? record required with
      | none =>
        rw [filterMap_cons_none hReport, hRest]
        by_cases hSame : name = required
        · simp [hSame, hReport]
        · simp [hSame]
      | some d =>
        have hConcerns := concerns_iff_of_requireReport? hReport file name
        rw [filterMap_cons_some hReport]
        by_cases hSame : name = required
        · subst hSame
          rw [filter_cons_of_pos (hConcerns.2 ⟨hName.symm, rfl⟩), hRest,
            if_neg hNames.1, if_pos mem_cons_self, hReport]
          rfl
        · rw [filter_cons_of_neg fun h => hSame (hConcerns.1 h).2, hRest]
          simp [hSame]
  rw [requireReports, hRecord]
  refine (hList _ record.effects.requires.nodup_toList).trans ?_
  rw [toList_requireReport?, hName]
  rfl

end Graph

namespace Schedule

/-! ## The invariant -/

/-- The reports made so far: those about the requires of the files that have been seen, and
each ignored edge at most once. -/
structure Advised (g : Graph) (p : Progress) : Prop where
  requires : ∀ file name, p.diagnostics.filter (Diagnostic.concerns file name) =
    if file ∈ p.seen then (g.requireReports file).filter (Diagnostic.concerns file name) else []
  cycles : ∀ file other, p.diagnostics.count (.cycleBroken file other) ≤ 1

theorem advised_start (g : Graph) : Advised g {} where
  requires := fun _ _ => rfl
  cycles := fun _ _ => Nat.zero_le 1

namespace Advised

variable {g : Graph} {p q : Progress}

/-- Seeing a file for the first time adds the reports about its requires. -/
theorem visit (hg : g.Indexed) (h : Advised g p) (file : String) :
    Advised g (p.visit g file) := by
  rw [Progress.visit]
  split
  · exact h
  · rename_i hNew
    refine ⟨fun x name => ?_, fun x other => ?_⟩
    · rw [filter_append, h.requires]
      by_cases hx : x = file
      · subst hx
        rw [if_neg hNew, if_pos mem_cons_self, nil_append]
      · rw [Graph.filter_requireReports_of_ne hg hx, append_nil]
        simp [hx]
    · have hNone := count_eq_zero_of_not_mem
        (cycleBroken_not_mem_requireReports g file x other)
      rw [count_append, hNone]
      exact h.cycles x other

/-- An ignored edge is added to the reports if it is not there. -/
theorem breakCycle (h : Advised g p) (file other : String) :
    Advised g (p.breakCycle file other) := by
  rw [Progress.breakCycle]
  split
  · exact h
  · rename_i hNew
    refine ⟨fun x name => ?_, fun x y => ?_⟩
    · rw [filter_append, h.requires]
      exact append_nil _
    · have hOld := h.cycles x y
      have hNone : p.diagnostics.count (.cycleBroken file other) = 0 :=
        count_eq_zero_of_not_mem hNew
      rw [count_append, count_singleton]
      split
      · rename_i hSame
        rw [beq_iff_eq.1 hSame] at hNone
        omega
      · exact hOld

theorem breakCycles (h : Advised g p) (file : String) (others : List String) :
    Advised g (others.foldl (Progress.breakCycle file) p) := by
  induction others generalizing p with
  | nil => exact h
  | cons other others ih => exact ih (h.breakCycle file other)

theorem place (h : Advised g p) (file : String) : Advised g (p.place file) := ⟨h.1, h.2⟩

theorem step (hg : g.Indexed) (h : Advised g p) (file : String) (stack : List String) :
    Advised g (Schedule.step g p file stack).1 := by
  rw [Schedule.step]
  split
  · exact h
  · dsimp only
    split
    · exact ((h.visit hg file).breakCycles file _).place file
    · exact (h.visit hg file).breakCycles file _

end Advised

variable {g : Graph} {p q : Progress}

theorem Worked.advised (hg : g.Indexed) {stack : List String} (h : Worked g p stack q)
    (hStart : Advised g p) : Advised g q := by
  induction h with
  | done p => exact hStart
  | take _ ih => exact ih (hStart.step hg _ _)

theorem WorkedAll.advised (hg : g.Indexed) {groups : List (List String)}
    (h : WorkedAll g p groups q) (hStart : Advised g p) : Advised g q := by
  induction h with
  | done p => exact hStart
  | group first _ ih => exact ih (first.advised hg hStart)

/-! ## The reports about a graph -/

/-- In the end every file has been seen. -/
theorem mem_seen_finished (hg : g.Indexed) {file : String} (h : file ∈ g.files.keys) :
    file ∈ (finished g).seen :=
  (orderly_finished hg).seen_of_placed file ((mem_order_iff hg).2 h)

/-- **The reports are exact.**  Whatever files are inserted, each require of each file is
reported on once if its name is missing or ambiguous from the bucket of the file, and not at
all otherwise; an ignored edge between two files is reported at most once; and there are no
other reports. -/
theorem advice_is_exact (buckets : List String) (files : List (String × Effects)) :
    let g := Graph.ofFiles buckets files
    let reports := (ofGraph g).diagnostics
    (∀ file record, g.files.find? file = some record → ∀ name ∈ record.effects.requires,
      reports.filter (Diagnostic.concerns file name) =
        (g.resolve name record.bucket).advice file name) ∧
    (∀ file other, reports.count (.cycleBroken file other) ≤ 1) ∧
    ∀ d ∈ reports,
      (∃ file record, g.files.find? file = some record ∧
        ∃ name ∈ record.effects.requires, d.concerns file name = true) ∨
      ∃ file ∈ g.files.keys, ∃ other ∈ g.files.keys, d = .cycleBroken file other := by
  intro g reports
  have hg : g.Indexed := Graph.indexed_ofFiles buckets files
  have hAdvised : Advised g (finished g) := (workedAll_finished hg).advised hg (advised_start g)
  refine ⟨fun file record hRecord name hName => ?_, hAdvised.cycles, fun d hd => ?_⟩
  · have hSeen := mem_seen_finished hg (OrderedMap.mem_keys_iff.2 ⟨record, hRecord⟩)
    have hReports := hAdvised.requires file name
    rw [if_pos hSeen, Graph.filter_requireReports hg hRecord, if_pos hName] at hReports
    exact hReports
  · rcases (orderly_finished hg).reports d hd with ⟨file, hReport⟩ | ⟨file, other, rfl⟩
    · obtain ⟨record, hRecord, name, hName, hReport⟩ := Graph.mem_requireReports_iff.1 hReport
      refine Or.inl ⟨file, record, hRecord, name, hName, ?_⟩
      exact (Graph.concerns_iff_of_requireReport? hReport file name).2
        ⟨(hg.name_find? hRecord).symm, rfl⟩
    · obtain ⟨-, hFile, hOther, -⟩ := (orderly_finished hg).broken_edge file other hd
      exact Or.inr ⟨file, (orderly_finished hg).seen_known file hFile, other,
        (orderly_finished hg).seen_known other hOther, rfl⟩

end Schedule

end LuaShape
