import LuaShape.Proofs.LoadOrder.Worklist
import Mathlib.Data.List.Perm.Subperm

/-!
# The order of the files of a project

`Worked` is the loop over the stack without any bound: a derivation of it is a
loop that ends.  The bound in `run` is enough for it, because every step lowers
`potential`, the height of the stack plus what the files not seen yet may still
put on it.

Main results:

* `worklist_ends_in_permutation` — for every graph the loop ends, and it places
  every file exactly once and nothing else.
* `precedes_iff_cycle_not_broken` — a dependency is placed first exactly when its
  edge is not reported, and only edges that lie on a cycle are reported.
-/

namespace LuaShape.Schedule

open List

/-! ## The loop without a bound -/

/-- Working off a stack ends, with the given progress. -/
inductive Worked (g : Graph) : Progress → List String → Progress → Prop where
  | done (p : Progress) : Worked g p [] p
  | take {p q : Progress} {file : String} {stack : List String}
      (rest : Worked g (step g p file stack).1 (step g p file stack).2 q) :
      Worked g p (file :: stack) q

/-- Working off groups of files one after the other ends, with the given progress. -/
inductive WorkedAll (g : Graph) : Progress → List (List String) → Progress → Prop where
  | done (p : Progress) : WorkedAll g p [] p
  | group {p q r : Progress} {files : List String} {groups : List (List String)}
      (first : Worked g p (SortedSet.ofList files).toList.reverse q)
      (rest : WorkedAll g q groups r) : WorkedAll g p (files :: groups) r

/-- What a step takes from the stack is placed or still there. -/
theorem mem_step {g : Graph} {p : Progress} {file x : String} {stack : List String}
    (h : x ∈ p.placed ∨ x ∈ file :: stack) :
    x ∈ (step g p file stack).1.placed ∨ x ∈ (step g p file stack).2 := by
  rw [mem_cons] at h
  obtain ⟨hPlaced, hStep⟩ | ⟨-, q, hVisit, ⟨-, hStep⟩ | ⟨-, hStep⟩⟩ := step_cases g p file stack
  · rw [hStep]
    rcases h with h | rfl | h
    · exact Or.inl h
    · exact Or.inl hPlaced
    · exact Or.inr h
  · rw [hStep, Progress.place, hVisit.placed]
    simp only [mem_append, mem_singleton]
    rcases h with h | h | h
    · exact Or.inl (Or.inl h)
    · exact Or.inl (Or.inr h)
    · exact Or.inr h
  · rw [hStep, hVisit.placed]
    simp only [mem_append, mem_cons]
    rcases h with h | h | h
    · exact Or.inl h
    · exact Or.inr (Or.inr (Or.inl h))
    · exact Or.inr (Or.inr (Or.inr h))

namespace Worked

variable {g : Graph} {p q : Progress} {stack : List String}

/-- Whatever was placed or lay on the stack is placed in the end. -/
theorem mem_placed (h : Worked g p stack q) {x : String} (hx : x ∈ p.placed ∨ x ∈ stack) :
    x ∈ q.placed := by
  induction h with
  | done p => simpa using hx
  | take _ ih => exact ih (mem_step hx)

theorem orderly (hg : g.Indexed) (h : Worked g p stack q) (hStart : Orderly g p stack) :
    Orderly g q [] := by
  induction h with
  | done p => exact hStart
  | take _ ih => exact ih (hStart.step hg)

end Worked

/-! ## The bound -/

/-- The files that have not been seen. -/
def unseen (g : Graph) (p : Progress) : List String :=
  g.files.keys.filter (· ∉ p.seen)

/-- A bound on the number of files that are still taken from the stack. -/
def potential (g : Graph) (p : Progress) (stack : List String) : Nat :=
  stack.length + (unseen g p).length * (g.files.size + 1)

theorem length_keys (g : Graph) : g.files.keys.length = g.files.size := by
  simp [OrderedMap.keys, OrderedMap.size]

variable {g : Graph} {file : String} {stack : List String} {p : Progress} {files : List String}
variable {name : String}

theorem length_pending_le (hg : g.Indexed) (q : Progress) (file : String) :
    (pending g q file).length ≤ g.files.size := by
  rw [← length_keys]
  refine (subperm_of_subset ?_ ?_).length_le
  · exact (g.dependencies file).nodup_toList.filter _
  · intro x hx
    exact hg.mem_keys_of_dependsOn (hg.mem_dependencies_iff.1 (mem_pending.1 hx).1)

/-- A file that waits again has nothing left to wait for. -/
theorem pending_eq_nil {p q : Progress} (h : Orderly g p (file :: stack))
    (hPlaced : file ∉ p.placed) (hSeen : file ∈ p.seen) (hVisit : Visited g p file q) :
    pending g q file = [] := by
  rw [eq_nil_iff_forall_not_mem]
  intro x hx
  obtain ⟨hDep, hxPlaced, hxSeen⟩ := mem_pending.1 hx
  rw [hVisit.placed] at hxPlaced
  have hWas := h.awaited file hSeen hPlaced x hDep
  rw [above_cons_self] at hWas
  rcases hWas with hWas | hWas | hWas
  · exact hxPlaced hWas
  · simp at hWas
  · exact hxSeen ((hVisit.seen x).2 (Or.inr (h.broken_edge file x hWas).2.2.1))

theorem length_unseen_le {p q : Progress} (hVisit : Visited g p file q) :
    (unseen g q).length ≤ (unseen g p).length := by
  refine (monotone_filter_right g.files.keys ?_).length_le
  intro x hx
  simp only [decide_eq_true_eq] at hx ⊢
  exact fun hSeen => hx ((hVisit.seen x).2 (Or.inr hSeen))

theorem length_unseen_lt {p q : Progress} (hVisit : Visited g p file q)
    (hKnown : file ∈ g.files.keys) (hNew : file ∉ p.seen) :
    (unseen g q).length < (unseen g p).length := by
  have hFilter : unseen g q = (unseen g p).filter (· ≠ file) := by
    rw [unseen, unseen, filter_filter]
    refine filter_congr ?_
    intro x _
    simp [hVisit.seen]
  rw [hFilter]
  refine length_filter_lt_length_iff_exists.2 ⟨file, ?_, by simp⟩
  exact mem_filter.2 ⟨hKnown, by simpa using hNew⟩

/-- Every step lowers the bound: a file leaves the stack for good, or is seen for
the first time, which pays for all that it puts on the stack. -/
theorem potential_step (hg : g.Indexed) (h : Orderly g p (file :: stack)) :
    potential g (step g p file stack).1 (step g p file stack).2 <
      potential g p (file :: stack) := by
  obtain ⟨-, hStep⟩ | ⟨hPlaced, q, hVisit, ⟨-, hStep⟩ | ⟨hSome, hStep⟩⟩ :=
    step_cases g p file stack
  · rw [hStep]
    show stack.length + (unseen g p).length * (g.files.size + 1) <
      stack.length + 1 + (unseen g p).length * (g.files.size + 1)
    omega
  · rw [hStep]
    show stack.length + (unseen g q).length * (g.files.size + 1) <
      stack.length + 1 + (unseen g p).length * (g.files.size + 1)
    have hMul := Nat.mul_le_mul_right (g.files.size + 1) (length_unseen_le hVisit)
    omega
  · rw [hStep]
    show ((pending g q file).reverse ++ file :: stack).length +
        (unseen g q).length * (g.files.size + 1) <
      stack.length + 1 + (unseen g p).length * (g.files.size + 1)
    have hNew : file ∉ p.seen := fun hSeen => hSome (pending_eq_nil h hPlaced hSeen hVisit)
    have hLt := length_unseen_lt hVisit (h.stack_known file mem_cons_self) hNew
    have hMul := Nat.mul_le_mul_right (g.files.size + 1) hLt
    rw [Nat.succ_mul] at hMul
    have hPending := length_pending_le hg q file
    rw [length_append, length_reverse, length_cons]
    omega

/-- The bound is enough for the loop to end. -/
theorem Worked.of_run (hg : g.Indexed) (h : Orderly g p stack) {limit : Nat}
    (hLimit : potential g p stack ≤ limit) : Worked g p stack (run g limit p stack) := by
  induction limit generalizing p stack with
  | zero =>
    have hEmpty : stack = [] := by
      rw [← length_eq_zero_iff]
      rw [potential] at hLimit
      omega
    subst hEmpty
    exact Worked.done p
  | succ limit ih =>
    cases stack with
    | nil => exact Worked.done p
    | cons file stack =>
      have hLess := potential_step hg h
      exact Worked.take (ih (h.step hg) (by omega))

/-! ## Groups -/

theorem orderly_start (g : Graph) : Orderly g {} [] := by
  constructor <;> simp [Progress.Broken]

/-- Between two groups nothing waits, so that a new stack may be started. -/
theorem Orderly.restart (h : Orderly g p []) (hStack : ∀ x ∈ stack, x ∈ g.files.keys) :
    Orderly g p stack := by
  have hDone : ∀ x ∈ p.seen, x ∈ p.placed := by
    intro x hSeen
    by_contra hPlaced
    simpa using h.waiting x hSeen hPlaced
  refine { h with stack_known := hStack, waiting := ?_, reached := ?_, awaited := ?_,
                  broken_waiting := ?_ }
  · exact fun x hSeen hPlaced => absurd (hDone x hSeen) hPlaced
  · exact fun x hSeen hPlaced => absurd (hDone x hSeen) hPlaced
  · exact fun x hSeen hPlaced => absurd (hDone x hSeen) hPlaced
  · exact fun x y hBroken hPlaced => absurd (hDone x (h.broken_edge x y hBroken).2.1) hPlaced

theorem Orderly.restart_group (h : Orderly g p []) (hFiles : ∀ x ∈ files, x ∈ g.files.keys) :
    Orderly g p (SortedSet.ofList files).toList.reverse := by
  refine h.restart ?_
  intro x hx
  exact hFiles x (SortedSet.mem_ofList.1 (mem_reverse.1 hx))

theorem Worked.of_runGroup (hg : g.Indexed) (h : Orderly g p [])
    (hFiles : ∀ x ∈ files, x ∈ g.files.keys) :
    Worked g p (SortedSet.ofList files).toList.reverse (runGroup g p files) := by
  refine Worked.of_run hg (h.restart_group hFiles) ?_
  have hStack : (SortedSet.ofList files).toList.length ≤ g.files.size := by
    rw [← length_keys]
    refine (subperm_of_subset (SortedSet.nodup_toList _) ?_).length_le
    exact fun x hx => hFiles x (SortedSet.mem_ofList.1 hx)
  have hUnseen : (unseen g p).length ≤ g.files.size := by
    rw [← length_keys]
    exact length_filter_le _ _
  have hMul := Nat.mul_le_mul_right (g.files.size + 1) hUnseen
  rw [potential, limitFor, length_reverse]
  have hSquare : (g.files.size + 1) * (g.files.size + 2) =
      g.files.size * (g.files.size + 1) + 2 * (g.files.size + 1) := by
    rw [Nat.mul_comm (g.files.size + 1), Nat.add_mul]
  omega

theorem mem_group_iff (hg : g.Indexed) {bucket : Option String} :
    name ∈ group g bucket ↔
      name ∈ g.files.keys ∧ ModuleName.bucketOf g.buckets name = bucket := by
  simp only [group, OrderedMap.values, mem_map, mem_filter, decide_eq_true_eq,
    Prod.exists]
  constructor
  · rintro ⟨_, ⟨⟨key, file, hEntry, rfl⟩, hBucket⟩, rfl⟩
    have hFound := OrderedMap.find?_eq_some_iff.2 hEntry
    rw [hg.name_find? hFound, ← hBucket, hg.recorded key file hFound]
    exact ⟨OrderedMap.mem_keys_iff.2 ⟨file, hFound⟩, rfl⟩
  · rintro ⟨hName, hBucket⟩
    obtain ⟨file, hFound⟩ := OrderedMap.mem_keys_iff.1 hName
    refine ⟨file, ⟨⟨name, file, OrderedMap.find?_eq_some_iff.1 hFound, rfl⟩, ?_⟩,
      hg.name_find? hFound⟩
    rw [← hBucket, hg.recorded name file hFound]
    rfl

/-- The groups hold files of the graph only. -/
theorem mem_keys_of_mem_groups (hg : g.Indexed) (hFiles : files ∈ groups g) (hName : name ∈ files) :
    name ∈ g.files.keys := by
  rw [groups, mem_append, mem_map, mem_singleton] at hFiles
  rcases hFiles with ⟨bucket, -, rfl⟩ | rfl
  · exact ((mem_group_iff hg).1 hName).1
  · exact ((mem_group_iff hg).1 hName).1

/-- Every file is in a group: that of its bucket, or the last one. -/
theorem exists_group (hg : g.Indexed) (hName : name ∈ g.files.keys) :
    ∃ files ∈ groups g, name ∈ files := by
  cases hBucket : ModuleName.bucketOf g.buckets name with
  | none =>
    refine ⟨group g none, ?_, (mem_group_iff hg).2 ⟨hName, hBucket⟩⟩
    exact mem_append_right _ (mem_singleton_self _)
  | some bucket =>
    refine ⟨group g (some bucket), ?_, (mem_group_iff hg).2 ⟨hName, hBucket⟩⟩
    have hKnown : bucket ∈ g.buckets := mem_of_find?_eq_some hBucket
    exact mem_append_left _ (mem_map_of_mem hKnown)

/-- Working off the groups ends, keeps the invariant and places all their files. -/
theorem workedAll_foldl (hg : g.Indexed) {groups : List (List String)} (h : Orderly g p [])
    (hGroups : ∀ files ∈ groups, ∀ x ∈ files, x ∈ g.files.keys) :
    WorkedAll g p groups (groups.foldl (runGroup g) p) ∧
      Orderly g (groups.foldl (runGroup g) p) [] ∧
      ∀ x, (x ∈ p.placed ∨ ∃ files ∈ groups, x ∈ files) →
        x ∈ (groups.foldl (runGroup g) p).placed := by
  induction groups generalizing p with
  | nil => exact ⟨WorkedAll.done p, h, by simp⟩
  | cons files groups ih =>
    have hFiles := hGroups files mem_cons_self
    have hFirst := Worked.of_runGroup hg h hFiles
    obtain ⟨hRest, hOrderly, hAll⟩ := ih (hFirst.orderly hg (h.restart_group hFiles))
      fun rest hRest => hGroups rest (mem_cons_of_mem files hRest)
    refine ⟨WorkedAll.group hFirst hRest, hOrderly, ?_⟩
    intro x hx
    refine hAll x ?_
    rcases hx with hx | ⟨later, hLater, hx⟩
    · exact Or.inl (hFirst.mem_placed (Or.inl hx))
    · rcases mem_cons.1 hLater with rfl | hLater
      · refine Or.inl (hFirst.mem_placed (Or.inr ?_))
        exact mem_reverse.2 (SortedSet.mem_ofList.2 hx)
      · exact Or.inr ⟨later, hLater, hx⟩

/-- The progress after all groups. -/
def finished (g : Graph) : Progress := (groups g).foldl (runGroup g) {}

theorem ofGraph_eq_finished (g : Graph) :
    ofGraph g = { order := (finished g).placed, diagnostics := (finished g).diagnostics } :=
  rfl

theorem workedAll_finished (hg : g.Indexed) : WorkedAll g {} (groups g) (finished g) :=
  (workedAll_foldl hg (orderly_start g) fun _ hFiles _ => mem_keys_of_mem_groups hg hFiles).1

theorem orderly_finished (hg : g.Indexed) : Orderly g (finished g) [] :=
  (workedAll_foldl hg (orderly_start g) fun _ hFiles _ => mem_keys_of_mem_groups hg hFiles).2.1

theorem mem_order_iff (hg : g.Indexed) : name ∈ (ofGraph g).order ↔ name ∈ g.files.keys := by
  constructor
  · intro hName
    exact (orderly_finished hg).seen_known name ((orderly_finished hg).seen_of_placed name hName)
  · intro hName
    exact (workedAll_foldl hg (orderly_start g) fun _ hFiles _ =>
      mem_keys_of_mem_groups hg hFiles).2.2 name (Or.inr (exists_group hg hName))

theorem nodup_order (hg : g.Indexed) : (ofGraph g).order.Nodup :=
  (orderly_finished hg).placed_nodup

/-! ## The order of a graph -/

/-- A dependency stands first exactly when its edge is not reported. -/
theorem precedes_order_iff (hg : g.Indexed) {file other : String} (h : g.DependsOn file other) :
    Precedes (ofGraph g).order other file ↔
      Diagnostic.cycleBroken file other ∉ (ofGraph g).diagnostics := by
  have hOrderly := orderly_finished hg
  have hDep : other ∈ g.dependencies file := hg.mem_dependencies_iff.2 h
  constructor
  · intro hBefore hBroken
    have hAfter := hOrderly.broken_placed file other hBroken hBefore.mem_left
    exact hAfter.asymm hOrderly.placed_nodup hBefore
  · intro hNone
    obtain ⟨-, record, hFound, -⟩ := h
    have hPlaced : file ∈ (finished g).placed :=
      (mem_order_iff hg).2 (OrderedMap.mem_keys_iff.2 ⟨record, hFound⟩)
    exact (hOrderly.settled file hPlaced other hDep).resolve_right hNone

/-- Only edges that lie on a cycle are reported. -/
theorem leadsTo_of_cycleBroken (hg : g.Indexed) {file other : String}
    (h : Diagnostic.cycleBroken file other ∈ (ofGraph g).diagnostics) :
    g.DependsOn file other ∧ g.LeadsTo other file := by
  obtain ⟨hDep, -, -, hBack⟩ := (orderly_finished hg).broken_edge file other h
  exact ⟨hg.mem_dependencies_iff.1 hDep, hBack⟩

/-- **Termination and completeness.**  Whatever files are inserted, the loop over the
groups ends, and the order that it finds lists the files of the graph, which are
those that were inserted, each exactly once. -/
theorem worklist_ends_in_permutation (buckets : List String)
    (files : List (String × Effects)) :
    let g := Graph.ofFiles buckets files
    (∃ final, WorkedAll g {} (groups g) final ∧
      ofGraph g = { order := final.placed, diagnostics := final.diagnostics }) ∧
    (ofGraph g).order.Perm g.files.keys ∧
    (ofGraph g).order.Nodup ∧
    ∀ name, name ∈ (ofGraph g).order ↔ name ∈ files.map Prod.fst := by
  intro g
  have hg : g.Indexed := Graph.indexed_ofFiles buckets files
  refine ⟨⟨finished g, workedAll_finished hg, ofGraph_eq_finished g⟩, ?_, nodup_order hg, ?_⟩
  · refine (perm_ext_iff_of_nodup (nodup_order hg) g.files.distinct).2 ?_
    exact fun name => mem_order_iff hg
  · exact fun name => (mem_order_iff hg).trans Graph.mem_keys_ofFiles

/-- **Dependencies first, save on cycles.**  Whatever files are inserted, the computed
dependencies of a file are the others that it requires or that assign a global it
reads.  One of them stands before the file exactly when no broken cycle is reported
for the two; a report names a dependency that leads back to the file; and so a graph
without cycles gets an order with all dependencies first and no report. -/
theorem precedes_iff_cycle_not_broken (buckets : List String)
    (files : List (String × Effects)) :
    let g := Graph.ofFiles buckets files
    (∀ file other, other ∈ g.dependencies file ↔ g.DependsOn file other) ∧
    (∀ file other, g.DependsOn file other →
      (Precedes (ofGraph g).order other file ↔
        Diagnostic.cycleBroken file other ∉ (ofGraph g).diagnostics)) ∧
    (∀ file other, Diagnostic.cycleBroken file other ∈ (ofGraph g).diagnostics →
      g.DependsOn file other ∧ g.LeadsTo other file) ∧
    (g.Acyclic →
      (∀ file other, Diagnostic.cycleBroken file other ∉ (ofGraph g).diagnostics) ∧
      ∀ file other, g.DependsOn file other → Precedes (ofGraph g).order other file) := by
  intro g
  have hg : g.Indexed := Graph.indexed_ofFiles buckets files
  refine ⟨fun file other => hg.mem_dependencies_iff, fun file other => precedes_order_iff hg,
    fun file other => leadsTo_of_cycleBroken hg, ?_⟩
  intro hAcyclic
  have hNone : ∀ file other,
      Diagnostic.cycleBroken file other ∉ (ofGraph g).diagnostics := by
    intro file other hBroken
    obtain ⟨hDep, hBack⟩ := leadsTo_of_cycleBroken hg hBroken
    exact hAcyclic file (hBack.head hDep)
  exact ⟨hNone, fun file other hDep => (precedes_order_iff hg hDep).2 (hNone file other)⟩

end LuaShape.Schedule
