import LuaShape.Proofs.LoadOrder.Order

/-!
# Files of a later group are pulled forward by need only

The groups of files are taken one after the other, but a file that is waited for is placed
with the group that waits for it, whatever its own group is.  So a file of a later group may
stand before one of an earlier group, through any number of dependencies and across any
number of groups and cycles.

This happens for no other reason.  Whatever lies on the stack, or has been placed, is a file
of the groups taken so far or is reached from one (`step_needed`), and taking more groups only
appends to the order (`prefix_placed`).  When the group of the overtaken file is finished, the
file that stands before it is placed too, so it is reached from a file of the groups up to
there; it is none of these files itself, because its own group has not been taken.

Main result: `overtaken_by_need`.
-/

namespace LuaShape

open List

/-- The place of the group of a file: that of its bucket among the buckets, or behind all of
them for a file in none. -/
def Graph.groupPlace (g : Graph) (name : String) : Nat :=
  ((g.files.find? name).bind ProjectFile.bucket).elim g.buckets.length g.buckets.idxOf

namespace Schedule

variable {g : Graph} {p q : Progress}

/-! ## What is placed stays where it is -/

theorem prefix_step (g : Graph) (p : Progress) (file : String) (stack : List String) :
    p.placed <+: (step g p file stack).1.placed := by
  obtain ⟨-, hStep⟩ | ⟨-, q, hVisit, ⟨-, hStep⟩ | ⟨-, hStep⟩⟩ := step_cases g p file stack
  · have hSame : (step g p file stack).1.placed = p.placed := by rw [hStep]
    exact hSame ▸ prefix_refl p.placed
  · rw [hStep, Progress.place, hVisit.placed]
    exact prefix_append p.placed [file]
  · rw [hStep]
    exact hVisit.placed ▸ prefix_refl q.placed

variable {stack : List String} {name : String}

theorem Worked.prefix_placed (h : Worked g p stack q) : p.placed <+: q.placed := by
  induction h with
  | done p => exact prefix_refl p.placed
  | take _ ih => exact (prefix_step _ _ _ _).trans ih

theorem WorkedAll.prefix_placed {groups : List (List String)} (h : WorkedAll g p groups q) :
    p.placed <+: q.placed := by
  induction h with
  | done p => exact prefix_refl p.placed
  | group first _ ih => exact first.prefix_placed.trans ih

/-! ## What is placed is needed -/

/-- A file is one of certain files, or one of them leads to it. -/
def Needed (g : Graph) (roots : String → Prop) (file : String) : Prop :=
  ∃ root, roots root ∧ Relation.ReflTransGen g.DependsOn root file

variable {roots : String → Prop}

theorem Needed.dependency {file other : String} (h : Needed g roots file)
    (hEdge : g.DependsOn file other) : Needed g roots other := by
  obtain ⟨root, hRoot, hPath⟩ := h
  exact ⟨root, hRoot, hPath.tail hEdge⟩

/-- A step puts only dependencies of a needed file on the stack, and places only a file that
lay there. -/
theorem step_needed (hg : g.Indexed) {file : String}
    (h : ∀ x, x ∈ p.placed ∨ x ∈ file :: stack → Needed g roots x) :
    ∀ x, x ∈ (step g p file stack).1.placed ∨ x ∈ (step g p file stack).2 →
      Needed g roots x := by
  have hFile : Needed g roots file := h file (Or.inr mem_cons_self)
  have hStack : ∀ x ∈ stack, Needed g roots x := fun x hx =>
    h x (Or.inr (mem_cons_of_mem file hx))
  obtain ⟨-, hStep⟩ | ⟨-, q, hVisit, ⟨-, hStep⟩ | ⟨-, hStep⟩⟩ := step_cases g p file stack
  · rw [hStep]
    rintro x (hx | hx)
    · exact h x (Or.inl hx)
    · exact hStack x hx
  · rw [hStep, Progress.place, hVisit.placed]
    rintro x (hx | hx)
    · rcases mem_append.1 hx with hx | hx
      · exact h x (Or.inl hx)
      · rwa [mem_singleton.1 hx]
    · exact hStack x hx
  · rw [hStep, hVisit.placed]
    rintro x (hx | hx)
    · exact h x (Or.inl hx)
    · rcases mem_append.1 hx with hx | hx
      · have hEdge := (mem_pending.1 (mem_reverse.1 hx)).1
        exact hFile.dependency (hg.mem_dependencies_iff.1 hEdge)
      · exact h x (Or.inr hx)

theorem Worked.needed (hg : g.Indexed) (h : Worked g p stack q)
    (hStart : ∀ x, x ∈ p.placed ∨ x ∈ stack → Needed g roots x) :
    ∀ x ∈ q.placed, Needed g roots x := by
  induction h with
  | done p => exact fun x hx => hStart x (Or.inl hx)
  | take _ ih => exact ih (step_needed hg hStart)

/-- Working off groups of files places only what these files need. -/
theorem WorkedAll.needed (hg : g.Indexed) {groups : List (List String)}
    (h : WorkedAll g p groups q) (hStart : ∀ x ∈ p.placed, Needed g roots x)
    (hGroups : ∀ files ∈ groups, ∀ x ∈ files, roots x) : ∀ x ∈ q.placed, Needed g roots x := by
  induction h with
  | done p => exact hStart
  | @group p q r files groups first _ ih =>
    refine ih (first.needed hg ?_) fun later hLater =>
      hGroups later (mem_cons_of_mem files hLater)
    rintro x (hx | hx)
    · exact hStart x hx
    · have hMember : x ∈ files := SortedSet.mem_ofList.1 (mem_reverse.1 hx)
      exact ⟨x, hGroups files mem_cons_self x hMember, .refl⟩

/-! ## The groups up to a place -/

theorem groupPlace_eq (hg : g.Indexed) (hName : name ∈ g.files.keys) :
    g.groupPlace name =
      (ModuleName.bucketOf g.buckets name).elim g.buckets.length g.buckets.idxOf := by
  rw [Graph.groupPlace, hg.bucket_find? hName]

/-- A member is found no later than at any of its places. -/
theorem idxOf_getElem_le {names : List String} {place : Nat} (h : place < names.length) :
    names.idxOf names[place] ≤ place := by
  by_contra hLess
  rw [Nat.not_le, List.idxOf] at hLess
  have hOther := not_of_lt_findIdx hLess
  simp at hOther

/-- Files of the first groups have their place among these. -/
theorem groupPlace_lt (hg : g.Indexed) {count : Nat} {files : List String}
    (hFiles : files ∈ (groups g).take count) (hName : name ∈ files) :
    g.groupPlace name < count := by
  obtain ⟨place, hPlace, rfl⟩ := mem_take_iff_getElem.1 hFiles
  have hCount : place < count := by omega
  refine Nat.lt_of_le_of_lt ?_ hCount
  have hLength : (groups g).length = g.buckets.length + 1 := by simp [groups]
  by_cases hBucket : place < g.buckets.length
  · have hGroup : (groups g)[place] = group g (some g.buckets[place]) := by
      simp [groups, getElem_append_left, hBucket]
    rw [hGroup, mem_group_iff hg] at hName
    rw [groupPlace_eq hg hName.1, hName.2]
    exact idxOf_getElem_le hBucket
  · have hGroup : (groups g)[place] = group g none := by
      have hLast : place = g.buckets.length := by omega
      subst hLast
      simp [groups]
    rw [hGroup, mem_group_iff hg] at hName
    rw [groupPlace_eq hg hName.1, hName.2]
    show g.buckets.length ≤ place
    omega

/-- A file is in the group at its place. -/
theorem exists_group_take (hg : g.Indexed) (hName : name ∈ g.files.keys) :
    ∃ files ∈ (groups g).take (g.groupPlace name + 1), name ∈ files := by
  have hPlace := groupPlace_eq hg hName
  cases hBucket : ModuleName.bucketOf g.buckets name with
  | none =>
    rw [hBucket, Option.elim_none] at hPlace
    refine ⟨group g none, ?_, (mem_group_iff hg).2 ⟨hName, hBucket⟩⟩
    rw [hPlace, take_of_length_le (by simp [groups])]
    exact mem_append_right _ (mem_singleton_self _)
  | some bucket =>
    rw [hBucket, Option.elim_some] at hPlace
    refine ⟨group g (some bucket), ?_, (mem_group_iff hg).2 ⟨hName, hBucket⟩⟩
    have hKnown : bucket ∈ g.buckets := mem_of_find?_eq_some hBucket
    have hLess : g.buckets.idxOf bucket < g.buckets.length := idxOf_lt_length_iff.2 hKnown
    refine mem_take_iff_getElem.2 ⟨g.buckets.idxOf bucket, ?_, ?_⟩
    · simp only [groups, length_append, length_map, length_singleton, hPlace]
      omega
    · simp [groups, getElem_append_left, hLess]

/-- The progress after the first groups. -/
def finishedFirst (g : Graph) (count : Nat) : Progress :=
  ((groups g).take count).foldl (runGroup g) {}

theorem workedAll_finishedFirst (hg : g.Indexed) (count : Nat) :
    WorkedAll g {} ((groups g).take count) (finishedFirst g count) ∧
      WorkedAll g (finishedFirst g count) ((groups g).drop count) (finished g) ∧
      ∀ x, (∃ files ∈ (groups g).take count, x ∈ files) → x ∈ (finishedFirst g count).placed := by
  have hKnown : ∀ files ∈ groups g, ∀ x ∈ files, x ∈ g.files.keys := fun _ hFiles _ =>
    mem_keys_of_mem_groups hg hFiles
  obtain ⟨hFirst, hOrderly, hAll⟩ := workedAll_foldl hg (orderly_start g)
    fun files hFiles => hKnown files (mem_of_mem_take hFiles)
  obtain ⟨hRest, -, -⟩ := workedAll_foldl hg hOrderly
    fun files hFiles => hKnown files (mem_of_mem_drop hFiles)
  rw [← foldl_append, take_append_drop] at hRest
  exact ⟨hFirst, hRest, fun x hx => hAll x (Or.inr hx)⟩

/-- What stands before a file that is placed in the first part of an order is placed there. -/
theorem Precedes.mem_of_mem_front {first second : String} {front order : List String}
    (h : Precedes order first second) (hOrder : order.Nodup) (hFront : front <+: order)
    (hSecond : second ∈ front) : first ∈ front := by
  obtain ⟨back, rfl⟩ := hFront
  obtain ⟨left, right, rfl⟩ := append_of_mem hSecond
  rw [append_assoc, cons_append] at h hOrder
  exact mem_append_left _ (h.mem_front hOrder)

/-- **Only need overtakes a group.**  Whatever files are inserted, if a file stands before one
of an earlier group, then some file, of that group or one before it, leads to it along one or
more dependencies. -/
theorem overtaken_by_need (buckets : List String) (files : List (String × Effects))
    (x y : String) :
    let g := Graph.ofFiles buckets files
    Precedes (ofGraph g).order x y → g.groupPlace y < g.groupPlace x →
      ∃ z ∈ g.files.keys, g.groupPlace z ≤ g.groupPlace y ∧ g.LeadsTo z x := by
  intro g hBefore hLater
  have hg : g.Indexed := Graph.indexed_ofFiles buckets files
  obtain ⟨hFirst, hRest, hPlaced⟩ := workedAll_finishedFirst hg (g.groupPlace y + 1)
  have hy : y ∈ (finishedFirst g (g.groupPlace y + 1)).placed :=
    hPlaced y (exists_group_take hg ((mem_order_iff hg).1 hBefore.mem_right))
  have hx : x ∈ (finishedFirst g (g.groupPlace y + 1)).placed :=
    hBefore.mem_of_mem_front (nodup_order hg) hRest.prefix_placed hy
  have hNeeded : Needed g (fun z => z ∈ g.files.keys ∧ g.groupPlace z ≤ g.groupPlace y) x := by
    refine hFirst.needed hg (fun _ hNone => by cases hNone) ?_ x hx
    intro group hGroup name hName
    exact ⟨mem_keys_of_mem_groups hg (mem_of_mem_take hGroup) hName,
      Nat.le_of_lt_succ (groupPlace_lt hg hGroup hName)⟩
  obtain ⟨z, hz, hPath⟩ := hNeeded
  refine ⟨z, hz.1, hz.2, ?_⟩
  -- The overtaking file is in none of these groups, so the path to it has an edge.
  rcases Relation.reflTransGen_iff_eq_or_transGen.1 hPath with hSame | hLeads
  · rw [hSame] at hLater
    omega
  · exact hLeads

set_option maxRecDepth 10000 in
/-- A file outside every bucket stands before one of the first bucket, because another file of
that bucket leads to it through the second bucket and into a cycle. -/
theorem overtaken_through_cycle :
    let files : List (String × Effects) :=
      [("first/idle", {}), ("first/user", { requires := .ofList ["second/step"] }),
        ("second/step", { requires := .ofList ["far"] }),
        ("else/far", { requires := .ofList ["step"] })]
    let g := Graph.ofFiles ["first", "second"] files
    (ofGraph g).order = ["else/far", "second/step", "first/user", "first/idle"] ∧
      g.groupPlace "first/idle" = 0 ∧ g.groupPlace "else/far" = 2 ∧
      ∃ z ∈ g.files.keys, g.groupPlace z ≤ g.groupPlace "first/idle" ∧
        g.LeadsTo z "else/far" := by
  intro files g
  have hOrder : (ofGraph g).order = ["else/far", "second/step", "first/user", "first/idle"] := by
    decide +kernel
  have hIdle : g.groupPlace "first/idle" = 0 := by decide +kernel
  have hFar : g.groupPlace "else/far" = 2 := by decide +kernel
  refine ⟨hOrder, hIdle, hFar, overtaken_by_need _ files _ _ ?_ ?_⟩
  · rw [hOrder]
    decide
  · rw [hIdle, hFar]
    decide

end Schedule

end LuaShape
