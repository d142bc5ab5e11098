import LuaShape.Inference.Usage

/-!
# Constraints from uses

The uses of a name are collected over all its occurrences, those of any other term by
themselves.  What is left under a key are the types that every use recorded there allows, so
neither the order of the uses nor their repetition matters.

A constraint only ever drops types, and never the last one: where it would, or where it is
contradictory, it says nothing.
-/

namespace LuaShape.Inference

open List

/-- A use of a term that allows only certain types. -/
structure Use where
  term : TermId
  allowed : List TypeTag

/-- Record uses one after another. -/
def addUses (s : Inference) (uses : List Use) : Inference :=
  uses.foldl (fun s use => s.addUsage use.term use.allowed) s

/-- The uses that are recorded under a key. -/
def usesUnder (s : Inference) (key : UsageKey) (uses : List Use) : List Use :=
  uses.filter fun use => s.usageKey use.term = key

variable {s : Inference} {key : UsageKey} {constraint types : TypeSet} {tag : TypeTag}

/-! ## Keys -/

theorem usageKey_reference {id : TermId} {ident : Ident} (h : s.term id = .reference ident) :
    s.usageKey id = .ident ident := by
  simp [usageKey, h]

/-- Only references to the same name share a key. -/
theorem usageKey_eq_iff {id id' : TermId} : s.usageKey id = s.usageKey id' ↔
    id = id' ∨ ∃ ident, s.term id = .reference ident ∧ s.term id' = .reference ident := by
  constructor
  · intro h
    unfold usageKey at h
    cases hTerm : s.term id <;> cases hTerm' : s.term id' <;> simp only [hTerm, hTerm'] at h <;>
      cases h
    case reference.reference.refl ident => exact .inr ⟨ident, rfl, rfl⟩
    all_goals exact .inl rfl
  · rintro (rfl | ⟨ident, h, h'⟩)
    · rfl
    · rw [usageKey_reference h, usageKey_reference h']

/-! ## Recording uses -/

theorem usage?_addUsage (id : TermId) (allowed : List TypeTag) :
    (s.addUsage id allowed).usage? key =
      if s.usageKey id = key then
        some (((s.usage? key).getD TypeSet.usageDomain).filter fun tag => allowed.contains tag)
      else s.usage? key := by
  unfold usage? addUsage
  rw [OrderedMap.find?_upsert]
  grind

/-- A set of types is what some uses leave of another. -/
def Leaves (before : TypeSet) (uses : List Use) (after : TypeSet) : Prop :=
  ∀ tag, tag ∈ after ↔ tag ∈ before ∧ ∀ use ∈ uses, tag ∈ use.allowed

/-- What is left under a key: the types that were left before, less those that a use rules
out. -/
theorem usage?_addUses (uses : List Use) : s.usesUnder key uses = [] ∧
      (s.addUses uses).usage? key = s.usage? key ∨
    s.usesUnder key uses ≠ [] ∧ ∃ left, (s.addUses uses).usage? key = some left ∧
      Leaves ((s.usage? key).getD TypeSet.usageDomain) (s.usesUnder key uses) left := by
  induction uses generalizing s with
  | nil => exact .inl ⟨rfl, rfl⟩
  | cons use rest ih =>
    have hRest := @ih (s.addUsage use.term use.allowed)
    rw [show (s.addUsage use.term use.allowed).usesUnder key rest = s.usesUnder key rest from rfl,
      usage?_addUsage] at hRest
    by_cases hKey : s.usageKey use.term = key
    · have hUnder : s.usesUnder key (use :: rest) = use :: s.usesUnder key rest := by
        simp [usesUnder, hKey]
      refine .inr ⟨by simp [hUnder], ?_⟩
      rw [if_pos hKey] at hRest
      rcases hRest with ⟨hNone, hFound⟩ | ⟨-, left, hFound, hLeaves⟩
      · exact ⟨_, hFound, fun tag => by simp [hUnder, hNone]⟩
      · exact ⟨left, hFound, fun tag => by simp [hUnder, hLeaves tag, and_assoc]⟩
    · have hUnder : s.usesUnder key (use :: rest) = s.usesUnder key rest := by
        simp [usesUnder, hKey]
      rw [if_neg hKey] at hRest
      rwa [hUnder]

/-- The same uses under a key leave the same there, whatever else is recorded, in any order
and any number. -/
theorem usage?_addUses_congr {uses uses' : List Use}
    (h : ∀ use, use ∈ s.usesUnder key uses ↔ use ∈ s.usesUnder key uses') :
    (s.addUses uses).usage? key = (s.addUses uses').usage? key := by
  have hNil : s.usesUnder key uses = [] ↔ s.usesUnder key uses' = [] := by
    simp only [eq_nil_iff_forall_not_mem, h]
  rcases s.usage?_addUses uses with ⟨hNone, hFound⟩ | ⟨hSome, left, hFound, hLeaves⟩ <;>
    rcases s.usage?_addUses uses' with ⟨hNone', hFound'⟩ | ⟨hSome', left', hFound', hLeaves'⟩
  · rw [hFound, hFound']
  · exact absurd (hNil.1 hNone) hSome'
  · exact absurd (hNil.2 hNone') hSome
  · rw [hFound, hFound']
    exact congrArg some (SortedSet.ext_mem fun tag => by rw [hLeaves, hLeaves']; simp only [h])

/-! ## Narrowing -/

/-- A constraint says something about a set of types: it allows some type, and one that the
set names. -/
def Informs (constraint types : TypeSet) : Prop :=
  ∃ tag ∈ types, tag ≠ .instanceMark ∧ tag.basic ∈ constraint

theorem narrowBy_of_informs (h : Informs constraint types) :
    narrowBy constraint types = allowedPart constraint types := by
  obtain ⟨tag, hMem, hTag, hBasic⟩ := h
  refine if_neg ?_
  have hPart : tag ∈ (allowedPart constraint types).withoutMark :=
    SortedSet.mem_erase.2 ⟨mem_allowedPart.2 ⟨hMem, .inr hBasic⟩, hTag⟩
  simpa [SortedSet.isEmpty] using ⟨ne_nil_of_mem hBasic, ne_nil_of_mem hPart⟩

theorem narrowBy_of_not_informs (h : ¬Informs constraint types) :
    narrowBy constraint types = types := by
  refine if_pos ?_
  rw [Bool.or_eq_true]
  refine .inr (List.isEmpty_iff.2 (eq_nil_iff_forall_not_mem.2 fun tag hMem => h ?_))
  obtain ⟨hMem, hTag⟩ := SortedSet.mem_erase.1 hMem
  obtain ⟨hMem, hAllowed⟩ := mem_allowedPart.1 hMem
  exact ⟨tag, hMem, hTag, hAllowed.resolve_left hTag⟩

theorem mem_of_mem_narrowBy (h : tag ∈ narrowBy constraint types) : tag ∈ types := by
  by_cases hInforms : Informs constraint types
  · rw [narrowBy_of_informs hInforms] at h
    exact (mem_allowedPart.1 h).1
  · rwa [narrowBy_of_not_informs hInforms] at h

theorem informs_narrowBy (h : Informs constraint types) :
    Informs constraint (narrowBy constraint types) := by
  obtain ⟨tag, hMem, hTag, hBasic⟩ := h
  rw [narrowBy_of_informs ⟨tag, hMem, hTag, hBasic⟩]
  exact ⟨tag, mem_allowedPart.2 ⟨hMem, .inr hBasic⟩, hTag, hBasic⟩

theorem narrowBy_narrowBy : narrowBy constraint (narrowBy constraint types) =
    narrowBy constraint types := by
  by_cases hInforms : Informs constraint types
  · rw [narrowBy_of_informs (informs_narrowBy hInforms), narrowBy_of_informs hInforms]
    exact SortedSet.ext_mem fun tag => by simp only [mem_allowedPart]; grind
  · rw [narrowBy_of_not_informs hInforms, narrowBy_of_not_informs hInforms]

theorem not_mem_of_narrowBy (h : ∀ tag, tag ∉ narrowBy constraint types) (tag : TypeTag) :
    tag ∉ types := by
  by_cases hInforms : Informs constraint types
  · obtain ⟨_, hMem, -⟩ := informs_narrowBy hInforms
    exact absurd hMem (h _)
  · exact narrowBy_of_not_informs hInforms ▸ h tag

/-- What uses leave under a key depends only on which uses are recorded there, and narrowing
by it drops types but never all of them. -/
theorem constraints_order_free_and_floored (s : Inference) :
    (∀ id id', s.usageKey id = s.usageKey id' ↔
      id = id' ∨ ∃ ident, s.term id = .reference ident ∧ s.term id' = .reference ident) ∧
    (∀ uses key,
      (s.usesUnder key uses = [] → (s.addUses uses).usage? key = s.usage? key) ∧
      (s.usesUnder key uses ≠ [] → ∃ left, (s.addUses uses).usage? key = some left ∧
        Leaves ((s.usage? key).getD TypeSet.usageDomain) (s.usesUnder key uses) left) ∧
      ∀ uses', (∀ use, use ∈ s.usesUnder key uses ↔ use ∈ s.usesUnder key uses') →
        (s.addUses uses).usage? key = (s.addUses uses').usage? key) ∧
    ∀ id types,
      (∀ tag ∈ s.narrow id types, tag ∈ types) ∧
      ((∀ tag, tag ∉ s.narrow id types) → ∀ tag, tag ∉ types) ∧
      s.narrow id (s.narrow id types) = s.narrow id types ∧
      (s.usage? (s.usageKey id) = none → s.narrow id types = types) ∧
      ∀ constraint, s.usage? (s.usageKey id) = some constraint →
        (¬Informs constraint types → s.narrow id types = types) ∧
        (Informs constraint types → ∀ tag, tag ∈ s.narrow id types ↔
          tag ∈ types ∧ (tag = .instanceMark ∨ tag.basic ∈ constraint)) := by
  refine ⟨fun _ _ => usageKey_eq_iff, fun uses key => ⟨fun hNone => ?_, fun hSome => ?_,
    fun _ => usage?_addUses_congr⟩, fun id types => ?_⟩
  · exact (s.usage?_addUses uses).elim And.right fun h => absurd hNone h.1
  · exact (s.usage?_addUses uses).elim (fun h => absurd h.1 hSome) And.right
  · unfold narrow narrowUnder
    cases hUsage : s.usage? (s.usageKey id) with
    | none => exact ⟨fun _ h => h, fun h => h, rfl, fun _ => rfl, fun _ h => by cases h⟩
    | some constraint =>
        refine ⟨fun _ => mem_of_mem_narrowBy, not_mem_of_narrowBy, narrowBy_narrowBy,
          fun h => (by cases h), ?_⟩
        rintro _ ⟨⟩
        refine ⟨narrowBy_of_not_informs, fun hInforms tag => ?_⟩
        show tag ∈ narrowBy constraint types ↔ _
        rw [narrowBy_of_informs hInforms, mem_allowedPart]

end LuaShape.Inference
