import Mathlib.Data.Finset.Card
import Mathlib.Data.Nat.Find
import Mathlib.Logic.Relation
import LuaShape.Proofs.Inference.Reached
import LuaShape.Proofs.Project.Chunks

/-!
# Inherited fields

The summary of a class leaves out the fields that an ancestor has with the same types.
Its ancestors are found by name: the name of the base of a class leads to the first class
of that name, whose base is asked next.  The search stops after as many steps as there
are tables, which is enough to meet every class that names lead to.  Two classes may have
one name, and then the search leaves the base links.

Main result: `fields_left_out_by_named_ancestors`.
-/

namespace LuaShape

open List

/-! ## Following a partial function -/

namespace Walk

variable {α : Type} (next : α → Option α)

/-- What at most `limit` steps lead to, nearest first. -/
def within : (limit : Nat) → α → List α
  | 0, _ => []
  | limit + 1, x =>
    match next x with
    | none => []
    | some y => y :: within limit y

/-- One or more steps lead from one value to another. -/
def Leads : α → α → Prop := Relation.TransGen fun x y => next x = some y

/-- The value behind a number of steps. -/
def after (steps : Nat) (x : α) : Option α := (fun place => place.bind next)^[steps] (some x)

variable {next} {x y : α}

theorem after_succ (steps : Nat) : after next (steps + 1) x = (after next steps x).bind next :=
  Function.iterate_succ_apply' _ _ _

/-- Walks that meet stay together. -/
theorem after_add_congr {m n : Nat} (h : after next m x = after next n x) (steps : Nat) :
    after next (m + steps) x = after next (n + steps) x := by
  induction steps with
  | zero => exact h
  | succ steps ih => rw [← Nat.add_assoc, after_succ, ih, ← after_succ, Nat.add_assoc]

theorem after_isSome {m n : Nat} (hmn : m ≤ n) (h : (after next n x).isSome) :
    (after next m x).isSome := by
  induction n, hmn using Nat.le_induction with
  | base => exact h
  | succ n _ ih =>
    refine ih ?_
    rw [after_succ] at h
    exact Option.isSome_of_isSome_bind h

theorem after_succ_of_some {z : α} (h : next x = some z) (steps : Nat) :
    after next (steps + 1) x = after next steps z := by
  rw [after, Function.iterate_succ_apply, Option.bind_some, h, after]

theorem after_succ_of_none (h : next x = none) (steps : Nat) :
    after next (steps + 1) x = none := by
  rw [after, Function.iterate_succ_apply, Option.bind_some, h]
  exact Function.iterate_fixed rfl steps

theorem mem_within {limit : Nat} :
    y ∈ within next limit x ↔ ∃ k, k < limit ∧ after next (k + 1) x = some y := by
  induction limit generalizing x with
  | zero => simp [within]
  | succ limit ih =>
    cases hNext : next x with
    | none => simp [within, hNext, after_succ_of_none hNext]
    | some z =>
      simp only [within, hNext, mem_cons, ih, after_succ_of_some hNext]
      constructor
      · rintro (rfl | ⟨k, hk, hy⟩)
        · exact ⟨0, Nat.succ_pos limit, rfl⟩
        · exact ⟨k + 1, Nat.succ_lt_succ hk, hy⟩
      · rintro ⟨k, hk, hy⟩
        cases k with
        | zero => exact .inl (Option.some.inj hy).symm
        | succ k => exact .inr ⟨k, Nat.lt_of_succ_lt_succ hk, hy⟩

theorem leads_iff_after : Leads next x y ↔ ∃ k, after next (k + 1) x = some y := by
  constructor
  · intro h
    induction h with
    | single h => exact ⟨0, h⟩
    | tail _ hStep ih =>
      obtain ⟨k, hk⟩ := ih
      exact ⟨k + 1, by rw [after_succ, hk]; exact hStep⟩
  · rintro ⟨k, hk⟩
    induction k generalizing y with
    | zero => exact .single hk
    | succ k ih =>
      rw [after_succ] at hk
      obtain ⟨z, hz, hStep⟩ := Option.bind_eq_some_iff.1 hk
      exact .tail (ih hz) hStep

/-- On a way of least length to a place, no place is met twice; its first `d` steps do not count. -/
theorem length_lt_of_least {k d : Nat} {places : List α} [DecidableEq α]
    (hPlaces : ∀ i z, i ≤ k → after next (i + d) x = some z → z ∈ places)
    (hy : after next (k + d) x = some y)
    (hLeast : ∀ m, m < k → after next (m + d) x ≠ some y) : k < places.length := by
  have hMem : ∀ i ∈ Finset.range (k + 1), after next (i + d) x ∈ (places.map some).toFinset := by
    intro i hi
    have hLe : i ≤ k := Nat.le_of_lt_succ (Finset.mem_range.1 hi)
    have hSome : (after next (i + d) x).isSome :=
      after_isSome (Nat.add_le_add_right hLe d) (hy ▸ rfl)
    obtain ⟨z, hz⟩ := Option.isSome_iff_exists.1 hSome
    rw [hz, mem_toFinset]
    exact mem_map_of_mem (hPlaces i z hLe hz)
  -- If two places were the same, leaving out the way between them would be shorter.
  have hDistinct : ∀ i j, i < j → j ≤ k → after next (i + d) x ≠ after next (j + d) x := by
    intro i j hij hjk hSame
    refine hLeast (i + (k - j)) (by omega) ?_
    have hShort := after_add_congr hSame (k - j)
    rwa [show i + d + (k - j) = i + (k - j) + d by omega,
      show j + d + (k - j) = k + d by omega, hy] at hShort
  have hCard := Finset.card_le_card_of_injOn (fun i => after next (i + d) x) hMem
    fun i hi j hj hSame => ?_
  · rw [Finset.card_range] at hCard
    exact Nat.lt_of_lt_of_le hCard (by simpa using toFinset_card_le (places.map some))
  · rw [Finset.mem_coe, Finset.mem_range] at hi hj
    rcases Nat.lt_trichotomy i j with h | h | h
    · exact absurd hSame (hDistinct i j h (Nat.le_of_lt_succ hj))
    · exact h
    · exact absurd hSame.symm (hDistinct j i h (Nat.le_of_lt_succ hi))

/-- As many steps as there are places meet all that steps lead to. -/
theorem mem_within_iff_leads {places : List α} [DecidableEq α]
    (hPlaces : ∀ x y, next x = some y → y ∈ places) :
    y ∈ within next places.length x ↔ Leads next x y := by
  rw [mem_within, leads_iff_after]
  constructor
  · rintro ⟨k, -, hk⟩
    exact ⟨k, hk⟩
  · intro h
    classical
    refine ⟨Nat.find h, length_lt_of_least (fun i z _ hz => ?_) (Nat.find_spec h)
      fun m hm => Nat.find_min h hm, Nat.find_spec h⟩
    rw [after_succ] at hz
    obtain ⟨w, -, hStep⟩ := Option.bind_eq_some_iff.1 hz
    exact hPlaces w z hStep

end Walk

/-! ## What a class leaves out -/

namespace ClassMembers

variable {f : FieldSummary}

theorem mem_fields_without {c ancestor : ClassMembers} :
    f ∈ (c.without ancestor).fields ↔ f ∈ c.fields ∧ ancestor.declares f = false := by
  simp only [fields, without, mem_append, mem_filter, Bool.not_eq_true', or_and_right]

theorem mem_fields_foldl_without (ancestors : List TableRecord)
    (members : TableRecord → ClassMembers) (c : ClassMembers) :
    f ∈ (ancestors.foldl (fun c t => c.without (members t)) c).fields ↔
      f ∈ c.fields ∧ ∀ t ∈ ancestors, (members t).declares f = false := by
  induction ancestors generalizing c with
  | nil => simp
  | cons t rest ih =>
    rw [foldl_cons, ih, mem_fields_without, forall_mem_cons, and_assoc]

theorem declares_iff {c : ClassMembers} :
    c.declares f = true ↔
      ∃ g ∈ c.fields, g.name = f.name ∧ g.value.types = f.value.types := by
  simp [declares]

end ClassMembers

namespace Inference

variable (s : Inference)

/-- The table that a table asks for keys it lacks. -/
def base? (x : TableId) : Option TableId := (s.table? x).bind TableRecord.base

/-- The class that the name of the base of a table leads to. -/
def namedBase? (x : TableId) : Option TableId :=
  ((s.base? x).bind fun base => s.classNamed? (s.tableName base)).map TableRecord.id

variable {s}
variable {t : TableRecord} {x y : TableId}

theorem Sound.table?_of_classNamed? (hs : Sound s) {name : String}
    (h : s.classNamed? name = some t) : s.table? t.id = some t := by
  have hMem : t ∈ s.tables.values := mem_of_find?_eq_some h
  obtain ⟨⟨x, t'⟩, hEntry, rfl⟩ := mem_map.1 hMem
  have hTable : s.table? x = some t' := OrderedMap.find?_eq_some_iff.2 hEntry
  rwa [← hs.id_eq x t' hTable] at hTable

theorem Sound.namedBase?_mem (hs : Sound s) (h : s.namedBase? x = some y) : y ∈ s.tables.keys := by
  obtain ⟨t, hNamed, rfl⟩ := Option.map_eq_some_iff.1 h
  obtain ⟨base, -, hClass⟩ := Option.bind_eq_some_iff.1 hNamed
  exact OrderedMap.mem_keys_iff.2 ⟨t, hs.table?_of_classNamed? hClass⟩

/-- The search for ancestors follows the names of bases. -/
theorem Sound.ancestorsWithin_eq (hs : Sound s) (limit : Nat) {x : TableId}
    (hTable : s.table? x = some t) :
    s.ancestorsWithin limit (t.base.map s.tableName) = Walk.within s.namedBase? limit x := by
  induction limit generalizing x t with
  | zero => cases t.base <;> rfl
  | succ limit ih =>
    have hNext : s.namedBase? x =
        (t.base.bind fun base => s.classNamed? (s.tableName base)).map TableRecord.id := by
      rw [namedBase?, base?, hTable, Option.bind_some]
    rw [Walk.within, hNext]
    cases t.base with
    | none => rfl
    | some base =>
      simp only [Option.map_some, Option.bind_some, ancestorsWithin]
      cases hClass : s.classNamed? (s.tableName base) with
      | none => rfl
      | some ancestor => exact congrArg _ (ih (hs.table?_of_classNamed? hClass))

/-- The ancestors of a class are all that the names of bases lead to. -/
theorem Sound.mem_ancestors (hs : Sound s) (hTable : s.table? x = some t) :
    y ∈ s.ancestors (t.base.map s.tableName) ↔ Walk.Leads s.namedBase? x y := by
  have hSize : s.tables.size = s.tables.keys.length := (length_map _).symm
  rw [ancestors, mem_eraseDups, hs.ancestorsWithin_eq _ hTable, hSize,
    Walk.mem_within_iff_leads fun _ _ => hs.namedBase?_mem]

theorem Sound.mem_ownMembers (hs : Sound s) {x : TableId} (hTable : s.table? x = some t)
    {f : FieldSummary} :
    f ∈ (s.ownMembers t (t.base.map s.tableName)).fields ↔
      f ∈ (s.classMembers t).fields ∧ ∀ y a, Walk.Leads s.namedBase? x y → s.table? y = some a →
        (s.classMembers a).declares f = false := by
  rw [ownMembers, ClassMembers.mem_fields_foldl_without]
  refine and_congr_right fun _ => ⟨fun h y a hLeads hAncestor => ?_, fun h a hMem => ?_⟩
  · exact h a (mem_filterMap.2 ⟨y, (hs.mem_ancestors hTable).2 hLeads, hAncestor⟩)
  · obtain ⟨y, hy, hAncestor⟩ := mem_filterMap.1 hMem
    exact h y a ((hs.mem_ancestors hTable).1 hy) hAncestor

/-- If the names of the bases of a table lead to bases only, all its ancestors are bases. -/
theorem leads_base_of_leads_namedBase
    (hNames : ∀ base t, Walk.Leads s.base? x base → s.classNamed? (s.tableName base) = some t →
      Walk.Leads s.base? x t.id) (h : Walk.Leads s.namedBase? x y) : Walk.Leads s.base? x y := by
  have hStep : ∀ w z, Relation.ReflTransGen (fun a b => s.base? a = some b) x w →
      s.namedBase? w = some z → Walk.Leads s.base? x z := by
    intro w z hw hz
    obtain ⟨t, hNamed, rfl⟩ := Option.map_eq_some_iff.1 hz
    obtain ⟨base, hBase, hClass⟩ := Option.bind_eq_some_iff.1 hNamed
    exact hNames base t (Relation.TransGen.tail' hw hBase) hClass
  induction h with
  | single hz => exact hStep x _ .refl hz
  | tail _ hz ih => exact hStep _ _ ih.to_reflTransGen hz

/-- A listed class is the summary of its table. -/
theorem Sound.exists_classSummary (hs : Sound s) {index : Nat} {c : ClassSummary}
    (h : c ∈ s.moduleClasses index) :
    ∃ t info, s.table? c.table = some t ∧ c = s.classSummary t info := by
  obtain ⟨t, hMem, hSome⟩ := mem_filterMap.1 h
  obtain ⟨⟨x, t'⟩, hEntry, rfl⟩ := mem_map.1 hMem
  have hTable : s.table? x = some t' := OrderedMap.find?_eq_some_iff.2 hEntry
  rw [← hs.id_eq x t' hTable] at hTable
  split at hSome
  · split at hSome
    · cases hSome
      exact ⟨t', _, hTable, rfl⟩
    · cases hSome
  · cases hSome

/-- **Inherited fields.**  In every context that reading leads to, a listed class has
exactly the fields of its table that no ancestor declares with the same types, the
ancestors being the classes that the names of bases lead to.  If the names of bases lead
to bases only, a field is left out only if a base declares it. -/
theorem fields_left_out_by_named_ancestors {buckets : List String} (h : Reached buckets s)
    {index : Nat} {c : ClassSummary} (hClass : c ∈ s.moduleClasses index) {t : TableRecord}
    (hTable : s.table? c.table = some t) (f : FieldSummary) :
    (f ∈ c.members.fields ↔
      f ∈ (s.classMembers t).fields ∧
        ∀ y a, Walk.Leads s.namedBase? c.table y → s.table? y = some a →
          (s.classMembers a).declares f = false) ∧
    ((∀ base t', Walk.Leads s.base? c.table base → s.classNamed? (s.tableName base) = some t' →
        Walk.Leads s.base? c.table t'.id) →
      f ∈ (s.classMembers t).fields → f ∉ c.members.fields →
      ∃ y a, Walk.Leads s.base? c.table y ∧ s.table? y = some a ∧
        ∃ g ∈ (s.classMembers a).fields,
          g.name = f.name ∧ g.value.types = f.value.types) := by
  obtain ⟨t', info, hTable', rfl⟩ := h.sound.exists_classSummary hClass
  cases hTable.symm.trans hTable'
  have hKept := h.sound.mem_ownMembers hTable (f := f)
  refine ⟨hKept, fun hNames hListed hMissing => ?_⟩
  have hDeclared := mt hKept.2 hMissing
  simp only [hListed, true_and, not_forall, Bool.not_eq_false] at hDeclared
  obtain ⟨y, a, hLeads, hAncestor, hDeclares⟩ := hDeclared
  exact ⟨y, a, leads_base_of_leads_namedBase hNames hLeads, hAncestor,
    ClassMembers.declares_iff.1 hDeclares⟩

set_option maxRecDepth 100000 in
/-- A derived class does not list a number that its base has, too. -/
theorem number_of_base_left_out :
    let files : List SourceFile := [⟨"a",
      "Base = { x = 1 } function Base:derive(name) end
      Foo = Base:derive('Foo') Foo.x = 2 Foo.y = 'a'"⟩]
    let s := readChunks [] (files.filterMap SourceFile.chunk?)
    let f : FieldSummary := ⟨"x", ⟨some "2", .single .number⟩, false⟩
    ∃ c ∈ s.moduleClasses 0, c.table = ⟨5⟩ ∧ f ∉ c.members.fields ∧
      ∃ y a, Walk.Leads s.base? c.table y ∧ s.table? y = some a ∧
        ∃ g ∈ (s.classMembers a).fields, g.name = "x" ∧ g.value.types = .single .number := by
  intro files s f
  have hClass : ∃ c ∈ s.moduleClasses 0, c.table = ⟨5⟩ ∧ f ∉ c.members.fields := by
    decide +kernel
  have hRead : (s.table? ⟨5⟩).map (fun t => decide (f ∈ (s.classMembers t).fields)) = some true ∧
      s.base? ⟨5⟩ = some ⟨1⟩ ∧ s.base? ⟨1⟩ = none ∧
      (s.classNamed? (s.tableName ⟨1⟩)).map TableRecord.id = some ⟨1⟩ := by
    decide +kernel
  obtain ⟨c, hMem, hId, hMissing⟩ := hClass
  obtain ⟨hListed, hFoo, hBase, hName⟩ := hRead
  obtain ⟨t, hTable, hListed⟩ := Option.map_eq_some_iff.1 hListed
  have hBases : ∀ base, Walk.Leads s.base? ⟨5⟩ base → base = ⟨1⟩ := by
    intro base hLeads
    induction hLeads with
    | single h => exact Option.some.inj (h.symm.trans hFoo)
    | tail _ h ih => rw [ih, hBase] at h; cases h
  refine ⟨c, hMem, hId, hMissing, ?_⟩
  rw [← hId] at hTable hBases hFoo
  refine (fields_left_out_by_named_ancestors (reached_readChunks [] _) hMem hTable f).2
    (fun base t' hLeads hNamed => ?_) (of_decide_eq_true hListed) hMissing
  rw [hBases base hLeads] at hNamed
  rw [hNamed, Option.map_some, Option.some.injEq] at hName
  rw [hName]
  exact .single hFoo

set_option maxRecDepth 100000 in
/-- A class derived from one of the same name that nothing else was made of takes itself
for its ancestor, and lists no field at all. -/
theorem field_left_out_by_class_itself :
    let files : List SourceFile := [⟨"shared/a",
      "Base = {}\nfunction Base:derive(name) return {} end\nFoo = Base:derive(\"Foo\")\n" ++
      "Foo = Foo:derive(\"Foo\")\nFoo.x = 1"⟩]
    let s := readChunks [] (files.filterMap SourceFile.chunk?)
    let fieldsOf := fun x => (s.table? x).map fun t =>
      ((s.classMembers t).fields.map FieldSummary.name, s.base? x)
    fieldsOf ⟨7⟩ = some (["x"], some ⟨6⟩) ∧ fieldsOf ⟨6⟩ = some ([], some ⟨1⟩) ∧
      fieldsOf ⟨1⟩ = some ([], none) ∧
      (s.moduleClasses 0).map (fun c => (c.table, c.members.fields.map FieldSummary.name)) =
        [(⟨1⟩, []), (⟨7⟩, [])] := by
  decide +kernel

end Inference

end LuaShape
