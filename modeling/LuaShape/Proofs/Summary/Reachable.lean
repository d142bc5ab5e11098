import LuaShape.Summary.Module
import Mathlib.Logic.Relation

/-!
# Plain tables that a module lists

The tables that a module lists are found by a search: it starts from the tables that the names
and returns of the module lead to, follows the tables written in fields, and stays inside the
module.  Tables may be stored in each other, so the search keeps what it has found.

A step takes any table from the queue.  Each step makes less of what is queued or stored in
tables not yet found, so every search ends, and whatever the order of its steps it ends with the
tables that are `InReach`.
-/

namespace LuaShape

open List

theorem TypeSet.mem_tables {types : TypeSet} {x : TableId} :
    x ∈ types.tables ↔ .tableRef x ∈ types := by
  rw [TypeSet.tables, mem_filterMap]
  constructor
  · rintro ⟨tag, hTag, hEq⟩
    cases tag <;> cases hEq
    exact hTag
  · exact fun h => ⟨_, h, rfl⟩

namespace Inference

open Relation

variable {s : Inference} {index : Nat} {m : ModuleRecord} {seeds queue : List TableId}
  {found : SortedSet TableId} {x y : TableId} {t : TableRecord}

/-! ## Tables that lead to each other -/

/-- A table literal is among some definitions. -/
def Holds (s : Inference) (defs : List Definition) (x : TableId) : Prop :=
  ∃ d ∈ defs, s.terms.tableLiteral? d.value = some x

theorem mem_tableValues {defs : List Definition} : x ∈ s.tableValues defs ↔ s.Holds defs x :=
  mem_filterMap

/-- A table that a module leads to directly: the module makes it the value of one of its
globals, it is the value of a local outside every function, or a returned value may be it. -/
inductive IsSeed (s : Inference) (index : Nat) (m : ModuleRecord) (x : TableId) : Prop
  | global {name : String} {d : Definition} (hName : name ∈ m.globals)
      (hDefinition : d ∈ s.definitionsOf (.global name)) (hModule : d.module = index)
      (hValue : s.terms.tableLiteral? d.value = some x)
  | local {tree : ScopeTree} {scope : Scope} {k : ModuleScopeId} {binding : String × SymbolId}
      (hTree : m.scope = some tree) (hScope : scope ∈ tree.scopes) (hKey : scope.key = .module k)
      (hBinding : binding ∈ scope.bindings) (hValue : s.Holds (s.definitionsOf (.bound binding.2)) x)
  | returned {defs : List Definition} {d : Definition} (hSlot : defs ∈ m.returns) (hValue : d ∈ defs)
      (hTypes : .tableRef x ∈ s.resolve d.value)

/-- A table of a module that some tables lead to through tables of the module, each written in
a field of the one before. -/
inductive InReach (s : Inference) (index : Nat) (Seed : TableId → Prop) : TableId → Prop
  | seed {x : TableId} {t : TableRecord} (hSeed : Seed x) (hTable : s.table? x = some t)
      (hModule : t.module = index) : InReach s index Seed x
  | stored {x y : TableId} {t u : TableRecord} {key : String} {defs : List Definition}
      (h : InReach s index Seed x) (hTable : s.table? x = some t) (hField : (key, defs) ∈ t.fields.entries)
      (hValue : s.Holds defs y) (hInner : s.table? y = some u) (hModule : u.module = index) :
      InReach s index Seed y

theorem InReach.table {Seed : TableId → Prop} (h : s.InReach index Seed x) :
    ∃ t, s.table? x = some t ∧ t.module = index := by
  cases h with
  | seed _ hTable hModule => exact ⟨_, hTable, hModule⟩
  | stored _ _ _ _ hTable hModule => exact ⟨_, hTable, hModule⟩

theorem mem_nestedTables :
    y ∈ s.nestedTables t ↔ ∃ key defs, (key, defs) ∈ t.fields.entries ∧ s.Holds defs y := by
  simp only [nestedTables, mem_tableValues, Holds, OrderedMap.values, mem_flatten,
    mem_map]
  constructor
  · rintro ⟨d, ⟨defs, ⟨⟨key, _⟩, hField, rfl⟩, hd⟩, hValue⟩
    exact ⟨key, _, hField, d, hd, hValue⟩
  · rintro ⟨key, defs, hField, d, hd, hValue⟩
    exact ⟨d, ⟨defs, ⟨(key, defs), hField, rfl⟩, hd⟩, hValue⟩

theorem mem_moduleLocals {symbol : SymbolId} : symbol ∈ moduleLocals m ↔
    ∃ tree scope k binding, m.scope = some tree ∧ scope ∈ tree.scopes ∧ scope.key = .module k ∧
      binding ∈ scope.bindings ∧ binding.2 = symbol := by
  unfold moduleLocals
  cases hTree : m.scope with
  | none => simp
  | some tree =>
    simp only [mem_flatMap, Array.mem_toList_iff]
    constructor
    · rintro ⟨scope, hScope, hSymbol⟩
      split at hSymbol
      · rename_i k hKey
        obtain ⟨binding, hBinding, rfl⟩ := mem_map.1 hSymbol
        exact ⟨tree, scope, k, binding, rfl, hScope, hKey, hBinding, rfl⟩
      · cases hSymbol
    · rintro ⟨_, scope, k, binding, ⟨⟩, hScope, hKey, hBinding, rfl⟩
      exact ⟨scope, hScope, by simpa [hKey] using ⟨_, hBinding⟩⟩

theorem mem_tableSeeds : x ∈ s.tableSeeds index m ↔ s.IsSeed index m x := by
  simp only [tableSeeds, mem_append, mem_flatMap, mem_tableValues]
  constructor
  · rintro ((⟨name, hName, d, hd, hValue⟩ | ⟨symbol, hSymbol, hValue⟩) | ⟨d, hd, hTypes⟩)
    · obtain ⟨hDefinition, hModule⟩ := mem_filter.1 hd
      exact .global hName hDefinition (of_decide_eq_true hModule) hValue
    · obtain ⟨tree, scope, k, binding, hTree, hScope, hKey, hBinding, rfl⟩ :=
        mem_moduleLocals.1 hSymbol
      exact .local hTree hScope hKey hBinding hValue
    · obtain ⟨defs, hSlot, hd⟩ := mem_flatten.1 hd
      exact .returned hSlot hd (TypeSet.mem_tables.1 hTypes)
  · rintro (⟨hName, hDefinition, hModule, hValue⟩ | ⟨hTree, hScope, hKey, hBinding, hValue⟩ |
      ⟨hSlot, hd, hTypes⟩)
    · refine .inl (.inl ⟨_, hName, _, ?_, hValue⟩)
      exact mem_filter.2 ⟨hDefinition, decide_eq_true hModule⟩
    · exact .inl (.inr ⟨_, mem_moduleLocals.2 ⟨_, _, _, _, hTree, hScope, hKey, hBinding, rfl⟩, hValue⟩)
    · exact .inr ⟨_, mem_flatten.2 ⟨_, hSlot, hd⟩, TypeSet.mem_tables.2 hTypes⟩

/-! ## Steps of the search -/

/-- A queued table that the search has yet to find: one of the module. -/
def IsNew (s : Inference) (index : Nat) (found : SortedSet TableId) (x : TableId)
    (t : TableRecord) : Prop :=
  s.table? x = some t ∧ t.module = index ∧ x ∉ found

/-- A step of the search: a queued table is passed over, or found, and then the tables in its
fields are queued. -/
inductive Takes (s : Inference) (index : Nat) :
    SortedSet TableId × List TableId → SortedSet TableId × List TableId → Prop
  | pass {found : SortedSet TableId} {queue rest : List TableId} {x : TableId}
      (hQueue : queue.Perm (x :: rest)) (hOld : ∀ t, ¬s.IsNew index found x t) :
      Takes s index (found, queue) (found, rest)
  | find {found : SortedSet TableId} {queue rest next : List TableId} {x : TableId} {t : TableRecord}
      (hQueue : queue.Perm (x :: rest)) (hNew : s.IsNew index found x t)
      (hNext : next.Perm (s.nestedTables t ++ rest)) :
      Takes s index (found, queue) (found.insert x, next)

/-- How many tables are stored in tables that have not been found. -/
def pending (s : Inference) (found : SortedSet TableId) : List (TableId × TableRecord) → Nat
  | [] => 0
  | (id, t) :: rest =>
    (if found.contains id then 0 else (s.nestedTables t).length) + pending s found rest

theorem pending_insert_le (found : SortedSet TableId) (id : TableId)
    (entries : List (TableId × TableRecord)) :
    s.pending (found.insert id) entries ≤ s.pending found entries := by
  induction entries with
  | nil => exact Nat.le_refl _
  | cons entry rest ih =>
    refine Nat.add_le_add ?_ ih
    by_cases hFound : found.contains entry.1
    · have hStill : (found.insert id).contains entry.1 = true :=
        SortedSet.contains_iff_mem.2 (SortedSet.mem_insert.2
          (.inr (SortedSet.contains_iff_mem.1 hFound)))
      exact Nat.le_of_eq (by rw [if_pos hFound, if_pos hStill])
    · rw [if_neg hFound]
      split
      · exact Nat.zero_le _
      · exact Nat.le_refl _

/-- Finding a table takes what is stored in it from what is pending. -/
theorem pending_insert {id : TableId} {entries : List (TableId × TableRecord)}
    (hEntry : (id, t) ∈ entries) (hFound : found.contains id = false) :
    (s.nestedTables t).length + s.pending (found.insert id) entries ≤ s.pending found entries := by
  induction entries with
  | nil => cases hEntry
  | cons entry rest ih =>
    rcases mem_cons.1 hEntry with rfl | hEntry
    · have hNow : (found.insert id).contains id = true :=
        SortedSet.contains_iff_mem.2 (SortedSet.mem_insert.2 (.inl rfl))
      simp only [pending, hFound, hNow, if_true, Bool.false_eq_true, if_false, Nat.zero_add]
      exact Nat.add_le_add_left (pending_insert_le found id rest) _
    · have hHead := s.pending_insert_le found id [entry]
      simp only [pending, Nat.add_zero] at hHead ⊢
      have hRest := ih hEntry
      omega

theorem pending_empty (s : Inference) (entries : List (TableId × TableRecord)) :
    s.pending .empty entries = ((entries.map Prod.snd).flatMap s.nestedTables).length := by
  induction entries with
  | nil => rfl
  | cons entry rest ih =>
    rw [pending, ih, map_cons, flatMap_cons, length_append]
    rfl

/-- What is queued, or stored in tables not yet found. -/
def remaining (s : Inference) (search : SortedSet TableId × List TableId) : Nat :=
  search.2.length + s.pending search.1 s.tables.entries

variable {a b : SortedSet TableId × List TableId} {Seed : TableId → Prop}

theorem Takes.remaining_lt (h : s.Takes index a b) : s.remaining b < s.remaining a := by
  cases h with
  | pass hQueue _ =>
    have := hQueue.length_eq
    simp only [remaining, length_cons] at this ⊢
    omega
  | @find found queue rest next x t hQueue hNew hNext =>
    have hLength := hQueue.length_eq
    have hNextLength := hNext.length_eq
    have hContains : found.contains x = false := by
      simpa [SortedSet.contains] using hNew.2.2
    have hLess := s.pending_insert (OrderedMap.find?_eq_some_iff.1 hNew.1) hContains
    simp only [remaining, length_cons, length_append] at hLength hNextLength ⊢
    omega

theorem wellFounded_takes (s : Inference) (index : Nat) :
    WellFounded fun b a => s.Takes index a b :=
  Subrelation.wf Takes.remaining_lt (measure s.remaining).wf

/-! ## What a search finds -/

/-- A search from some seeds has found only tables in reach, and what is in reach has been found
or will be: it is queued, or behind a queued table. -/
structure Searches (s : Inference) (index : Nat) (Seed : TableId → Prop)
    (search : SortedSet TableId × List TableId) : Prop where
  found : ∀ x ∈ search.1, s.InReach index Seed x
  queued : ∀ x ∈ search.2, ∀ t, s.table? x = some t → t.module = index → s.InReach index Seed x
  seeds : ∀ x t, Seed x → s.table? x = some t → t.module = index → x ∈ search.1 ∨ x ∈ search.2
  stored : ∀ x ∈ search.1, ∀ t, s.table? x = some t → ∀ y ∈ s.nestedTables t, ∀ u,
    s.table? y = some u → u.module = index → y ∈ search.1 ∨ y ∈ search.2

theorem Searches.start (s : Inference) (index : Nat) (seeds : List TableId) :
    s.Searches index (· ∈ seeds) (.empty, seeds) where
  found _ h := absurd h (SortedSet.not_mem_empty _)
  queued _ h _ := .seed h
  seeds _ _ h _ _ := .inr h
  stored _ h := absurd h (SortedSet.not_mem_empty _)

theorem Searches.step (h : s.Searches index Seed a) (hStep : s.Takes index a b) :
    s.Searches index Seed b := by
  cases hStep with
  | @pass found queue rest x hQueue hOld =>
    -- A table that is passed over has been found before or is none of the module.
    have hKeep : ∀ y u, s.table? y = some u → u.module = index → y ∈ found ∨ y ∈ queue →
        y ∈ found ∨ y ∈ rest := by
      rintro y u hTable hModule (hy | hy)
      · exact .inl hy
      · rcases mem_cons.1 (hQueue.mem_iff.1 hy) with rfl | hy
        · exact .inl (Classical.not_not.1 fun hNew => hOld u ⟨hTable, hModule, hNew⟩)
        · exact .inr hy
    exact {
      found := h.found
      queued := fun y hy => h.queued y (hQueue.mem_iff.2 (.tail _ hy))
      seeds := fun y u hy hTable hModule => hKeep y u hTable hModule (h.seeds y u hy hTable hModule)
      stored := fun y hy t ht z hz u hTable hModule =>
        hKeep z u hTable hModule (h.stored y hy t ht z hz u hTable hModule) }
  | @find found queue rest next x t hQueue hNew hNext =>
    have hx : s.InReach index Seed x :=
      h.queued x (hQueue.mem_iff.2 (.head _)) t hNew.1 hNew.2.1
    have hKeep : ∀ y, y ∈ found ∨ y ∈ queue → y ∈ found.insert x ∨ y ∈ next := by
      rintro y (hy | hy)
      · exact .inl (SortedSet.mem_insert.2 (.inr hy))
      · rcases mem_cons.1 (hQueue.mem_iff.1 hy) with rfl | hy
        · exact .inl (SortedSet.mem_insert.2 (.inl rfl))
        · exact .inr (hNext.mem_iff.2 (mem_append_right _ hy))
    refine ⟨fun y hy => ?_, fun y hy u hTable hModule => ?_,
      fun y u hy hTable hModule => hKeep y (h.seeds y u hy hTable hModule),
      fun y hy u hu z hz v hTable hModule => ?_⟩
    · rcases SortedSet.mem_insert.1 hy with rfl | hy
      · exact hx
      · exact h.found y hy
    · rcases mem_append.1 (hNext.mem_iff.1 hy) with hy | hy
      · obtain ⟨key, defs, hField, hValue⟩ := mem_nestedTables.1 hy
        exact .stored hx hNew.1 hField hValue hTable hModule
      · exact h.queued y (hQueue.mem_iff.2 (.tail _ hy)) u hTable hModule
    · rcases SortedSet.mem_insert.1 hy with rfl | hy
      · cases hNew.1.symm.trans hu
        exact .inr (hNext.mem_iff.2 (mem_append_left _ hz))
      · exact hKeep z (h.stored y hy u hu z hz v hTable hModule)

theorem Searches.run (h : s.Searches index Seed a) (hRun : ReflTransGen (s.Takes index) a b) :
    s.Searches index Seed b := by
  induction hRun with
  | refl => exact h
  | tail _ hStep ih => exact ih.step hStep

/-- A search that has ended has found what is in reach. -/
theorem Searches.mem_iff (h : s.Searches index Seed (found, [])) :
    x ∈ found ↔ s.InReach index Seed x := by
  refine ⟨h.found x, fun hx => ?_⟩
  induction hx with
  | seed hSeed hTable hModule =>
    exact (h.seeds _ _ hSeed hTable hModule).resolve_right not_mem_nil
  | stored _ hTable hField hValue hInner hModule ih =>
    exact (h.stored _ ih _ hTable _ (mem_nestedTables.2 ⟨_, _, hField, hValue⟩) _ hInner
      hModule).resolve_right not_mem_nil

/-- With a limit above what remains, the search runs to its end. -/
theorem run_reach {limit : Nat} (hLimit : s.remaining (found, queue) ≤ limit) :
    ReflTransGen (s.Takes index) (found, queue) (s.reach index limit found queue, []) := by
  induction limit generalizing found queue with
  | zero =>
    cases queue with
    | nil => exact .refl
    | cons => simp [remaining] at hLimit
  | succ limit ih =>
    cases queue with
    | nil => exact .refl
    | cons x rest =>
      have hPass (hOld : ∀ t, ¬s.IsNew index found x t) :
          ReflTransGen (s.Takes index) (found, x :: rest) (s.reach index limit found rest, []) := by
        have hStep : s.Takes index (found, x :: rest) (found, rest) := .pass (.refl _) hOld
        exact .head hStep (ih (by have := hStep.remaining_lt; omega))
      rw [reach]
      split
      · rename_i hNone
        exact hPass fun t hNew => by simp [hNew.1] at hNone
      · rename_i t hTable
        split
        · rename_i hSkip
          refine hPass fun u hNew => ?_
          cases hTable.symm.trans hNew.1
          rw [Bool.or_eq_true, SortedSet.contains_iff_mem] at hSkip
          exact hSkip.elim (fun h => of_decide_eq_true h hNew.2.1) hNew.2.2
        · rename_i hFind
          rw [Bool.or_eq_true, SortedSet.contains_iff_mem, not_or] at hFind
          have hStep : s.Takes index (found, x :: rest)
              (found.insert x, s.nestedTables t ++ rest) :=
            .find (.refl _) ⟨hTable, by simpa using hFind.1, hFind.2⟩ (.refl _)
          exact .head hStep (ih (by have := hStep.remaining_lt; omega))

theorem run_reachable (s : Inference) (index : Nat) (seeds : List TableId) :
    ReflTransGen (s.Takes index) (.empty, seeds) (s.reachable index seeds, []) := by
  refine run_reach ?_
  rw [remaining, pending_empty]
  exact Nat.le_refl _

theorem mem_reachable : x ∈ s.reachable index seeds ↔ s.InReach index (· ∈ seeds) x :=
  ((Searches.start s index seeds).run (s.run_reachable index seeds)).mem_iff

theorem map_table?_filter (ids : List TableId) :
    (ids.filter fun x => (s.table? x).any isPlainTable).map s.table? =
      ((ids.filterMap s.table?).filter isPlainTable).map some := by
  induction ids with
  | nil => rfl
  | cons x rest ih =>
    cases hTable : s.table? x with
    | none => simp [hTable, ih]
    | some t => by_cases hPlain : isPlainTable t <;> simp [hTable, hPlain, ih]

theorem Takes.exists_of_queue (s : Inference) (index : Nat) (found : SortedSet TableId)
    (x : TableId) (rest : List TableId) : ∃ b, s.Takes index (found, x :: rest) b := by
  by_cases hNew : ∃ t, s.IsNew index found x t
  · obtain ⟨t, hNew⟩ := hNew
    exact ⟨_, .find (.refl _) hNew (.refl _)⟩
  · exact ⟨_, .pass (.refl _) fun t h => hNew ⟨t, h⟩⟩

/-- The search for the tables of a module goes on while any is queued and ends whatever the
order of its steps, always with the same tables.  Those in reach that are neither classes nor
instances and have not given way to a class are listed, each once and in ascending order. -/
theorem relevantTables_exactly_in_reach (s : Inference) (index : Nat) (m : ModuleRecord) :
    (WellFounded fun b a => s.Takes index a b) ∧
    (∀ queue search, queue.Perm (s.tableSeeds index m) →
      ReflTransGen (s.Takes index) (.empty, queue) search → (∀ b, ¬s.Takes index search b) →
        search = (s.reachable index (s.tableSeeds index m), [])) ∧
    ∃ ids : List TableId, ids.map s.table? = (s.relevantTables index m).map some ∧
      ids.Pairwise (fun x y => x.index < y.index) ∧
      ∀ x, x ∈ ids ↔ ∃ t, s.table? x = some t ∧ t.module = index ∧ t.isClass = false ∧
        t.instanceOf = none ∧ t.isSuperseded = false ∧ s.InReach index (s.IsSeed index m) x := by
  refine ⟨s.wellFounded_takes index, ?_, ?_⟩
  · rintro queue ⟨found, _ | ⟨x, rest⟩⟩ hSeeds hRun hEnd
    · refine congrArg (·, []) (SortedSet.ext_mem fun x => ?_)
      rw [((Searches.start s index queue).run hRun).mem_iff, mem_reachable]
      simp only [hSeeds.mem_iff]
    · obtain ⟨b, hStep⟩ := Takes.exists_of_queue s index found x rest
      exact absurd hStep (hEnd b)
  · refine ⟨(s.reachable index (s.tableSeeds index m)).toList.filter fun x =>
      (s.table? x).any isPlainTable, map_table?_filter _, ?_, fun x => ?_⟩
    · exact ((s.reachable index (s.tableSeeds index m)).ascending.filter _).imp
        fun {_ _} h => Nat.compare_eq_lt.1 h
    · rw [mem_filter, ← SortedSet.mem_def, mem_reachable,
        show (· ∈ s.tableSeeds index m) = s.IsSeed index m from funext fun _ => propext mem_tableSeeds]
      constructor
      · rintro ⟨hReach, hPlain⟩
        obtain ⟨t, hTable, hModule⟩ := hReach.table
        simp only [hTable, Option.any_some, isPlainTable, Bool.and_eq_true, Bool.not_eq_true',
          Option.isNone_iff_eq_none] at hPlain
        exact ⟨t, hTable, hModule, hPlain.1.1, hPlain.1.2, hPlain.2, hReach⟩
      · rintro ⟨t, hTable, -, hClass, hInstance, hSuperseded, hReach⟩
        exact ⟨hReach, by simp [hTable, isPlainTable, hClass, hInstance, hSuperseded]⟩

end Inference

end LuaShape
