import LuaShape.Proofs.Inference.Reached
import LuaShape.Proofs.Project.Chunks

/-!
# No value is counted twice

Each value is stored in one field.  From there it reaches another table only when its
table becomes an instance, and a table that is an instance or a class already is made an
instance of another one only by a function that builds a class.  Hence all definitions of
a key have different values, but for those that a class built by a function shares with
another table, from which it may have got them twice, and for literals of UI classes.

Main result: `definitions_have_distinct_values`.
-/

namespace LuaShape

open List

theorem TableRecord.isSettled_of_isClosure {t : TableRecord} (h : t.isClosure = true) :
    t.isSettled = true := by
  cases hInfo : t.classInfo with
  | none => simp [TableRecord.isClosure, hInfo] at h
  | some c => simp [TableRecord.isSettled, TableRecord.isClass, hInfo]

namespace Inference

/-- If a table is a class built by a function, no other table has the value under the key. -/
def HasAlone (s : Inference) (x : TableId) (key : String) (v : TermId) : Prop :=
  ∀ t, s.table? x = some t → t.isClosure = true → ∀ y, y ≠ x → v ∉ s.stored y key

/-- No value is twice under a key, but for values that classes built by functions share and for
literals of UI classes; and a table that shares a value with another one is a class or an
instance. -/
structure Counted (s : Inference) : Prop where
  once : ∀ x key v, s.HasAlone x key v → s.isUiLiteral v = false → (s.stored x key).count v ≤ 1
  apart : ∀ x y t key v, x ≠ y → s.table? x = some t → s.isUiLiteral v = false →
    v ∈ s.stored x key → v ∈ s.stored y key → t.isSettled = true

theorem counted_empty (buckets : List String) : Counted (empty buckets) where
  once _ _ _ _ _ := Nat.zero_le 1
  apart _ _ _ _ _ _ h := by cases h

theorem exists_table_of_stored {s : Inference} {x : TableId} {key : String} {v : TermId}
    (h : v ∈ s.stored x key) : ∃ t, s.table? x = some t := by
  cases hTable : s.table? x with
  | none => simp [stored, hTable] at h
  | some t => exact ⟨t, rfl⟩

section Change

variable {P : TermId → Prop} {s s' : Inference} {x : TableId} {t' : TableRecord} {v : TermId}

/-- A table with values behind a change is unknown or kept. -/
theorem Change.table_cases (h : Change P s s') (hTable : s'.table? x = some t') :
    (∃ t, s.table? x = some t ∧ t.Grows t') ∨ s.table? x = none ∨ ∀ key, s'.stored x key = [] := by
  rcases h.fate x with hFate | ⟨-, hBlank⟩
  · rw [hTable] at hFate
    cases hOld : s.table? x with
    | none => exact .inr (.inl rfl)
    | some t =>
      rw [hOld] at hFate
      obtain ⟨_, hEq, hGrows⟩ := hFate.exists_grows
      cases hEq
      exact .inl ⟨t, rfl, hGrows⟩
  · refine .inr (.inr fun key => ?_)
    rw [stored, hBlank]
    rfl

theorem Change.not_isUiLiteral (h : Change P s s') (hs : Sound s)
    (hv : s'.isUiLiteral v = false) : s.isUiLiteral v = false := by
  cases hOld : s.isUiLiteral v with
  | false => rfl
  | true =>
    rw [h.isUiLiteral hs hOld] at hv
    cases hv

/-- What is stored stays where it is. -/
theorem Change.mem_stored (h : Change P s s') (hs : Sound s) {y : TableId} {key : String}
    (hv : v ∈ s.stored y key) : v ∈ s'.stored y key := by
  cases h.storing with
  | kept hStored =>
    rcases hStored y key with hEq | ⟨hNew, -⟩
    · rwa [hEq]
    · obtain ⟨t, ht⟩ := exists_table_of_stored hv
      exact absurd (hs.grounded.table y t ht).known.2.lt (Nat.not_lt.2 hNew)
  | attached _ _ _ _ _ _ hStored =>
    rcases hStored y key with hEq | ⟨-, -, hEq⟩ <;> rw [hEq]
    · exact hv
    · exact mem_append_left _ hv
  | copied _ _ _ hStored =>
    rcases hStored y key with hEq | ⟨-, part, -, hEq⟩ <;> rw [hEq]
    · exact hv
    · exact mem_append_left _ hv

/-- A value that is alone behind a change was alone before it. -/
theorem HasAlone.before (h : Change P s s') (hs : Sound s) {key : String}
    (hAlone : s'.HasAlone x key v) : s.HasAlone x key v := by
  intro t ht hClosure y hy hMem
  obtain ⟨t', ht', hGrows⟩ := h.exists_grows (hs.grounded.table x t ht).known.2.lt ht
  exact hAlone t' ht' (hGrows.isClosure hClosure) y hy (h.mem_stored hs hMem)

variable {y : TableId} {key : String}

/-- Tables that shared a value are settled behind a change. -/
theorem Counted.apart_before (hc : Counted s) (hs : Sound s) (h : Change P s s') (hxy : x ≠ y)
    (hTable : s'.table? x = some t') (hv : s'.isUiLiteral v = false) (hNow : v ∈ s'.stored x key)
    (hx : v ∈ s.stored x key) (hy : v ∈ s.stored y key) : t'.isSettled = true := by
  rcases h.table_cases hTable with ⟨t, ht, hGrows⟩ | hNone | hEmpty
  · exact hGrows.isSettled (hc.apart x y t key v hxy ht (h.not_isUiLiteral hs hv) hx hy)
  · rw [stored, hNone] at hx
    cases hx
  · rw [hEmpty] at hNow
    cases hNow

/-- A value that is being stored was stored nowhere. -/
theorem Fresh.not_mem (hFresh : s.Fresh v) (hv : s.isUiLiteral v = false) : v ∉ s.stored y key := by
  intro hMem
  rw [hFresh ⟨y, key, hMem⟩] at hv
  cases hv

theorem Counted.once_change (hc : Counted s) (hs : Sound s) (h : Change P s s') (key : String)
    (hAlone : s'.HasAlone x key v) (hv : s'.isUiLiteral v = false) :
    (s'.stored x key).count v ≤ 1 := by
  obtain hNone | ⟨t', hTable⟩ := (s'.table? x).eq_none_or_eq_some
  · rw [stored, hNone]
    exact Nat.zero_le 1
  have hOldUi := h.not_isUiLiteral hs hv
  have hOld := hc.once x key v (hAlone.before h hs) hOldUi
  cases h.storing with
  | kept hStored =>
    rcases hStored x key with hEq | ⟨-, hEq⟩ <;> rw [hEq]
    · exact hOld
    · exact Nat.zero_le 1
  | attached id other value hFresh _ _ hStored =>
    rcases hStored x key with hEq | ⟨-, -, hEq⟩ <;> rw [hEq]
    · exact hOld
    · rw [count_append]
      by_cases hSame : v = value
      · subst hSame
        rw [count_eq_zero.2 (hFresh.not_mem hOldUi)]
        simp
      · rw [count_eq_zero.2 (fun hMem => hSame (mem_singleton.1 hMem))]
        exact hOld
  | copied id owner hOwner hStored _ _ hApart =>
    rcases hStored x key with hEq | ⟨hx, part, hPart, hEq⟩ <;> rw [hEq]
    · exact hOld
    · subst hx
      rw [count_append]
      by_cases hMem : v ∈ s.stored id key
      · obtain ⟨t, ht⟩ := exists_table_of_stored hMem
        have hUnsettled : t.isSettled = false := by
          rcases hApart with hApart | hApart
          · exact hApart t ht
          -- a class built by a function now shares the value with what it is copied from
          · have hNow : v ∈ s'.stored id key := h.mem_stored hs hMem
            exact absurd hNow (hAlone t' hTable (hApart t' hTable) id hOwner)
        -- Before it became an instance, the table shared no value with any other.
        have hOther : v ∉ s.stored x key := fun hx => by
          rw [hc.apart id x t key v hOwner ht hOldUi hMem hx] at hUnsettled
          cases hUnsettled
        have hOnce : (s.stored id key).count v ≤ 1 := by
          refine hc.once id key v (fun t' ht' hClosed => ?_) hOldUi
          rw [ht] at ht'
          cases ht'
          rw [TableRecord.isSettled_of_isClosure hClosed] at hUnsettled
          cases hUnsettled
        rw [count_eq_zero.2 hOther, Nat.zero_add]
        exact Nat.le_trans (hPart.count_le v) hOnce
      · rw [count_eq_zero.2 (fun hIn => hMem (hPart.subset hIn))]
        exact hOld

theorem Counted.apart_change (hc : Counted s) (hs : Sound s) (h : Change P s s') (hxy : x ≠ y)
    (hTable : s'.table? x = some t') (hv : s'.isUiLiteral v = false) (hx : v ∈ s'.stored x key)
    (hy : v ∈ s'.stored y key) : t'.isSettled = true := by
  have hOldUi := h.not_isUiLiteral hs hv
  have hBefore := hc.apart_before hs h hxy hTable hv hx
  cases h.storing with
  | kept hStored =>
    refine hBefore ?_ ?_
    · rcases hStored x key with hEq | ⟨-, hEq⟩ <;> rw [hEq] at hx
      · exact hx
      · cases hx
    · rcases hStored y key with hEq | ⟨-, hEq⟩ <;> rw [hEq] at hy
      · exact hy
      · cases hy
  | attached id other value hFresh _ _ hStored =>
    have hOld : ∀ z, z ≠ id ∨ v ≠ value → v ∈ s'.stored z key → v ∈ s.stored z key := by
      intro z hz hMem
      rcases hStored z key with hEq | ⟨hId, -, hEq⟩ <;> rw [hEq] at hMem
      · exact hMem
      · rcases mem_append.1 hMem with hMem | hMem
        · exact hMem
        · exact absurd (mem_singleton.1 hMem) (hz.resolve_left (not_not.2 hId))
    -- Two tables cannot both be given the value, and neither had it before.
    have hOther : v ≠ value := by
      rintro rfl
      rcases ne_or_eq x id with hx' | rfl
      · exact hFresh.not_mem hOldUi (hOld x (.inl hx') hx)
      · exact hFresh.not_mem hOldUi (hOld y (.inl hxy.symm) hy)
    exact hBefore (hOld x (.inr hOther) hx) (hOld y (.inr hOther) hy)
  | copied id owner hOwner hStored hInstance hClass _ =>
    rcases hStored x key with hEqX | ⟨rfl, -⟩
    · rcases hStored y key with hEqY | ⟨-, part, hPart, hEqY⟩
      · exact hBefore (hEqX ▸ hx) (hEqY ▸ hy)
      · rw [hEqY] at hy
        rcases mem_append.1 hy with hy | hy
        · exact hBefore (hEqX ▸ hx) hy
        · by_cases hId : x = id
          · exact hInstance t' (hId ▸ hTable)
          · exact hc.apart_before hs h hId hTable hv hx (hEqX ▸ hx) (hPart.subset hy)
    · exact hClass t' hTable

theorem Counted.change (hc : Counted s) (hs : Sound s) (h : Change P s s') : Counted s' where
  once _ key _ := hc.once_change hs h key
  apart _ _ _ _ _ := hc.apart_change hs h

end Change

/-- Making modules known and beginning them does not touch tables. -/
theorem Counted.of_same {s s' : Inference} (hc : Counted s) (hTables : s'.tables = s.tables)
    (hTerms : s'.terms = s.terms) : Counted s' := by
  have hTable : s'.table? = s.table? := by
    funext x
    rw [table?, hTables, table?]
  have hStored : s'.stored = s.stored := by
    funext x key
    rw [stored, hTable, stored]
  have hUi : s'.isUiLiteral = s.isUiLiteral := by
    funext v
    rw [isUiLiteral, hTable, hTerms, isUiLiteral]
  constructor
  · simp only [HasAlone, hTable, hStored, hUi]
    exact hc.once
  · rw [hTable, hStored, hUi]
    exact hc.apart

theorem Counted.register {s : Inference} (hc : Counted s) (name : String) :
    Counted (s.register name).2 := by
  obtain ⟨_, hEq⟩ := s.exists_register_eq name
  exact hc.of_same (by rw [hEq]) (by rw [hEq])

theorem Reached.counted {buckets : List String} {s : Inference} (h : Reached buckets s) :
    Counted s :=
  (h.induct Counted (counted_empty buckets) (fun _ name hc => hc.register name)
    (fun _ name hc => (hc.register name).of_same rfl rfl)
    fun _ _ hs hc hChange => hc.change hs hChange).2

/-- **No value is counted twice.**  In every context that reading leads to, a value is at most once
among the definitions of a key, unless it is a literal of a UI class, or the table is a class built
by a function that shares the value with another table. -/
theorem definitions_have_distinct_values {buckets : List String} {s : Inference}
    (h : Reached buckets s) {x : TableId} {t : TableRecord} (hTable : s.table? x = some t)
    (key : String) (v : TermId) (hUi : s.isUiLiteral v = false)
    (hAlone : t.isClosure = true → ∀ y, y ≠ x → v ∉ s.stored y key) :
    ((t.fields.get key).map Definition.value).count v ≤ 1 := by
  have hStored : s.stored x key = (t.fields.get key).map Definition.value := by
    rw [stored, hTable]
    rfl
  rw [← hStored]
  refine h.counted.once x key v (fun t' ht' => ?_) hUi
  rw [hTable] at ht'
  cases ht'
  exact hAlone

set_option maxRecDepth 100000 in
/-- A class that gets values of its own, one from the constructor of its instance and one
through the instance. -/
theorem distinct_values_of_class_and_instance :
    let files : List SourceFile := [⟨"a",
      "Foo = { a = 1 } Foo.a = 2
      function Foo:new() local o = { a = 3 } setmetatable(o, self) o.a = 4 return o end"⟩]
    let s := readChunks [] (files.filterMap SourceFile.chunk?)
    ∃ t, s.table? ⟨1⟩ = some t ∧ t.isClosure = false ∧
      ((t.fields.get "a").map Definition.value) = [⟨1⟩, ⟨3⟩, ⟨8⟩, ⟨14⟩] ∧
      ∀ v ∈ (t.fields.get "a").map Definition.value,
        s.isUiLiteral v = false ∧ ((t.fields.get "a").map Definition.value).count v ≤ 1 := by
  intro files s
  have hRead : (s.table? ⟨1⟩).map (fun t =>
      (t.isClosure, (t.fields.get "a").map Definition.value)) =
      some (false, [⟨1⟩, ⟨3⟩, ⟨8⟩, ⟨14⟩]) := by
    decide +kernel
  obtain ⟨t, hTable, hData⟩ := Option.map_eq_some_iff.1 hRead
  obtain ⟨hClosure, hValues⟩ := Prod.mk.inj hData
  have hUi : ∀ v ∈ ([⟨1⟩, ⟨3⟩, ⟨8⟩, ⟨14⟩] : List TermId), s.isUiLiteral v = false := by
    decide +kernel
  refine ⟨t, hTable, hClosure, hValues, fun v hv => ?_⟩
  have hLiteral := hUi v (hValues ▸ hv)
  refine ⟨hLiteral, ?_⟩
  refine definitions_have_distinct_values (reached_readChunks [] _) hTable "a" v hLiteral fun h => ?_
  rw [hClosure] at h
  cases h

set_option maxRecDepth 100000 in
/-- A table that becomes an instance by its metatable, and then once more because the
function that builds it gave it a method, hands its values to the class twice. -/
theorem value_counted_twice_in_built_class :
    let files : List SourceFile := [⟨"shared/a",
      "X = {}\nfunction X.new()\n  local self = { a = 1 }\n  function self.f() end\n" ++
      "  setmetatable(self, X)\n  return self\nend"⟩]
    let s := readChunks [] (files.filterMap SourceFile.chunk?)
    (s.table? ⟨1⟩).map (fun t => ((t.fields.get "a").map Definition.value)) =
        some [⟨4⟩, ⟨4⟩] ∧
      s.isUiLiteral ⟨4⟩ = false := by
  decide +kernel

end Inference

end LuaShape
