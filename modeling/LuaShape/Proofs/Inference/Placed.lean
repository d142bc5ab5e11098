import LuaShape.Proofs.Inference.Reached

/-!
# Where globals and named tables belong

A module lists the globals it assigns, and no list ever loses a name.  A definition of a
global remembers the module that made it, and that module lists the global.  If the value
is a table, the table was made in that module.  A table that is called after a global is
the value of one of its definitions.  These facts are `Placed`; every change keeps them
while a known module is being read (`Placed.change`).
-/

namespace LuaShape.Inference

open List

/-! ## Globals of modules -/

/-- The globals that the module at a position assigns. -/
def globalsAt (s : Inference) (index : Nat) : List String :=
  ((s.modules[index]?).map ModuleRecord.globals).getD []

/-- A known module is being read. -/
def IsReading (s : Inference) : Prop := s.current < s.modules.length

variable {s s' : Inference}

theorem globalsAt_of_modules (h : s'.modules = s.modules) : s'.globalsAt = s.globalsAt := by
  funext index
  rw [globalsAt, h, globalsAt]

/-- Changing the module being read keeps all lists if it keeps that one. -/
theorem globalsAt_modifyModule (s : Inference) {f : ModuleRecord → ModuleRecord}
    (hf : ∀ m, m.globals ⊆ (f m).globals) (index : Nat) :
    s.globalsAt index ⊆ (s.modifyModule f).globalsAt index := by
  show _ ⊆ (((s.modules.modify s.current f)[index]?).map ModuleRecord.globals).getD []
  rw [globalsAt, getElem?_modify]
  cases s.modules[index]? with
  | none => exact nil_subset _
  | some m =>
    by_cases hIndex : s.current = index
    · simpa [hIndex] using hf m
    · simp [hIndex]

theorem globalsAt_noteGlobal (s : Inference) (name : String) (value : TermId) (index : Nat) :
    s.globalsAt index ⊆ (s.noteGlobal name value).globalsAt index := by
  refine s.globalsAt_modifyModule (fun m => ?_) index
  dsimp only
  split
  · exact List.Subset.refl _
  · exact subset_append_left _ _

/-- The module being read lists the globals it assigns. -/
theorem mem_globalsAt_noteGlobal {s : Inference} (h : s.IsReading) (name : String)
    (value : TermId) : name ∈ (s.noteGlobal name value).globalsAt s.current := by
  show name ∈ (((s.modules.modify s.current _)[s.current]?).map ModuleRecord.globals).getD []
  have hModule : s.modules[s.current]? = some s.modules[s.current] := getElem?_eq_getElem h
  rw [getElem?_modify, hModule]
  simp only [if_true, Option.map_eq_map, Option.map_some, Option.getD_some]
  split
  · rename_i hListed
    exact contains_iff_mem.1 hListed
  · exact mem_append_right _ mem_cons_self

theorem modules_nameValue (s : Inference) (value : TermId) (name : String) (isLocal : Bool) :
    (s.nameValue value name isLocal).modules = s.modules := by
  obtain ⟨_, _, hEq⟩ := s.exists_nameValue_eq value name isLocal
  rw [hEq]

theorem current_nameValue (s : Inference) (value : TermId) (name : String) (isLocal : Bool) :
    (s.nameValue value name isLocal).current = s.current := by
  obtain ⟨_, _, hEq⟩ := s.exists_nameValue_eq value name isLocal
  rw [hEq]

theorem modules_attachField (s : Inference) (id : TableId) (key : String) (value : TermId)
    (inFunction onInstance inConstructor : Bool) :
    (s.attachField id key value inFunction onInstance inConstructor).modules = s.modules := by
  obtain ⟨_, _, hEq⟩ := s.exists_attachField_eq id key value inFunction onInstance inConstructor
  rw [hEq]

/-- A definition of a global is listed. -/
theorem mem_globalsAt_define {s : Inference} (h : s.IsReading) (name : String) (value : TermId)
    (inFunction : Bool) :
    name ∈ (s.define (.global name) value inFunction).globalsAt s.current := by
  have hNamed : (s.nameValue value name false).IsReading := by
    rw [IsReading, modules_nameValue, current_nameValue]
    exact h
  have hListed := mem_globalsAt_noteGlobal hNamed name value
  rwa [current_nameValue] at hListed

theorem globalsAt_define (s : Inference) (ident : Ident) (value : TermId) (inFunction : Bool)
    (index : Nat) :
    s.globalsAt index ⊆ (s.define ident value inFunction).globalsAt index := by
  cases ident with
  | bound symbol =>
    rw [← globalsAt_of_modules (s.modules_nameValue value _ true)]
    exact List.Subset.refl _
  | global name =>
    rw [← globalsAt_of_modules (s.modules_nameValue value name false)]
    exact globalsAt_noteGlobal _ name value index

theorem length_modules_define (s : Inference) (ident : Ident) (value : TermId)
    (inFunction : Bool) :
    (s.define ident value inFunction).modules.length = s.modules.length := by
  cases ident with
  | bound symbol => exact congrArg List.length (s.modules_nameValue value _ true)
  | global name =>
    exact (length_modify _ _ _).trans
      (congrArg List.length (s.modules_nameValue value name false))

/-- What a change does to the modules. -/
theorem Change.modules {P : TermId → Prop} {s s' : Inference} (h : Change P s s') :
    s'.modules.length = s.modules.length ∧ ∀ index, s.globalsAt index ⊆ s'.globalsAt index := by
  have hSame : ∀ {s s' : Inference}, s'.modules = s.modules →
      s'.modules.length = s.modules.length ∧ ∀ index, s.globalsAt index ⊆ s'.globalsAt index :=
    fun hEq => ⟨by rw [hEq], fun index => by rw [globalsAt_of_modules hEq]; exact fun _ h => h⟩
  cases h with
  | alloc | mint | aside | newTable | newFunction | relabel | promote | bind => exact hSame rfl
  | define ident value inFunction =>
    exact ⟨s.length_modules_define ident value inFunction,
      s.globalsAt_define ident value inFunction⟩
  | modifyModule f _ _ hGlobals =>
    refine ⟨length_modify _ _ _, s.globalsAt_modifyModule fun m => ?_⟩
    rw [hGlobals]
    exact List.Subset.refl _
  | attach id key value _ _ _ => exact hSame (s.modules_attachField id key value _ _ _)
  | @makeInstance id owner =>
    obtain ⟨_, hEq⟩ :=
      (s.promoteClass owner none fun c => c).exists_makeInstance_eq id owner false
    exact hSame (by rw [hEq]; rfl)
  | @build id owner =>
    obtain ⟨_, hEq⟩ := s.exists_makeInstance_eq id owner true
    exact hSame (by rw [hEq]; rfl)

theorem Changes.globalsAt {P : TermId → Prop} {s s' : Inference} (h : Changes P s s')
    (index : Nat) : s.globalsAt index ⊆ s'.globalsAt index := by
  induction h with
  | refl => exact List.Subset.refl _
  | tail _ hStep ih => exact List.Subset.trans ih (hStep.change.modules.2 index)

theorem Changes.isReading {P : TermId → Prop} (h : Changes P s s') (hReading : s.IsReading) :
    s'.IsReading := by
  induction h with
  | refl => exact hReading
  | tail _ hStep ih =>
    rw [IsReading, hStep.change.current_eq, hStep.change.modules.1]
    exact ih

/-! ## Names of tables -/

/-- The name that a table was given and whether it is that of a local. -/
def givenName? (s : Inference) (x : TableId) : Option (String × Bool) :=
  (s.table? x).bind fun t => t.name.map fun name => (name, t.nameIsLocal)

theorem givenName?_modifyTable (s : Inference) (id x : TableId) {f : TableRecord → TableRecord}
    (hf : ∀ t, (f t).name = t.name ∧ (f t).nameIsLocal = t.nameIsLocal) :
    (s.modifyTable id f).givenName? x = s.givenName? x := by
  rw [givenName?, table?_modifyTable, givenName?]
  split
  · cases s.table? x with
    | none => rfl
    | some t => simp [hf t]
  · rfl

theorem givenName?_promoteClass (s : Inference) (id x : TableId) (name : Option String)
    (f : ClassInfo → ClassInfo) : (s.promoteClass id name f).givenName? x = s.givenName? x := by
  rw [givenName?, table?_promoteClass, givenName?]
  split
  · rename_i hx
    subst hx
    rw [promoted]
    cases s.table? x <;> rfl
  · rfl

theorem givenName?_makeInstance (s : Inference) (id owner x : TableId) (withFunctions : Bool) :
    (s.makeInstance id owner withFunctions).givenName? x = s.givenName? x := by
  rw [makeInstance]
  split
  · rfl
  · dsimp only
    rw [givenName?_modifyTable, givenName?_modifyTable]
    · exact fun _ => ⟨rfl, rfl⟩
    · exact fun _ => ⟨rfl, rfl⟩

theorem givenName?_attachField (s : Inference) (id : TableId) (key : String) (value : TermId)
    (inFunction onInstance inConstructor : Bool) (x : TableId) :
    (s.attachField id key value inFunction onInstance inConstructor).givenName? x =
      s.givenName? x := by
  rw [attachField, givenName?_modifyTable]
  · rw [givenName?, givenName?]
    rcases s.table?_placeValue id key value x with h | ⟨t, t', ht, ht', _, _, _, _, rfl⟩
    · rw [h]
    · rw [ht, ht']
      rfl
  · exact fun _ => ⟨rfl, rfl⟩

/-- A value is named only if it is a table without name. -/
theorem givenName?_nameValue (s : Inference) (value : TermId) (name : String) (isLocal : Bool)
    (x : TableId) :
    (s.nameValue value name isLocal).givenName? x = s.givenName? x ∨
      s.terms.tableLiteral? value = some x ∧
        (s.nameValue value name isLocal).givenName? x = some (name, isLocal) := by
  rw [nameValue]
  split
  · rename_i id hValue
    by_cases hx : x = id
    · subst hx
      have hLiteral : s.terms.tableLiteral? value = some x := by
        rw [Arena.tableLiteral?, show s.terms.get value = _ from hValue]
      rw [givenName?, table?_modifyTable, if_pos rfl, givenName?]
      cases s.table? x with
      | none => exact .inl rfl
      | some t =>
        cases hName : t.name with
        | none => exact .inr ⟨hLiteral, by simp [hName]⟩
        | some old => exact .inl (by simp [hName])
    · rw [givenName?, table?_modifyTable, if_neg hx]
      exact .inl rfl
  · exact .inl rfl
  · exact .inl rfl

/-- A change gives a table a name only if it defines a name as the table. -/
theorem Change.givenName? {P : TermId → Prop} {s s' : Inference} (h : Change P s s')
    (x : TableId) :
    s'.givenName? x = s.givenName? x ∨ s'.givenName? x = none ∨
      ∃ ident value inFunction name isLocal, s' = s.define ident value inFunction ∧
        s.terms.tableLiteral? value = some x ∧ s'.givenName? x = some (name, isLocal) ∧
        (isLocal = false → ident = .global name) := by
  cases h with
  | alloc | mint | aside | newFunction | bind | modifyModule => exact .inl rfl
  | newTable hint =>
    rw [Inference.givenName?, table?_newTable]
    split
    · exact .inr (.inl rfl)
    · exact .inl rfl
  | relabel id f hf =>
    refine .inl (s.givenName?_modifyTable id x fun t => ?_)
    obtain ⟨_, _, _, _, hEq⟩ := hf t
    rw [hEq]
    exact ⟨rfl, rfl⟩
  | promote id name f hf => exact .inl (s.givenName?_promoteClass id x name f)
  | define ident value inFunction =>
    cases ident with
    | bound symbol =>
      rcases s.givenName?_nameValue value ((s.registry.nameOf? symbol).getD "") true x
        with h | ⟨hLiteral, h⟩
      · exact .inl h
      · exact .inr (.inr ⟨_, value, _, _, true, rfl, hLiteral, h, nofun⟩)
    | global name =>
      rcases s.givenName?_nameValue value name false x with h | ⟨hLiteral, h⟩
      · exact .inl h
      · exact .inr (.inr ⟨_, value, _, name, false, rfl, hLiteral, h, fun _ => rfl⟩)
  | attach id key value _ _ _ => exact .inl (s.givenName?_attachField id key value _ _ _ x)
  | makeInstance =>
    exact .inl ((givenName?_makeInstance _ _ _ x false).trans
      (s.givenName?_promoteClass _ x none fun c => c))
  | build =>
    refine .inl ?_
    rw [givenName?_promoteClass, givenName?_modifyTable, givenName?_makeInstance]
    exact fun _ => ⟨rfl, rfl⟩

/-! ## Definitions of globals -/

theorem definitionsOf_define (s : Inference) (ident other : Ident) (value : TermId)
    (inFunction : Bool) :
    ∃ d : Definition, d.value = value ∧ d.module = s.current ∧
      (s.define ident value inFunction).definitionsOf other =
        if other = ident then s.definitionsOf other ++ [d] else s.definitionsOf other := by
  cases ident with
  | bound symbol =>
    obtain ⟨_, _, hEq⟩ := s.exists_nameValue_eq value ((s.registry.nameOf? symbol).getD "") true
    rw [define, hEq]
    exact ⟨_, rfl, rfl, OrderedMap.get_push _ _ _ _⟩
  | global name =>
    obtain ⟨_, _, hEq⟩ := s.exists_nameValue_eq value name false
    rw [define, hEq]
    exact ⟨_, rfl, rfl, OrderedMap.get_push _ _ _ _⟩

/-- A definition of a global was there before a change, or the change defines it. -/
theorem Change.definitionsOf {P : TermId → Prop} {s s' : Inference} (h : Change P s s')
    (name : String) :
    s'.definitionsOf (.global name) = s.definitionsOf (.global name) ∨
      ∃ value inFunction d, s' = s.define (.global name) value inFunction ∧
        value.index < s.terms.size ∧ s.IsHere value ∧ d.value = value ∧
        d.module = s.current ∧
        s'.definitionsOf (.global name) = s.definitionsOf (.global name) ++ [d] := by
  cases h with
  | alloc | mint | aside | newTable | newFunction | relabel | promote | modifyModule =>
    exact .inl rfl
  | bind symbol d => exact .inl (OrderedMap.get_push s.definitions _ _ d)
  | define ident value inFunction hKnown hHere =>
    obtain ⟨d, hValue, hModule, hDefs⟩ :=
      s.definitionsOf_define ident (.global name) value inFunction
    by_cases hIdent : .global name = ident
    · subst hIdent
      rw [if_pos rfl] at hDefs
      exact .inr ⟨value, inFunction, d, rfl, hKnown, hHere, hValue, hModule, hDefs⟩
    · rw [if_neg hIdent] at hDefs
      exact .inl hDefs
  | attach id key value inFunction onInstance inConstructor =>
    obtain ⟨_, _, hEq⟩ :=
      s.exists_attachField_eq id key value inFunction onInstance inConstructor
    rw [hEq]
    exact .inl rfl
  | @makeInstance id owner =>
    obtain ⟨_, hEq⟩ :=
      (s.promoteClass owner none fun c => c).exists_makeInstance_eq id owner false
    rw [hEq]
    exact .inl rfl
  | @build id owner =>
    obtain ⟨_, hEq⟩ := s.exists_makeInstance_eq id owner true
    rw [hEq]
    exact .inl rfl

/-- Definitions of globals, their values and the names of tables agree with the lists of
globals and the modules of tables. -/
structure Placed (s : Inference) : Prop where
  known : ∀ name, ∀ d ∈ s.definitionsOf (.global name), d.value.index < s.terms.size
  listed : ∀ name, ∀ d ∈ s.definitionsOf (.global name), name ∈ s.globalsAt d.module
  here : ∀ name x, ∀ d ∈ s.definitionsOf (.global name),
    s.terms.tableLiteral? d.value = some x → ∃ t, s.table? x = some t ∧ t.module = d.module
  named : ∀ name x, s.givenName? x = some (name, false) →
    ∃ d ∈ s.definitionsOf (.global name), s.terms.tableLiteral? d.value = some x
  home : ∀ x t, s.table? x = some t → t.module < s.modules.length

theorem placed_empty (buckets : List String) : Placed (empty buckets) where
  known _ _ h := by cases h
  listed _ _ h := by cases h
  here _ _ _ h := by cases h
  named _ _ h := by cases h
  home _ _ h := by cases h

/-- Neither the numbering nor the module being read matters, and lists may grow. -/
theorem Placed.congr (hp : Placed s)
    (hDefs : ∀ name, s'.definitionsOf (.global name) = s.definitionsOf (.global name))
    (hTables : s'.tables = s.tables) (hTerms : s'.terms = s.terms)
    (hGlobals : ∀ index, s.globalsAt index ⊆ s'.globalsAt index)
    (hModules : s.modules.length ≤ s'.modules.length) : Placed s' := by
  have hTable : s'.table? = s.table? := by
    funext x
    rw [table?, hTables, table?]
  refine ⟨?_, ?_, ?_, ?_, ?_⟩
  · simpa only [hDefs, hTerms] using hp.known
  · intro name d hd
    rw [hDefs] at hd
    exact hGlobals _ (hp.listed name d hd)
  · simpa only [hDefs, hTerms, hTable] using hp.here
  · simpa only [hDefs, hTerms, hTable, givenName?] using hp.named
  · intro x t ht
    rw [hTable] at ht
    exact Nat.lt_of_lt_of_le (hp.home x t ht) hModules

/-- What is placed stays so while a known module is read. -/
theorem Placed.change {P : TermId → Prop} (hp : Placed s) (hs : Sound s) (hReading : s.IsReading)
    (h : Change P s s') : Placed s' where
  known name d hd := by
    refine Nat.lt_of_lt_of_le ?_ h.terms_le
    rcases h.definitionsOf name with hEq | ⟨value, _, d', -, hKnown, -, rfl, -, hEq⟩
    · exact hp.known name d (hEq ▸ hd)
    · rcases mem_append.1 (hEq ▸ hd) with hd | hd
      · exact hp.known name d hd
      · rwa [mem_singleton.1 hd]
  listed name d hd := by
    rcases h.definitionsOf name with hEq | ⟨value, inFunction, d', hDefine, -, -, -, hModule, hEq⟩
    · exact h.modules.2 _ (hp.listed name d (hEq ▸ hd))
    · rcases mem_append.1 (hEq ▸ hd) with hd | hd
      · exact h.modules.2 _ (hp.listed name d hd)
      · rw [mem_singleton.1 hd, hModule, hDefine]
        exact mem_globalsAt_define hReading name value inFunction
  here name x d hd hx := by
    have hOld : d ∈ s.definitionsOf (.global name) →
        ∃ t, s'.table? x = some t ∧ t.module = d.module := by
      intro hd
      rw [h.tableLiteral?_eq (hp.known name d hd)] at hx
      obtain ⟨t, ht, hSame⟩ := hp.here name x d hd hx
      obtain ⟨t', ht', hGrows⟩ := h.exists_grows (hs.literal_lt _ x hx) ht
      exact ⟨t', ht', hGrows.module_eq.trans hSame⟩
    rcases h.definitionsOf name with hEq | ⟨value, _, d', -, hKnown, hHere, rfl, hModule, hEq⟩
    · exact hOld (hEq ▸ hd)
    · rcases mem_append.1 (hEq ▸ hd) with hd | hd
      · exact hOld hd
      · cases mem_singleton.1 hd
        obtain ⟨t, ht, hSame⟩ := h.isHere hs hKnown hHere x hx
        exact ⟨t, ht, by rw [hSame, h.current_eq, hModule]⟩
  named name x hName := by
    have hKept : ∀ d ∈ s.definitionsOf (.global name), s.terms.tableLiteral? d.value = some x →
        ∃ d ∈ s'.definitionsOf (.global name), s'.terms.tableLiteral? d.value = some x := by
      intro d hd hx
      refine ⟨d, ?_, by rwa [h.tableLiteral?_eq (hp.known name d hd)]⟩
      rcases h.definitionsOf name with hEq | ⟨_, _, d', -, -, -, -, -, hEq⟩
      · rwa [hEq]
      · rw [hEq]
        exact mem_append_left _ hd
    rcases h.givenName? x with
      hEq | hEq | ⟨ident, value, inFunction, _, _, hDefine, hx, hEq, hGlobal⟩
    · obtain ⟨d, hd, hx⟩ := hp.named name x (hEq ▸ hName)
      exact hKept d hd hx
    · rw [hEq] at hName
      cases hName
    · rw [hEq] at hName
      cases hName
      cases hGlobal rfl
      obtain ⟨d, hValue, -, hDefs⟩ :=
        s.definitionsOf_define (.global name) (.global name) value inFunction
      rw [if_pos rfl, ← hDefine] at hDefs
      refine ⟨d, ?_, ?_⟩
      · rw [hDefs]
        exact mem_append_right _ mem_cons_self
      · rw [hValue, h.tableLiteral?_eq (Arena.lt_of_tableLiteral? hx), hx]
  home x t ht := by
    rw [h.modules.1]
    rcases h.fate x with hFate | ⟨-, hNew⟩
    · rw [ht] at hFate
      cases hOld : s.table? x with
      | none =>
        rw [hOld] at hFate
        cases hFate with
        | made _ hModule => rw [hModule]; exact hReading
      | some old =>
        rw [hOld] at hFate
        cases hFate with
        | kept hGrows => rw [hGrows.module_eq]; exact hp.home x old hOld
    · rw [ht] at hNew
      cases hNew
      exact hReading

end LuaShape.Inference
