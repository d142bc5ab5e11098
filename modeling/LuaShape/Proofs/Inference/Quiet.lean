import LuaShape.Proofs.Inference.Change
import LuaShape.Proofs.Inference.Report

/-!
# Reports that concern no names

Of what the inference knows, three things tell what names were taken for: the bindings
among the numbered things (`Registry.bindingsFrom`), the references among the terms
(`Arena.referencesFrom`), and the definitions of globals.  Most reports leave all three
alone, and the marks of bindings outside functions.  They may add tables, functions and terms of
other kinds, but nothing that is already there changes its number: this is `Quiet`.  All but
requires leave the outline alone as well: this is `Calm`.

A report that is not quiet adds one binding, one reference, or, if it is an assignment to a
global, one definition of it (`exists_addAssignment_global`, `origins_define_global`).
-/

namespace LuaShape

open List

/-! ## Entries from a position on -/

/-- What the entries of a list from a position on are taken for. -/
def pickedFrom {α β : Type} (pick : α → Nat → Option β) (xs : List α) (start : Nat) : List β :=
  (xs.zipIdx.drop start).filterMap fun entry => pick entry.1 entry.2

section PickedFrom

variable {α β : Type} {pick : α → Nat → Option β}

theorem pickedFrom_concat {xs : List α} {start : Nat} (h : start ≤ xs.length) (x : α) :
    pickedFrom pick (xs ++ [x]) start = pickedFrom pick xs start ++ (pick x xs.length).toList := by
  have hDrop : start ≤ xs.zipIdx.length := by rwa [length_zipIdx]
  rw [pickedFrom, zipIdx_append, drop_append_of_le_length hDrop,
    filterMap_append, pickedFrom]
  cases hPick : pick x xs.length <;> simp [hPick]

theorem pickedFrom_append_of_none (xs : List α) {ys : List α}
    (h : ∀ y ∈ ys, ∀ index, pick y index = none) (start : Nat) :
    pickedFrom pick (xs ++ ys) start = pickedFrom pick xs start := by
  rw [pickedFrom, zipIdx_append, drop_append, filterMap_append, pickedFrom]
  have hNone : (((ys.zipIdx (0 + xs.length)).drop (start - xs.zipIdx.length)).filterMap
      fun entry => pick entry.1 entry.2) = [] := by
    rw [filterMap_eq_nil_iff]
    intro entry hEntry
    exact h entry.1 (fst_mem_of_mem_zipIdx (mem_of_mem_drop hEntry)) entry.2
  rw [hNone, append_nil]

/-- What was picked stays in front. -/
theorem exists_pickedFrom_append {xs : List α} (ys : List α) {start : Nat}
    (h : start ≤ xs.length) :
    ∃ more, pickedFrom pick (xs ++ ys) start = pickedFrom pick xs start ++ more := by
  have hDrop : start ≤ xs.zipIdx.length := by rwa [length_zipIdx]
  rw [pickedFrom, zipIdx_append, drop_append_of_le_length hDrop,
    filterMap_append]
  exact ⟨_, rfl⟩

theorem pickedFrom_length (xs : List α) : pickedFrom pick xs xs.length = [] := by
  have hDrop : xs.zipIdx.drop xs.length = [] := drop_eq_nil_of_le (by simp)
  rw [pickedFrom, hDrop]
  rfl

end PickedFrom

/-! ## Bindings and references -/

/-- Whether a number of this kind stands for a binding. -/
def SymbolKind.isBinding : SymbolKind → Bool
  | .local | .parameter | .self | .object => true
  | .function | .table | .module => false

namespace Registry

/-- A record as a binding and its name. -/
def binding? (record : SymbolRecord) (index : Nat) : Option (SymbolId × String) :=
  if record.kind.isBinding then some (⟨index⟩, record.name) else none

/-- The bindings among the numbers from one on, with their names, in the order in which they
came to be. -/
def bindingsFrom (r : Registry) (start : Nat) : List (SymbolId × String) :=
  pickedFrom binding? r.records.toList start

theorem bindingsFrom_mint {r : Registry} {start : Nat} (h : start ≤ r.size) (kind : SymbolKind)
    (name : String) (hKind : kind.isBinding = true) :
    (r.mint kind name).2.bindingsFrom start = r.bindingsFrom start ++ [(⟨r.size⟩, name)] := by
  rw [bindingsFrom, mint, Array.toList_push, pickedFrom_concat h, bindingsFrom]
  simp [binding?, hKind, size]

theorem bindingsFrom_size (r : Registry) : r.bindingsFrom r.size = [] :=
  pickedFrom_length r.records.toList

end Registry

/-- The name that a term refers to. -/
def Term.ident? : Term → Option Ident
  | .reference ident => some ident
  | _ => none

namespace Arena

/-- A term as a reference. -/
def reference? (t : Term) (index : Nat) : Option (TermId × Ident) :=
  t.ident?.map fun ident => (⟨index⟩, ident)

/-- The references among the terms from a number on. -/
def referencesFrom (a : Arena) (start : Nat) : List (TermId × Ident) :=
  pickedFrom reference? a.terms.toList start

theorem referencesFrom_alloc {a : Arena} {start : Nat} (h : start ≤ a.size) (ident : Ident) :
    (a.alloc (.reference ident)).2.referencesFrom start =
      a.referencesFrom start ++ [(⟨a.size⟩, ident)] := by
  rw [referencesFrom, alloc, Array.toList_push, pickedFrom_concat h, referencesFrom]
  simp [reference?, Term.ident?, size]

theorem referencesFrom_size (a : Arena) : a.referencesFrom a.size = [] :=
  pickedFrom_length a.terms.toList

end Arena

/-- Where a definition comes from: the module, and whether it is inside a function. -/
def Definition.origin (d : Definition) : Nat × Bool := (d.module, d.inFunction)

/-- A report that concerns neither names nor requires, whatever is known. -/
def Report.IsQuiet : Report → Prop
  | .term t => t.ident? = none
  | .binding _ _ | .moduleLevel _ | .assignment _ _ _ | .require _ => False
  | _ => True

/-! ## Quiet changes -/

namespace Inference

/-- Nothing is added that concerns names. -/
structure Quiet (s s' : Inference) : Prop where
  current_eq : s'.current = s.current
  moduleLevel_eq : s'.moduleLevel = s.moduleLevel
  terms : ∃ added, s'.terms.terms.toList = s.terms.terms.toList ++ added ∧
    ∀ t ∈ added, t.ident? = none
  records : ∃ minted, s'.registry.records.toList = s.registry.records.toList ++ minted ∧
    ∀ record ∈ minted, record.kind.isBinding = false
  definitions : ∀ name, s'.definitionsOf (.global name) = s.definitionsOf (.global name)

/-- Nothing is added that concerns names or requires. -/
structure Calm (s s' : Inference) : Prop extends Quiet s s' where
  outline_eq : s'.outline = s.outline

/-- What is there keeps its number. -/
structure Grows (s s' : Inference) : Prop where
  terms : ∃ added, s'.terms.terms.toList = s.terms.terms.toList ++ added
  records : ∃ minted, s'.registry.records.toList = s.registry.records.toList ++ minted

namespace Grows

variable {s s' s'' : Inference}

theorem of_eq (hTerms : s'.terms = s.terms) (hRegistry : s'.registry = s.registry) :
    s.Grows s' :=
  ⟨⟨[], by simp [hTerms]⟩, ⟨[], by simp [hRegistry]⟩⟩

theorem refl (s : Inference) : s.Grows s := of_eq rfl rfl

theorem trans (h : s.Grows s') (h' : s'.Grows s'') : s.Grows s'' := by
  obtain ⟨⟨added, hAdded⟩, ⟨minted, hMinted⟩⟩ := h
  obtain ⟨⟨more, hMore⟩, ⟨further, hFurther⟩⟩ := h'
  exact ⟨⟨added ++ more, by rw [hMore, hAdded, append_assoc]⟩,
    ⟨minted ++ further, by rw [hFurther, hMinted, append_assoc]⟩⟩

theorem alloc (s : Inference) (t : Term) : s.Grows (s.alloc t).2 :=
  ⟨⟨[t], Array.toList_push⟩, ⟨[], by simp [Inference.alloc]⟩⟩

theorem mint (s : Inference) (kind : SymbolKind) (name : String) :
    s.Grows { s with registry := (s.registry.mint kind name).2 } :=
  ⟨⟨[], by simp⟩, ⟨[⟨kind, name⟩], Array.toList_push⟩⟩

theorem terms_le (h : s.Grows s') : s.terms.size ≤ s'.terms.size := by
  obtain ⟨added, hAdded⟩ := h.terms
  have hLength := congrArg List.length hAdded
  simp only [length_append, Array.length_toList] at hLength
  show s.terms.terms.size ≤ s'.terms.terms.size
  omega

theorem registry_le (h : s.Grows s') : s.registry.size ≤ s'.registry.size := by
  obtain ⟨minted, hMinted⟩ := h.records
  have hLength := congrArg List.length hMinted
  simp only [length_append, Array.length_toList] at hLength
  show s.registry.records.size ≤ s'.registry.records.size
  omega

theorem term_eq (h : s.Grows s') {id : TermId} (hId : id.index < s.terms.size) :
    s'.term id = s.term id := by
  obtain ⟨added, hAdded⟩ := h.terms
  have hSame : s'.terms.terms[id.index]? = s.terms.terms[id.index]? := by
    have hLt : id.index < s.terms.terms.toList.length := hId
    rw [← Array.getElem?_toList, hAdded, getElem?_append_left hLt, Array.getElem?_toList]
  rw [term, term, Arena.get, Arena.get, hSame]

/-- Later bindings are numbered behind the earlier ones. -/
theorem getElem?_bindingsFrom (h : s.Grows s') {start number : Nat}
    {binding : SymbolId × String} (hStart : start ≤ s.registry.size)
    (hBinding : (s.registry.bindingsFrom start)[number]? = some binding) :
    (s'.registry.bindingsFrom start)[number]? = some binding := by
  obtain ⟨minted, hMinted⟩ := h.records
  obtain ⟨more, hMore⟩ : ∃ more, s'.registry.bindingsFrom start =
      s.registry.bindingsFrom start ++ more := by
    rw [Registry.bindingsFrom, Registry.bindingsFrom, hMinted]
    exact exists_pickedFrom_append _ hStart
  rw [hMore, List.getElem?_append_left (List.getElem?_eq_some_iff.1 hBinding).1, hBinding]

end Grows

namespace Quiet

variable {s s' s'' : Inference}

theorem of_eq (hCurrent : s'.current = s.current) (hLevel : s'.moduleLevel = s.moduleLevel)
    (hTerms : s'.terms = s.terms) (hRegistry : s'.registry = s.registry)
    (hDefinitions : s'.definitions = s.definitions) : s.Quiet s' where
  current_eq := hCurrent
  moduleLevel_eq := hLevel
  terms := ⟨[], by simp [hTerms], by simp⟩
  records := ⟨[], by simp [hRegistry], by simp⟩
  definitions := fun name => by rw [definitionsOf, definitionsOf, hDefinitions]

theorem refl (s : Inference) : s.Quiet s := of_eq rfl rfl rfl rfl rfl

theorem trans (h : s.Quiet s') (h' : s'.Quiet s'') : s.Quiet s'' where
  current_eq := h'.current_eq.trans h.current_eq
  moduleLevel_eq := h'.moduleLevel_eq.trans h.moduleLevel_eq
  terms := by
    obtain ⟨added, hAdded, hNone⟩ := h.terms
    obtain ⟨more, hMore, hNone'⟩ := h'.terms
    refine ⟨added ++ more, by rw [hMore, hAdded, append_assoc], fun t ht => ?_⟩
    rcases mem_append.1 ht with ht | ht
    · exact hNone t ht
    · exact hNone' t ht
  records := by
    obtain ⟨minted, hMinted, hNone⟩ := h.records
    obtain ⟨more, hMore, hNone'⟩ := h'.records
    refine ⟨minted ++ more, by rw [hMore, hMinted, append_assoc], fun record hRecord => ?_⟩
    rcases mem_append.1 hRecord with hRecord | hRecord
    · exact hNone record hRecord
    · exact hNone' record hRecord
  definitions := fun name => (h'.definitions name).trans (h.definitions name)

theorem grows (h : s.Quiet s') : s.Grows s' := by
  obtain ⟨added, hAdded, -⟩ := h.terms
  obtain ⟨minted, hMinted, -⟩ := h.records
  exact ⟨⟨added, hAdded⟩, ⟨minted, hMinted⟩⟩

theorem referencesFrom_eq (h : s.Quiet s') (start : Nat) :
    s'.terms.referencesFrom start = s.terms.referencesFrom start := by
  obtain ⟨added, hAdded, hNone⟩ := h.terms
  rw [Arena.referencesFrom, hAdded, pickedFrom_append_of_none, Arena.referencesFrom]
  intro t ht index
  rw [Arena.reference?, hNone t ht, Option.map_none]

theorem bindingsFrom_eq (h : s.Quiet s') (start : Nat) :
    s'.registry.bindingsFrom start = s.registry.bindingsFrom start := by
  obtain ⟨minted, hMinted, hNone⟩ := h.records
  rw [Registry.bindingsFrom, hMinted, pickedFrom_append_of_none, Registry.bindingsFrom]
  intro record hRecord index
  rw [Registry.binding?, hNone record hRecord]
  rfl

end Quiet

namespace Calm

variable {s s' s'' : Inference}

theorem of_eq (hOutline : s'.outline = s.outline) (hLevel : s'.moduleLevel = s.moduleLevel)
    (hTerms : s'.terms = s.terms) (hRegistry : s'.registry = s.registry)
    (hDefinitions : s'.definitions = s.definitions) : s.Calm s' :=
  ⟨.of_eq (congrArg Outline.current hOutline) hLevel hTerms hRegistry hDefinitions, hOutline⟩

theorem refl (s : Inference) : s.Calm s := of_eq rfl rfl rfl rfl rfl

theorem trans (h : s.Calm s') (h' : s'.Calm s'') : s.Calm s'' :=
  ⟨h.toQuiet.trans h'.toQuiet, h'.outline_eq.trans h.outline_eq⟩

end Calm

/-! ## Reports that are calm -/

section Reports

variable (s : Inference)

/-- Changing the module being read keeps the outline if its heading is kept. -/
theorem outline_modifyModule {f : ModuleRecord → ModuleRecord}
    (h : ∀ m, (f m).heading = m.heading) : (s.modifyModule f).outline = s.outline := by
  have hModules : (s.modules.modify s.current f).map ModuleRecord.heading =
      s.modules.map ModuleRecord.heading := by
    apply ext_getElem?
    intro i
    simp only [getElem?_map, getElem?_modify]
    split <;> simp [Function.comp_def, h]
  simp [outline, modifyModule, hModules]

theorem calm_alloc {t : Term} (h : t.ident? = none) : s.Calm (s.alloc t).2 where
  current_eq := rfl
  outline_eq := rfl
  moduleLevel_eq := rfl
  terms := ⟨[t], Array.toList_push, by simpa using h⟩
  records := ⟨[], by simp [alloc], by simp⟩
  definitions := fun _ => rfl

theorem calm_mint (kind : SymbolKind) (name : String) (h : kind.isBinding = false) :
    s.Calm { s with registry := (s.registry.mint kind name).2 } where
  current_eq := rfl
  outline_eq := rfl
  moduleLevel_eq := rfl
  terms := ⟨[], by simp, by simp⟩
  records := ⟨[⟨kind, name⟩], Array.toList_push, by simpa using h⟩
  definitions := fun _ => rfl

theorem calm_newTable (hint : String) : s.Calm (s.newTable hint).2 :=
  (s.calm_mint .table hint rfl).trans (.of_eq rfl rfl rfl rfl rfl)

theorem calm_newFunction (name : Option String) : s.Calm (s.newFunction name).2 :=
  (s.calm_mint .function (name.getD "<anonymous>") rfl).trans (.of_eq rfl rfl rfl rfl rfl)

theorem calm_modifyTable (id : TableId) (f : TableRecord → TableRecord) :
    s.Calm (s.modifyTable id f) :=
  .of_eq rfl rfl rfl rfl rfl

theorem calm_promoteClass (id : TableId) (name : Option String) (f : ClassInfo → ClassInfo) :
    s.Calm (s.promoteClass id name f) :=
  .of_eq rfl rfl rfl rfl rfl

theorem calm_makeInstance (id owner : TableId) (withFunctions : Bool) :
    s.Calm (s.makeInstance id owner withFunctions) := by
  obtain ⟨tables, hEq⟩ := s.exists_makeInstance_eq id owner withFunctions
  rw [hEq]
  exact .of_eq rfl rfl rfl rfl rfl

theorem calm_supersedeEmpty (target : TermId) : s.Calm (s.supersedeEmpty target) := by
  have hFold : ∀ (ids : List TableId) (s : Inference), s.Calm (ids.foldl
      (fun s id => s.modifyTable id fun t => { t with isSuperseded := true }) s) := by
    intro ids
    induction ids with
    | nil => exact fun s => .refl s
    | cons id ids ih =>
      intro s
      rw [foldl_cons]
      exact (s.calm_modifyTable id _).trans (ih _)
  unfold supersedeEmpty
  split
  · exact hFold _ s
  · exact .refl s

theorem calm_applyDerivedClass (target : TermId) (parent : TableId) (args : List TermId) :
    s.Calm (s.applyDerivedClass target parent args).2 := by
  have hParent : s.Calm ((s.supersedeEmpty target).promoteClass parent none id) :=
    (s.calm_supersedeEmpty target).trans (calm_promoteClass _ parent none id)
  refine hParent.trans ?_
  rw [applyDerivedClass]
  exact (calm_newTable _ _).trans ((calm_modifyTable _ _ _).trans
    ((calm_promoteClass _ _ _ _).trans (calm_alloc _ rfl)))

/-- Whatever class an assignment makes, no names are concerned. -/
theorem calm_assignedValue (target value : TermId) :
    s.Calm (s.assignedValue target value).2 := by
  unfold assignedValue
  split
  · exact .of_eq rfl rfl rfl rfl rfl
  · split
    · exact s.calm_applyDerivedClass target _ _
    · exact .refl s

theorem calm_nameValue (value : TermId) (name : String) (isLocal : Bool) :
    s.Calm (s.nameValue value name isLocal) := by
  obtain ⟨tables, functions, hEq⟩ := s.exists_nameValue_eq value name isLocal
  rw [hEq]
  exact .of_eq rfl rfl rfl rfl rfl

theorem calm_attachField (id : TableId) (key : String) (value : TermId)
    (inFunction onInstance inConstructor : Bool) :
    s.Calm (s.attachField id key value inFunction onInstance inConstructor) := by
  obtain ⟨tables, functions, hEq⟩ :=
    s.exists_attachField_eq id key value inFunction onInstance inConstructor
  rw [hEq]
  exact .of_eq rfl rfl rfl rfl rfl

theorem calm_addTableField (id : TableId) (key : String) (value : TermId) (inFunction : Bool) :
    s.Calm (s.addTableField id key value inFunction) :=
  (s.calm_modifyTable id _).trans (calm_attachField _ id key value inFunction false true)

theorem calm_addField (base : TermId) (key : String) (value : TermId) (inFunction : Bool) :
    s.Calm (s.addField base key value inFunction) := by
  rw [addField]
  split
  · exact .refl s
  · split <;> exact s.calm_attachField _ key value inFunction _ false

theorem calm_pushDefinition (symbol : SymbolId) (d : Definition) :
    s.Calm (s.pushDefinition (.bound symbol) d) where
  current_eq := rfl
  outline_eq := rfl
  moduleLevel_eq := rfl
  terms := ⟨[], by simp [pushDefinition], by simp⟩
  records := ⟨[], by simp [pushDefinition], by simp⟩
  definitions := fun name => by
    simp [definitionsOf, pushDefinition, OrderedMap.get_push]

theorem calm_addReturn (function : Option FunctionId) (slot : Nat) (value : TermId) :
    s.Calm (s.addReturn function slot value) := by
  cases function with
  | some id => exact .of_eq rfl rfl rfl rfl rfl
  | none => exact .of_eq (s.outline_modifyModule fun _ => rfl) rfl rfl rfl rfl

theorem calm_addCall (call : TermId) : s.Calm (s.addCall call) := by
  have hCalls : s.Calm { s with calls := s.calls ++ [{ call, module := s.current }] } :=
    .of_eq rfl rfl rfl rfl rfl
  unfold addCall
  dsimp only
  split
  · exact hCalls.trans ((calm_promoteClass _ _ _ _).trans (calm_makeInstance _ _ _ false))
  · exact hCalls

theorem calm_methodDefined (base : TermId) (method : String) (id : FunctionId) (isColon : Bool) :
    s.Calm (s.methodDefined base method id isColon) := by
  unfold methodDefined
  dsimp only
  split
  · exact .refl s
  · split
    · exact .refl s
    · exact .of_eq rfl rfl rfl rfl rfl

theorem calm_endFunction (id : FunctionId) : s.Calm (s.endFunction id) := by
  unfold endFunction
  split
  · exact .refl s
  · dsimp only
    split
    · exact (s.calm_makeInstance _ _ true).trans (.of_eq rfl rfl rfl rfl rfl)
    · exact .of_eq rfl rfl rfl rfl rfl

theorem calm_addBuiltObject (function : FunctionId) (symbol : SymbolId) (value : TermId) :
    s.Calm (s.addBuiltObject function symbol value).2 := by
  unfold addBuiltObject
  split
  · exact .refl s
  · rename_i table held s' hTable
    have hBuilt : s.Calm s' := by
      unfold builtTable? at hTable
      split at hTable
      · cases hTable
        exact .refl s
      · obtain ⟨_, _, hMade⟩ := Option.map_eq_some_iff.1 hTable
        cases hMade
        exact (s.calm_newTable _).trans
          ((calm_modifyTable _ _ _).trans (calm_alloc _ rfl))
    exact hBuilt.trans (.of_eq rfl rfl rfl rfl rfl)

theorem quiet_resolveRequire (argument : String) : s.Quiet (s.resolveRequire argument).2 := by
  obtain ⟨diagnostics, hEq⟩ := s.exists_resolveRequire_eq argument
  rw [hEq]
  exact .of_eq rfl rfl rfl rfl rfl

end Reports

theorem calm_tell (s : Inference) {report : Report} (h : report.IsQuiet) :
    s.Calm (s.tell report) := by
  cases report with
  | term t => exact s.calm_alloc h
  | table hint => exact s.calm_newTable hint
  | function name => exact s.calm_newFunction name
  | object function symbol value => exact s.calm_addBuiltObject function symbol value
  | entry table key value inFunction => exact s.calm_addTableField table key value inFunction
  | selfValue symbol receiver => exact s.calm_pushDefinition symbol _
  | returned function slot value => exact s.calm_addReturn function slot value
  | call id => exact s.calm_addCall id
  | method base name id isColon => exact s.calm_methodDefined base name id isColon
  | functionEnd id => exact s.calm_endFunction id
  | use | receiver | parameters => exact .of_eq rfl rfl rfl rfl rfl
  | binding | moduleLevel | assignment | require => exact h.elim

/-! ## Assignments -/

/-- Where the definitions of a global come from, oldest first. -/
def origins (s : Inference) (name : String) : List (Nat × Bool) :=
  (s.definitionsOf (.global name)).map Definition.origin

theorem Quiet.origins_eq {s s' : Inference} (h : s.Quiet s') (name : String) :
    s'.origins name = s.origins name := by
  rw [origins, origins, h.definitions]

/-- What a term refers to is not changed by what is added. -/
theorem Quiet.ident?_term {s s' : Inference} (h : s.Quiet s') (id : TermId) :
    (s'.term id).ident? = (s.term id).ident? := by
  by_cases hKnown : id.index < s.terms.size
  · rw [h.grows.term_eq hKnown]
  · obtain ⟨added, hAdded, hNone⟩ := h.terms
    have hLe : s.terms.terms.toList.length ≤ id.index := Nat.le_of_not_lt hKnown
    have hOld : s.terms.terms[id.index]? = none := Array.getElem?_eq_none hLe
    have hNew : s'.terms.terms[id.index]? = added[id.index - s.terms.terms.toList.length]? := by
      rw [← Array.getElem?_toList, hAdded, getElem?_append_right hLe]
    rw [term, term, Arena.get, Arena.get, hOld, hNew]
    cases hTerm : added[id.index - s.terms.terms.toList.length]? with
    | none => rfl
    | some t => exact hNone t (mem_of_getElem? hTerm)

/-- A value given to a local concerns no global. -/
theorem calm_define_bound (s : Inference) (symbol : SymbolId) (value : TermId)
    (inFunction : Bool) : s.Calm (s.define (.bound symbol) value inFunction) :=
  (s.calm_nameValue value _ true).trans (calm_pushDefinition _ symbol _)

/-- A value given to a global is one more definition of it, and nothing else. -/
theorem origins_define_global (s : Inference) (name : String) (value : TermId)
    (inFunction : Bool) (other : String) :
    (s.define (.global name) value inFunction).origins other =
      s.origins other ++ if name = other then [(s.current, inFunction)] else [] := by
  obtain ⟨tables, functions, hEq⟩ := s.exists_nameValue_eq value name false
  rw [define, hEq, origins, origins, definitionsOf, pushDefinition]
  by_cases hName : name = other
  · subst hName
    simp [OrderedMap.get_push, definitionsOf, noteGlobal, modifyModule, Definition.origin]
  · have hOther : other ≠ name := fun h => hName h.symm
    simp [OrderedMap.get_push, definitionsOf, noteGlobal, modifyModule, hName, hOther]

/-- An assignment to what refers to no global concerns no names. -/
theorem calm_addAssignment (s : Inference) {target : TermId}
    (h : ∀ name, (s.term target).ident? ≠ some (.global name)) (value : TermId)
    (inFunction : Bool) : s.Calm (s.addAssignment target value inFunction) := by
  have hGiven := s.calm_assignedValue target value
  have hIdent := hGiven.ident?_term target
  rw [addAssignment]
  revert hGiven hIdent
  generalize s.assignedValue target value = made
  obtain ⟨given, s'⟩ := made
  intro hGiven hIdent
  refine hGiven.trans ?_
  dsimp only at hIdent ⊢
  split
  · rename_i ident hTerm
    rw [hTerm] at hIdent
    cases ident with
    | bound symbol => exact s'.calm_define_bound symbol given inFunction
    | global name => exact absurd hIdent.symm (h name)
  · exact s'.calm_addField _ _ given inFunction
  · split
    · exact s'.calm_addField _ _ given inFunction
    · exact .refl s'
  · exact .refl s'

/-- An assignment to what refers to a global defines it, after a calm change. -/
theorem exists_addAssignment_global (s : Inference) {target : TermId} {name : String}
    (h : (s.term target).ident? = some (.global name)) (value : TermId) (inFunction : Bool) :
    ∃ s' given, s.Calm s' ∧
      s.addAssignment target value inFunction = s'.define (.global name) given inFunction := by
  have hGiven := s.calm_assignedValue target value
  have hIdent := hGiven.ident?_term target
  rw [h] at hIdent
  refine ⟨(s.assignedValue target value).2, (s.assignedValue target value).1, hGiven, ?_⟩
  rw [addAssignment]
  cases hTerm : (s.assignedValue target value).2.term target with
  | reference ident =>
    rw [hTerm] at hIdent
    cases hIdent
    dsimp only
    rw [hTerm]
  | _ =>
    rw [hTerm] at hIdent
    cases hIdent

/-- No report takes a number from what is there. -/
theorem grows_tell (s : Inference) (report : Report) : s.Grows (s.tell report) := by
  cases report with
  | term t => exact .alloc s t
  | binding kind name => exact .mint s kind name
  | assignment target value inFunction =>
    by_cases hGlobal : ∃ name, (s.term target).ident? = some (.global name)
    · obtain ⟨name, hName⟩ := hGlobal
      obtain ⟨s', given, hCalm, hEq⟩ := s.exists_addAssignment_global hName value inFunction
      obtain ⟨tables, functions, modules, definitions, hDefine⟩ :=
        s'.exists_define_eq (.global name) given inFunction
      rw [tell, hEq, hDefine]
      exact hCalm.grows.trans (.of_eq rfl rfl)
    · exact (s.calm_addAssignment (not_exists.1 hGlobal) value inFunction).grows
  | require argument => exact (s.quiet_resolveRequire argument).grows
  | moduleLevel => exact .of_eq rfl rfl
  | _ => exact (s.calm_tell (by trivial)).grows

/-- No report but a require changes the outline. -/
theorem outline_tell (s : Inference) {report : Report}
    (h : ∀ argument, report ≠ .require argument) : (s.tell report).outline = s.outline := by
  cases report with
  | require argument => exact absurd rfl (h argument)
  | term | binding | moduleLevel => rfl
  | assignment target value inFunction =>
    by_cases hGlobal : ∃ name, (s.term target).ident? = some (.global name)
    · obtain ⟨name, hName⟩ := hGlobal
      obtain ⟨s', given, hCalm, hEq⟩ := s.exists_addAssignment_global hName value inFunction
      have hNamed := hCalm.trans (s'.calm_nameValue given name false)
      have hNoted : ((s'.nameValue given name false).noteGlobal name given).outline = s.outline := by
        rw [noteGlobal, outline_modifyModule, hNamed.outline_eq]
        exact fun _ => rfl
      rw [tell, hEq]
      exact hNoted
    · exact (s.calm_addAssignment (not_exists.1 hGlobal) value inFunction).outline_eq
  | _ => exact (s.calm_tell (by trivial)).outline_eq

end Inference

/-- Reports only add diagnostics to the outline: that a require was early. -/
theorem Told.outline {P : Report → Prop} {s s' : Inference} (h : Told P s s') :
    ∃ new, s'.outline = s.outline.report new ∧
      ∀ d ∈ new, ∃ argument, P (.require argument) ∧
        s.outline.Early (ModuleName.ofRequire argument) d := by
  induction h with
  | refl => exact ⟨[], by simp, by simp⟩
  | @tail s' report hReport _ ih =>
    obtain ⟨new, hNew, hEarly⟩ := ih
    by_cases hKind : ∃ argument, report = .require argument
    · obtain ⟨argument, rfl⟩ := hKind
      obtain ⟨more, hMore, hMoreEarly⟩ := s'.outline_require argument
      refine ⟨new ++ more, ?_, ?_⟩
      · show (s'.resolveRequire argument).2.outline = _
        rw [hMore, hNew, Outline.report_report]
      · intro d hd
        rcases mem_append.1 hd with hd | hd
        · exact hEarly d hd
        · have hThen := hMoreEarly d hd
          rw [hNew, Outline.early_report] at hThen
          exact ⟨argument, hReport, hThen⟩
    · refine ⟨new, ?_, hEarly⟩
      rw [s'.outline_tell (fun argument h => hKind ⟨argument, h⟩), hNew]

end LuaShape
