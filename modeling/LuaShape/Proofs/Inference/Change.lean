import LuaShape.Inference.Event

/-!
# Elementary changes of what is known

Everything that reading does to an inference is made of a few elementary changes:
terms, bindings, tables and definitions are added, tables are named, become classes or
instances, and values are stored in fields.  `Change` lists them, each with what holds
where it occurs.  An invariant of reading is then an invariant of these changes.

A value may be stored in a field only while it is *fresh*, that is, stored nowhere.
Literals of UI classes are left out of this, since every target of a call that makes
such a class is given the same literal.

Main results: `Change.fate`, what becomes of a table, and `Change.storing`, what becomes
of the stored values.
-/

namespace LuaShape

open List

namespace ClassInfo

/-- A later description of the same class. -/
structure Grows (c c' : ClassInfo) : Prop where
  isClosure : c.isClosure = true → c'.isClosure = true
  isAtomUi : c.isAtomUi = true → c'.isAtomUi = true

end ClassInfo

namespace TableRecord

/-- The values stored under a key. -/
def stored (t : TableRecord) (key : String) : List TermId :=
  (t.fields.get key).map Definition.value

/-- Whether a table is a class built by a function. -/
def isClosure (t : TableRecord) : Bool := (t.classInfo.map ClassInfo.isClosure).getD false

/-- Whether a table is a class of the UI node framework. -/
def isAtomUi (t : TableRecord) : Bool := (t.classInfo.map ClassInfo.isAtomUi).getD false

/-- Whether a table is a class or an instance. -/
def isSettled (t : TableRecord) : Bool := t.isClass || t.instanceOf.isSome

/-- Every key has a definition. -/
def IsFilled (fields : OrderedMap String (List Definition)) : Prop :=
  ∀ key, fields.find? key ≠ some []

theorem IsFilled.upsert {fields : OrderedMap String (List Definition)} (h : IsFilled fields)
    (key : String) {defs : List Definition} (hDefs : defs ≠ []) :
    IsFilled (fields.upsert key fun old => old.getD [] ++ defs) := by
  intro other
  rw [OrderedMap.find?_upsert]
  split
  · simp [hDefs]
  · exact h other

theorem IsFilled.appendFields {fields : OrderedMap String (List Definition)}
    (h : IsFilled fields) (added : List (String × List Definition)) :
    IsFilled (Inference.appendFields fields added) := by
  induction added generalizing fields with
  | nil => exact h
  | cons entry rest ih =>
    obtain ⟨key, defs⟩ := entry
    cases defs with
    | nil => exact ih h
    | cons d ds => exact ih (h.upsert key (cons_ne_nil d ds))

/-- A later record of the same table. -/
structure Grows (t t' : TableRecord) : Prop where
  id_eq : t'.id = t.id
  module_eq : t'.module = t.module
  isSettled : t.isSettled = true → t'.isSettled = true
  isClosure : t.isClosure = true → t'.isClosure = true
  isAtomUi : t.isAtomUi = true → t'.isAtomUi = true
  isFilled : IsFilled t.fields → IsFilled t'.fields

/-- The records differ in nothing but the keys of the constructor, the base, the
container and whether a derived class has taken the place of the table. -/
def Relabelled (t t' : TableRecord) : Prop :=
  ∃ literalKeys base containedIn isSuperseded,
    t' = { t with literalKeys, base, containedIn, isSuperseded }

namespace Grows

theorem refl (t : TableRecord) : t.Grows t :=
  ⟨rfl, rfl, fun h => h, fun h => h, fun h => h, fun h => h⟩

theorem trans {t t' t'' : TableRecord} (h : t.Grows t') (h' : t'.Grows t'') : t.Grows t'' where
  id_eq := h'.id_eq.trans h.id_eq
  module_eq := h'.module_eq.trans h.module_eq
  isSettled := h'.isSettled ∘ h.isSettled
  isClosure := h'.isClosure ∘ h.isClosure
  isAtomUi := h'.isAtomUi ∘ h.isAtomUi
  isFilled := h'.isFilled ∘ h.isFilled

theorem of_relabelled {t t' : TableRecord} (h : t.Relabelled t') : t.Grows t' := by
  obtain ⟨_, _, _, _, rfl⟩ := h
  exact ⟨rfl, rfl, fun h => h, fun h => h, fun h => h, fun h => h⟩

/-- Becoming an instance, with other fields. -/
theorem instanceOf (t : TableRecord) (owner : TableId) :
    t.Grows { t with instanceOf := some owner } :=
  ⟨rfl, rfl, fun _ => by simp [TableRecord.isSettled], fun h => h, fun h => h, fun h => h⟩

theorem fields (t : TableRecord) {fields : OrderedMap String (List Definition)}
    (h : IsFilled t.fields → IsFilled fields) : t.Grows { t with fields } :=
  ⟨rfl, rfl, fun h => h, fun h => h, fun h => h, h⟩

/-- Becoming a class, or staying one. -/
theorem classInfo (t : TableRecord) (new : ClassInfo) {f : ClassInfo → ClassInfo}
    (hf : ∀ c : ClassInfo, c.Grows (f c)) :
    t.Grows { t with classInfo := some (f (t.classInfo.getD new)) } := by
  refine ⟨rfl, rfl, fun _ => rfl, fun h => ?_, fun h => ?_, fun h => h⟩
  · cases hInfo : t.classInfo with
    | none => simp [TableRecord.isClosure, hInfo] at h
    | some c =>
      simp only [TableRecord.isClosure, hInfo, Option.map_some, Option.getD_some] at h ⊢
      exact (hf c).isClosure h
  · cases hInfo : t.classInfo with
    | none => simp [TableRecord.isAtomUi, hInfo] at h
    | some c =>
      simp only [TableRecord.isAtomUi, hInfo, Option.map_some, Option.getD_some] at h ⊢
      exact (hf c).isAtomUi h

end Grows

end TableRecord

namespace Inference

/-! ## Stored values -/

/-- The values stored under a key of a table. -/
def stored (s : Inference) (id : TableId) (key : String) : List TermId :=
  ((s.table? id).map fun t => t.stored key).getD []

/-- A value is stored in some field. -/
def Stored (s : Inference) (value : TermId) : Prop := ∃ id key, value ∈ s.stored id key

/-- Whether a term is a literal of a UI class. -/
def isUiLiteral (s : Inference) (value : TermId) : Bool :=
  (((s.terms.tableLiteral? value).bind s.table?).map TableRecord.isAtomUi).getD false

/-- A value is stored nowhere, unless it is a literal of a UI class. -/
def Fresh (s : Inference) (value : TermId) : Prop :=
  s.Stored value → s.isUiLiteral value = true

/-- A term is no literal of a table, or of one made in the module being read. -/
def IsHere (s : Inference) (value : TermId) : Prop :=
  ∀ id, s.terms.tableLiteral? value = some id →
    ∃ t, s.table? id = some t ∧ t.module = s.current

theorem stored_eq_of_table? {s s' : Inference} {x : TableId} (h : s'.table? x = s.table? x)
    (key : String) : s'.stored x key = s.stored x key := by
  rw [stored, stored, h]

/-! ## Changes -/

/-- An elementary change of what is known.  `P` says which values may be stored. -/
inductive Change (P : TermId → Prop) : Inference → Inference → Prop
  | alloc {s : Inference} (t : Term) : Change P s (s.alloc t).2
  | mint {s : Inference} (kind : SymbolKind) (name : String) :
      Change P s { s with registry := (s.registry.mint kind name).2 }
  | aside {s : Inference} (functions : OrderedMap FunctionId FunctionRecord)
      (usages : OrderedMap UsageKey TypeSet) (moduleLevel : List SymbolId)
      (calls : List CallSite) (argumentsKnown : Bool) (diagnostics : List Diagnostic) :
      Change P s { s with functions, usages, moduleLevel, calls, argumentsKnown, diagnostics }
  | newTable {s : Inference} (hint : String) : Change P s (s.newTable hint).2
  | newFunction {s : Inference} (name : Option String) : Change P s (s.newFunction name).2
  | relabel {s : Inference} (id : TableId) (f : TableRecord → TableRecord)
      (hf : ∀ t : TableRecord, t.Relabelled (f t)) : Change P s (s.modifyTable id f)
  | promote {s : Inference} (id : TableId) (name : Option String) (f : ClassInfo → ClassInfo)
      (hf : ∀ c : ClassInfo, c.Grows (f c)) : Change P s (s.promoteClass id name f)
  | define {s : Inference} (ident : Ident) (value : TermId) (inFunction : Bool)
      (hKnown : value.index < s.terms.size) (hHere : s.IsHere value) :
      Change P s (s.define ident value inFunction)
  | bind {s : Inference} (symbol : SymbolId) (d : Definition) :
      Change P s (s.pushDefinition (.bound symbol) d)
  | modifyModule {s : Inference} (f : ModuleRecord → ModuleRecord)
      (hName : ∀ m, (f m).name = m.name) (hBucket : ∀ m, (f m).bucket = m.bucket)
      (hGlobals : ∀ m, (f m).globals = m.globals) : Change P s (s.modifyModule f)
  | attach {s : Inference} (id : TableId) (key : String) (value : TermId)
      (inFunction onInstance inConstructor : Bool) (hFresh : s.Fresh value)
      (hKnown : value.index < s.terms.size) (hValue : P value ∨ s.isUiLiteral value = true) :
      Change P s (s.attachField id key value inFunction onInstance inConstructor)
  /-- A table that is neither a class nor an instance becomes an instance. -/
  | makeInstance {s : Inference} {id owner : TableId} {t : TableRecord}
      (hTable : s.table? id = some t) (hSettled : t.isSettled = false) (hOwner : id ≠ owner) :
      Change P s ((s.promoteClass owner none fun c => c).makeInstance id owner false)
  /-- A table becomes an instance of a class built by a function. -/
  | build {s : Inference} {id owner : TableId} (base : Option TableId) (name : String)
      (hOwner : id ≠ owner) :
      Change P s
        (((s.makeInstance id owner true).modifyTable owner fun t =>
          { t with base := t.base.or base }).promoteClass owner (some name) fun c =>
            { c with isClosure := true })

theorem Change.mono {P Q : TermId → Prop} (h : ∀ v, P v → Q v) {s s' : Inference}
    (hChange : Change P s s') : Change Q s s' := by
  cases hChange with
  | alloc t => exact .alloc t
  | mint kind name => exact .mint kind name
  | aside => exact .aside _ _ _ _ _ _
  | newTable hint => exact .newTable hint
  | newFunction name => exact .newFunction name
  | relabel id f hf => exact .relabel id f hf
  | promote id name f hf => exact .promote id name f hf
  | define ident value inFunction hKnown hHere =>
    exact .define ident value inFunction hKnown hHere
  | bind symbol d => exact .bind symbol d
  | modifyModule f hName hBucket hGlobals => exact .modifyModule f hName hBucket hGlobals
  | attach id key value _ _ _ hFresh hKnown hValue =>
    exact .attach id key value _ _ _ hFresh hKnown (hValue.imp_left (h value))
  | makeInstance hTable hSettled hOwner => exact .makeInstance hTable hSettled hOwner
  | build base name hOwner => exact .build base name hOwner

/-! ## Parts that are left alone -/

theorem exists_resolveRequire_eq (s : Inference) (argument : String) :
    ∃ diagnostics, (s.resolveRequire argument).2 = { s with diagnostics } := by
  unfold resolveRequire
  split
  · exact ⟨s.diagnostics, rfl⟩
  · dsimp only
    split
    · exact ⟨s.diagnostics, rfl⟩
    · exact ⟨_, rfl⟩

theorem exists_makeInstance_eq (s : Inference) (id owner : TableId) (withFunctions : Bool) :
    ∃ tables, s.makeInstance id owner withFunctions = { s with tables } := by
  rw [makeInstance]
  split <;> exact ⟨_, rfl⟩

theorem exists_nameValue_eq (s : Inference) (value : TermId) (name : String) (isLocal : Bool) :
    ∃ tables functions, s.nameValue value name isLocal = { s with tables, functions } := by
  rw [nameValue]
  split <;> exact ⟨_, _, rfl⟩

theorem exists_placeValue_eq (s : Inference) (id : TableId) (key : String) (value : TermId) :
    ∃ tables functions, s.placeValue id key value = { s with tables, functions } := by
  rw [placeValue]
  split
  · split <;> exact ⟨_, _, rfl⟩
  · exact ⟨_, _, rfl⟩
  · exact ⟨_, _, rfl⟩

theorem exists_define_eq (s : Inference) (ident : Ident) (value : TermId) (inFunction : Bool) :
    ∃ tables functions modules definitions,
      s.define ident value inFunction = { s with tables, functions, modules, definitions } := by
  cases ident with
  | bound symbol =>
    obtain ⟨_, _, h⟩ := s.exists_nameValue_eq value ((s.registry.nameOf? symbol).getD "") true
    rw [define, h]
    exact ⟨_, _, _, _, rfl⟩
  | global name =>
    obtain ⟨_, _, h⟩ := s.exists_nameValue_eq value name false
    rw [define, h]
    exact ⟨_, _, _, _, rfl⟩

theorem exists_attachField_eq (s : Inference) (id : TableId) (key : String) (value : TermId)
    (inFunction onInstance inConstructor : Bool) :
    ∃ tables functions, s.attachField id key value inFunction onInstance inConstructor =
      { s with tables, functions } := by
  obtain ⟨_, _, h⟩ := s.exists_placeValue_eq id key value
  rw [attachField, h]
  exact ⟨_, _, rfl⟩

/-! ## Look-up of tables -/

theorem table?_modifyTable (s : Inference) (id x : TableId) (f : TableRecord → TableRecord) :
    (s.modifyTable id f).table? x = if x = id then (s.table? x).map f else s.table? x :=
  OrderedMap.find?_modify s.tables id x f

theorem table?_newTable (s : Inference) (hint : String) (x : TableId) :
    (s.newTable hint).2.table? x =
      if x = ⟨s.registry.size⟩ then some { id := x, module := s.current } else s.table? x := by
  show (s.tables.insert _ _).find? x = _
  rw [OrderedMap.insert, OrderedMap.find?_upsert]
  split
  · rename_i hx
    rw [hx]
  · rfl

/-- A new table belongs to the module being read. -/
theorem table?_newTable_self (s : Inference) (hint : String) :
    (s.newTable hint).2.table? (s.newTable hint).1 =
      some { id := (s.newTable hint).1, module := s.current } := by
  rw [table?_newTable]
  exact if_pos rfl

theorem newTable_lt (s : Inference) (hint : String) :
    (s.newTable hint).1.index < (s.newTable hint).2.registry.size := by
  show s.registry.size < (s.registry.mint .table hint).2.size
  rw [Registry.size_mint]
  exact Nat.lt_succ_self _

/-- The record of a table that becomes a class. -/
def promoted (s : Inference) (id : TableId) (name : Option String) (f : ClassInfo → ClassInfo) :
    TableRecord :=
  let record := (s.table? id).getD { id, module := s.current }
  { record with
    classInfo := some (f (record.classInfo.getD { name := name.getD (s.tableName id) })) }

theorem table?_promoteClass (s : Inference) (id x : TableId) (name : Option String)
    (f : ClassInfo → ClassInfo) :
    (s.promoteClass id name f).table? x =
      if x = id then some (s.promoted id name f) else s.table? x :=
  OrderedMap.find?_upsert s.tables id x _

/-! ## What becomes of a table -/

/-- What becomes of a table: it is kept, or it is made. -/
inductive Fate (s : Inference) (x : TableId) : Option TableRecord → Option TableRecord → Prop
  | unknown : Fate s x none none
  | kept {t t' : TableRecord} (h : t.Grows t') : Fate s x (some t) (some t')
  | made {t' : TableRecord} (hId : t'.id = x) (hModule : t'.module = s.current)
      (hFilled : TableRecord.IsFilled t'.fields) : Fate s x none (some t')

namespace Fate

variable {s s' : Inference} {x : TableId} {old mid new : Option TableRecord}

theorem refl (s : Inference) (x : TableId) (old : Option TableRecord) : Fate s x old old := by
  cases old with
  | none => exact .unknown
  | some t => exact .kept (.refl t)

theorem trans (h : Fate s x old mid) (h' : Fate s' x mid new) (hCurrent : s'.current = s.current) :
    Fate s x old new := by
  cases h' with
  | unknown => exact h
  | kept hGrows =>
    cases h with
    | kept h => exact .kept (h.trans hGrows)
    | made hId hModule hFilled =>
      exact .made (hGrows.id_eq.trans hId) (hGrows.module_eq.trans hModule)
        (hGrows.isFilled hFilled)
  | made hId hModule hFilled =>
    cases h with
    | unknown => exact .made hId (hModule.trans hCurrent) hFilled

/-- A known table is kept. -/
theorem exists_grows {t : TableRecord} (h : Fate s x (some t) new) :
    ∃ t', new = some t' ∧ t.Grows t' := by
  cases h with
  | kept hGrows => exact ⟨_, rfl, hGrows⟩

theorem isFilled {t' : TableRecord} (h : Fate s x old (some t'))
    (hOld : ∀ t, old = some t → TableRecord.IsFilled t.fields) :
    TableRecord.IsFilled t'.fields := by
  cases h with
  | kept hGrows => exact hGrows.isFilled (hOld _ rfl)
  | made _ _ hFilled => exact hFilled

end Fate

/-- Changing the record of a table. -/
theorem fate_modifyTable (s : Inference) (id x : TableId) {f : TableRecord → TableRecord}
    (hf : ∀ t : TableRecord, t.Grows (f t)) :
    Fate s x (s.table? x) ((s.modifyTable id f).table? x) := by
  rw [table?_modifyTable]
  split
  · cases s.table? x with
    | none => exact .unknown
    | some t => exact .kept (hf t)
  · exact .refl s x _

theorem fate_promoteClass (s : Inference) (id x : TableId) (name : Option String)
    {f : ClassInfo → ClassInfo} (hf : ∀ c : ClassInfo, c.Grows (f c)) :
    Fate s x (s.table? x) ((s.promoteClass id name f).table? x) := by
  rw [table?_promoteClass]
  split
  · rename_i hx
    subst hx
    rw [promoted]
    cases s.table? x with
    | none => exact .made rfl rfl fun _ => by simp
    | some t => exact .kept (.classInfo t _ hf)
  · exact .refl s x _

theorem fate_makeInstance (s : Inference) (id owner x : TableId) (withFunctions : Bool) :
    Fate s x (s.table? x) ((s.makeInstance id owner withFunctions).table? x) := by
  rw [makeInstance]
  split
  · exact .refl s x _
  · exact (s.fate_modifyTable id x fun t => .instanceOf t owner).trans
      (fate_modifyTable _ owner x fun t => .fields t fun h => h.appendFields _) rfl

/-- Naming a value changes at most the name of a table. -/
theorem fate_nameValue (s : Inference) (value : TermId) (name : String) (isLocal : Bool)
    (x : TableId) : Fate s x (s.table? x) ((s.nameValue value name isLocal).table? x) := by
  rw [nameValue]
  split
  · refine s.fate_modifyTable _ x fun t => ?_
    split
    · exact ⟨rfl, rfl, fun h => h, fun h => h, fun h => h, fun h => h⟩
    · exact .refl t
  · exact .refl s x _
  · exact .refl s x _

/-- Placing a value changes at most the container of a table. -/
theorem table?_placeValue (s : Inference) (id : TableId) (key : String) (value : TermId)
    (x : TableId) :
    (s.placeValue id key value).table? x = s.table? x ∨
      ∃ t t', s.table? x = some t ∧ (s.placeValue id key value).table? x = some t' ∧
        t.Relabelled t' := by
  rw [placeValue]
  split
  · rename_i inner _
    split
    · exact .inl rfl
    · rw [table?_modifyTable]
      split
      · cases s.table? x with
        | none => exact .inl rfl
        | some t =>
          refine .inr ⟨t, _, rfl, rfl, ?_⟩
          dsimp only
          split <;> exact ⟨_, _, _, _, rfl⟩
      · exact .inl rfl
  · exact .inl rfl
  · exact .inl rfl

theorem fate_placeValue (s : Inference) (id : TableId) (key : String) (value : TermId)
    (x : TableId) : Fate s x (s.table? x) ((s.placeValue id key value).table? x) := by
  rcases s.table?_placeValue id key value x with h | ⟨t, t', ht, ht', h⟩
  · rw [h]
    exact .refl s x _
  · rw [ht, ht']
    exact .kept (.of_relabelled h)

theorem fate_attachField (s : Inference) (id : TableId) (key : String) (value : TermId)
    (inFunction onInstance inConstructor : Bool) (x : TableId) :
    Fate s x (s.table? x)
      ((s.attachField id key value inFunction onInstance inConstructor).table? x) := by
  obtain ⟨_, _, hPlace⟩ := s.exists_placeValue_eq id key value
  refine (s.fate_placeValue id key value x).trans
    (fate_modifyTable _ id x fun t => .fields t fun h => h.upsert key (cons_ne_nil _ [])) ?_
  rw [hPlace]

variable {P : TermId → Prop} {id owner : TableId}

/-- What a change makes of a table.  Only a number that has not been given yet is given
to a new table. -/
theorem Change.fate {s s' : Inference} (h : Change P s s') (x : TableId) :
    Fate s x (s.table? x) (s'.table? x) ∨
      s.registry.size ≤ x.index ∧ s'.table? x = some { id := x, module := s.current } := by
  cases h with
  | alloc | mint | aside | newFunction | bind | modifyModule => exact .inl (.refl s x _)
  | newTable hint =>
    rw [table?_newTable]
    split
    · rename_i hx
      exact .inr ⟨Nat.le_of_eq (congrArg TableId.index hx.symm), rfl⟩
    · exact .inl (.refl s x _)
  | relabel id f hf => exact .inl (s.fate_modifyTable id x fun t => .of_relabelled (hf t))
  | promote id name f hf => exact .inl (s.fate_promoteClass id x name hf)
  | define ident value inFunction =>
    cases ident with
    | bound symbol => exact .inl (s.fate_nameValue value _ true x)
    | global name => exact .inl (s.fate_nameValue value name false x)
  | attach id key value inFunction onInstance inConstructor =>
    exact .inl (s.fate_attachField id key value inFunction onInstance inConstructor x)
  | makeInstance =>
    exact .inl ((s.fate_promoteClass _ x none fun c => ⟨fun h => h, fun h => h⟩).trans
      (fate_makeInstance _ _ _ x false) rfl)
  | @build id owner base name =>
    have hMade := s.fate_makeInstance id owner x true
    obtain ⟨tables, hEq⟩ := s.exists_makeInstance_eq id owner true
    rw [hEq] at hMade ⊢
    refine .inl (.trans (.trans hMade (fate_modifyTable _ owner x fun t => ?_) rfl)
      (fate_promoteClass _ owner x (some name) fun c => ?_) rfl)
    · exact .of_relabelled ⟨_, _, _, _, rfl⟩
    · exact ⟨fun _ => rfl, fun h => h⟩

/-! ## What becomes of stored values -/

/-- Adding definitions key by key, where no key occurs twice. -/
theorem get_appendFields (fields : OrderedMap String (List Definition))
    (added : List (String × List Definition)) (hAdded : (added.map Prod.fst).Nodup)
    (key : String) :
    (appendFields fields added).get key =
      fields.get key ++ (OrderedMap.lookup key added).getD [] := by
  induction added generalizing fields with
  | nil => simp [appendFields, OrderedMap.lookup]
  | cons entry rest ih =>
    obtain ⟨other, defs⟩ := entry
    rw [map_cons, nodup_cons] at hAdded
    have hRest : other = key → (OrderedMap.lookup key rest).getD [] = [] := by
      rintro rfl
      cases hFound : OrderedMap.lookup other rest with
      | none => rfl
      | some found =>
        rw [OrderedMap.lookup_eq_some_iff hAdded.2] at hFound
        exact absurd (mem_map_of_mem hFound) hAdded.1
    cases defs with
    | nil =>
      rw [appendFields, ih fields hAdded.2, OrderedMap.lookup]
      split
      · rename_i hSame
        rw [hRest hSame]
        rfl
      · rfl
    | cons d ds =>
      rw [appendFields, ih _ hAdded.2, OrderedMap.lookup, OrderedMap.get,
        OrderedMap.find?_upsert]
      by_cases hSame : other = key
      · rw [hRest hSame, if_pos hSame.symm, if_pos hSame, hSame]
        simp [OrderedMap.get]
      · rw [if_neg (Ne.symm hSame), if_neg hSame]
        rfl

/-- The values that an instance hands to its class are among its own. -/
theorem inheritedDefinitions_sublist (s : Inference) (withFunctions : Bool)
    (defs : List Definition) :
    ((s.inheritedDefinitions withFunctions defs).map Definition.value).Sublist
      (defs.map Definition.value) := by
  induction defs with
  | nil => exact .slnil
  | cons d rest ih =>
    rw [inheritedDefinitions, filterMap_cons]
    split
    · exact ih.cons _
    · rename_i d' hd'
      have hValue : d'.value = d.value := by
        split at hd'
        · split at hd' <;> cases hd'
          rfl
        · cases hd'
          rfl
      rw [map_cons, map_cons, hValue]
      exact ih.cons_cons _

theorem getD_lookup_inherited (s : Inference) (withFunctions : Bool) (key : String)
    (entries : List (String × List Definition)) :
    (OrderedMap.lookup key (entries.map fun entry =>
      (entry.1, s.inheritedDefinitions withFunctions entry.2))).getD [] =
      s.inheritedDefinitions withFunctions ((OrderedMap.lookup key entries).getD []) := by
  induction entries with
  | nil => rfl
  | cons entry rest ih =>
    simp only [map_cons, OrderedMap.lookup]
    split
    · rfl
    · exact ih

theorem stored_modifyTable (s : Inference) (id x : TableId) {f : TableRecord → TableRecord}
    (hf : ∀ t, (f t).fields = t.fields) (key : String) :
    (s.modifyTable id f).stored x key = s.stored x key := by
  rw [stored, table?_modifyTable, stored]
  split
  · cases s.table? x with
    | none => rfl
    | some t =>
      show (f t).stored key = t.stored key
      rw [TableRecord.stored, hf, TableRecord.stored]
  · rfl

theorem stored_promoteClass (s : Inference) (id x : TableId) (name : Option String)
    (f : ClassInfo → ClassInfo) (key : String) :
    (s.promoteClass id name f).stored x key = s.stored x key := by
  rw [stored, table?_promoteClass, stored]
  split
  · rename_i hx
    subst hx
    rw [promoted]
    cases s.table? x <;> rfl
  · rfl

theorem stored_nameValue (s : Inference) (value : TermId) (name : String) (isLocal : Bool)
    (x : TableId) (key : String) :
    (s.nameValue value name isLocal).stored x key = s.stored x key := by
  rw [nameValue]
  split
  · exact s.stored_modifyTable _ x (fun t => by split <;> rfl) key
  · rfl
  · rfl

theorem stored_placeValue (s : Inference) (id : TableId) (key : String) (value : TermId)
    (x : TableId) (other : String) :
    (s.placeValue id key value).stored x other = s.stored x other := by
  rcases s.table?_placeValue id key value x with h | ⟨t, t', ht, ht', _, _, _, _, rfl⟩
  · exact stored_eq_of_table? h other
  · rw [stored, stored, ht, ht']
    rfl

/-- Storing a value adds it to one field, if the table is known. -/
theorem stored_attachField (s : Inference) (id : TableId) (key : String) (value : TermId)
    (inFunction onInstance inConstructor : Bool) (x : TableId) (other : String) :
    (s.attachField id key value inFunction onInstance inConstructor).stored x other =
        s.stored x other ∨
      x = id ∧ other = key ∧
        (s.attachField id key value inFunction onInstance inConstructor).stored x other =
          s.stored x other ++ [value] := by
  rw [← s.stored_placeValue id key value x other, attachField]
  generalize s.placeValue id key value = placed
  rw [stored, table?_modifyTable, stored]
  split
  · rename_i hx
    cases placed.table? x with
    | none => exact .inl rfl
    | some t =>
      simp only [Option.map_some, Option.getD_some, TableRecord.stored, OrderedMap.get_push]
      split
      · rename_i hKey
        exact .inr ⟨hx, hKey, by simp⟩
      · exact .inl rfl
  · exact .inl rfl

/-- Making an instance adds to the fields of its class some of what the instance holds. -/
theorem stored_makeInstance (s : Inference) (id owner : TableId) (withFunctions : Bool)
    (x : TableId) (key : String) :
    (s.makeInstance id owner withFunctions).stored x key = s.stored x key ∨
      x = owner ∧ ∃ part : List TermId, part.Sublist (s.stored id key) ∧
        (s.makeInstance id owner withFunctions).stored x key = s.stored x key ++ part := by
  rw [makeInstance]
  split
  · exact .inl rfl
  · rename_i record hRecord
    dsimp only
    rw [← s.stored_modifyTable id x (fun t => rfl : ∀ t : TableRecord,
      ({ t with instanceOf := some owner } : TableRecord).fields = t.fields) key]
    generalize (s.modifyTable id fun t => { t with instanceOf := some owner }) = marked
    rw [stored, table?_modifyTable, stored]
    split
    · rename_i hx
      cases marked.table? x with
      | none => exact .inl rfl
      | some t =>
        refine .inr ⟨hx, ((s.inheritedDefinitions withFunctions (record.fields.get key)).map
          Definition.value), ?_, ?_⟩
        · rw [stored, hRecord]
          exact s.inheritedDefinitions_sublist withFunctions _
        · have hKeys : ((record.fields.entries.map fun entry =>
              (entry.1, s.inheritedDefinitions withFunctions entry.2)).map Prod.fst).Nodup := by
            rw [map_map]
            exact record.fields.distinct
          show ((appendFields t.fields _).get key).map Definition.value = _
          rw [get_appendFields _ _ hKeys, getD_lookup_inherited, map_append]
          rfl
    · exact .inl rfl

/-- What a change does to stored values: nothing, or it stores one value, or it copies
what one table holds to another one. -/
inductive Storing (P : TermId → Prop) (s s' : Inference) : Prop
  | kept (h : ∀ x key, s'.stored x key = s.stored x key ∨
      s.registry.size ≤ x.index ∧ s'.stored x key = [])
  | attached (id : TableId) (key : String) (value : TermId) (hFresh : s.Fresh value)
      (hKnown : value.index < s.terms.size) (hValue : P value ∨ s.isUiLiteral value = true)
      (h : ∀ x other, s'.stored x other = s.stored x other ∨
        x = id ∧ other = key ∧ s'.stored x other = s.stored x other ++ [value])
  | copied (id owner : TableId) (hOwner : id ≠ owner)
      (h : ∀ x key, s'.stored x key = s.stored x key ∨
        x = owner ∧ ∃ part : List TermId, part.Sublist (s.stored id key) ∧
          s'.stored x key = s.stored x key ++ part)
      (hInstance : ∀ t, s'.table? id = some t → t.isSettled = true)
      (hClass : ∀ t, s'.table? owner = some t → t.isSettled = true)
      (hApart : (∀ t, s.table? id = some t → t.isSettled = false) ∨
        ∀ t, s'.table? owner = some t → t.isClosure = true)

/-- The first table of `makeInstance` becomes an instance. -/
theorem isSettled_makeInstance (s : Inference) {t : TableRecord} (withFunctions : Bool)
    (hOwner : id ≠ owner) (h : (s.makeInstance id owner withFunctions).table? id = some t) :
    t.isSettled = true := by
  rw [makeInstance] at h
  split at h
  · rename_i hNone
    rw [hNone] at h
    cases h
  · rename_i record hRecord
    rw [table?_modifyTable, if_neg hOwner, table?_modifyTable, if_pos rfl, hRecord] at h
    cases h
    simp [TableRecord.isSettled]

/-- A table that is made a class and its instance another one. -/
theorem storing_makeInstance {s : Inference} {t : TableRecord} (hTable : s.table? id = some t)
    (hSettled : t.isSettled = false) (hOwner : id ≠ owner) :
    Storing P s ((s.promoteClass owner none fun c => c).makeInstance id owner false) := by
  refine .copied id owner hOwner (fun x key => ?_) (fun t => ?_) (fun t ht => ?_) (.inl ?_)
  · have hCopied :=
      (s.promoteClass owner none fun c => c).stored_makeInstance id owner false x key
    simpa only [stored_promoteClass] using hCopied
  · exact isSettled_makeInstance _ false hOwner
  · have hFate := (s.promoteClass owner none fun c => c).fate_makeInstance id owner owner false
    rw [table?_promoteClass, if_pos rfl] at hFate
    obtain ⟨t', ht', hGrows⟩ := hFate.exists_grows
    rw [ht] at ht'
    cases ht'
    exact hGrows.isSettled rfl
  · rintro _ hOther
    rw [hTable] at hOther
    cases hOther
    exact hSettled

theorem storing_build (s : Inference) (base : Option TableId) (name : String)
    (hOwner : id ≠ owner) :
    Storing P s
      (((s.makeInstance id owner true).modifyTable owner fun t =>
        { t with base := t.base.or base }).promoteClass owner (some name) fun c =>
          { c with isClosure := true }) := by
  refine .copied id owner hOwner (fun x key => ?_) (fun t ht => ?_) (fun t ht => ?_)
    (.inr fun t ht => ?_)
  · rw [stored_promoteClass, stored_modifyTable]
    · exact s.stored_makeInstance id owner true x key
    · exact fun _ => rfl
  · rw [table?_promoteClass, if_neg hOwner, table?_modifyTable, if_neg hOwner] at ht
    exact isSettled_makeInstance s true hOwner ht
  · rw [table?_promoteClass, if_pos rfl] at ht
    cases ht
    rfl
  · rw [table?_promoteClass, if_pos rfl] at ht
    cases ht
    rfl

/-- What a change does to stored values. -/
theorem Change.storing {s s' : Inference} (h : Change P s s') : Storing P s s' := by
  cases h with
  | alloc | mint | aside | newFunction | bind | modifyModule => exact .kept fun _ _ => .inl rfl
  | newTable hint =>
    refine .kept fun x key => ?_
    rw [stored, table?_newTable, stored]
    split
    · rename_i hx
      exact .inr ⟨Nat.le_of_eq (congrArg TableId.index hx.symm), rfl⟩
    · exact .inl rfl
  | relabel id f hf =>
    refine .kept fun x key => .inl (s.stored_modifyTable id x (fun t => ?_) key)
    obtain ⟨_, _, _, _, hEq⟩ := hf t
    rw [hEq]
  | promote id name f hf => exact .kept fun x key => .inl (s.stored_promoteClass id x name f key)
  | define ident value inFunction =>
    cases ident with
    | bound symbol => exact .kept fun x key => .inl (s.stored_nameValue value _ true x key)
    | global name => exact .kept fun x key => .inl (s.stored_nameValue value name false x key)
  | attach id key value _ _ _ hFresh hKnown hValue =>
    exact .attached id key value hFresh hKnown hValue
      fun x other => s.stored_attachField id key value _ _ _ x other
  | makeInstance hTable hSettled hOwner => exact storing_makeInstance hTable hSettled hOwner
  | build base name hOwner => exact s.storing_build base name hOwner

end Inference

end LuaShape
