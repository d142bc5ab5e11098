import LuaShape.Proofs.Inference.Change

/-!
# Contexts without dangling numbers

Terms, tables and functions refer to each other by number.  A context *knows* a number if
something stands behind it: a term in the arena, or a table or function that has a record
and is registered as such.  A context is `Grounded` if it knows every number that it
holds.  In a grounded context a term comes behind its operands, classes stand behind the
links of instances and of constructors, and no table is an instance of itself.

A change is checked in two steps.  What was known stays known (`Later`), and the changed
context still holds only numbers that some context `w` knows (`w.Covers s`).  The second
step leaves `w` open since a change of several steps may hold a number that only its last
step makes known.  Both together say where a grounded context leads (`LeadsTo`).
-/

namespace LuaShape

open List

theorem Arena.get_alloc (a : Arena) (t : Term) (v : TermId) :
    (a.alloc t).2.get v = if v.index = a.size then t else a.get v := by
  by_cases h : v.index = a.size
  · rw [if_pos h]
    obtain ⟨index⟩ := v
    cases h
    exact a.get_alloc_self t
  · rw [if_neg h]
    simp only [size] at h
    simp [alloc, get, Array.getElem?_push, h]

namespace Registry

/-- A number has been given to something of a kind. -/
def Is (r : Registry) (kind : SymbolKind) (index : Nat) : Prop :=
  (r.record? index).map SymbolRecord.kind = some kind

theorem Is.lt {r : Registry} {kind : SymbolKind} {index : Nat} (h : r.Is kind index) :
    index < r.size := by
  refine Nat.lt_of_not_le fun hLe => ?_
  have hNone : r.record? index = none := Array.getElem?_eq_none hLe
  simp [Is, hNone] at h

theorem Is.mint {r : Registry} {kind : SymbolKind} {index : Nat} (h : r.Is kind index)
    (other : SymbolKind) (name : String) : (r.mint other name).2.Is kind index := by
  have hNe : index ≠ (r.mint other name).1 := Nat.ne_of_lt h.lt
  rw [Is, record?_mint, if_neg hNe]
  exact h

theorem is_mint (r : Registry) (kind : SymbolKind) (name : String) :
    (r.mint kind name).2.Is kind (r.mint kind name).1 := by
  rw [Is, record?_mint, if_pos rfl]
  rfl

end Registry

/-- The terms that a term is made of. -/
def Term.parts : Term → List TermId
  | .member base _ => [base]
  | .index base key => [base, key]
  | .operation _ operands => operands
  | .reference _ | .literal _ | .require _ _ _ | .vararg => []

namespace Inference

/-! ## Known numbers -/

/-- A term stands behind a number. -/
def KnowsTerm (s : Inference) (id : TermId) : Prop := id.index < s.terms.size

/-- A number has been given to a table, and the table has a record. -/
def KnowsTable (s : Inference) (x : TableId) : Prop :=
  x ∈ s.tables.keys ∧ s.registry.Is .table x.index

/-- A number has been given to a function, and the function has a record. -/
def KnowsFunction (s : Inference) (id : FunctionId) : Prop :=
  id ∈ s.functions.keys ∧ s.registry.Is .function id.index

/-- A known table that is a class. -/
def KnowsClass (s : Inference) (x : TableId) : Prop := s.KnowsTable x ∧ s.isClass x = true

/-- What was known stays known, and known terms stay what they are. -/
structure Later (s s' : Inference) : Prop where
  size_le : s.terms.size ≤ s'.terms.size
  term_eq : ∀ v, s.KnowsTerm v → s'.term v = s.term v
  table : ∀ x, s.KnowsTable x → s'.KnowsTable x
  function : ∀ id, s.KnowsFunction id → s'.KnowsFunction id
  isClass : ∀ x, s.KnowsTable x → s.isClass x = true → s'.isClass x = true

namespace Later

variable {s s' s'' : Inference}

/-- A change that leaves terms, numbers, tables and functions alone. -/
theorem of_eq (hTerms : s'.terms = s.terms) (hRegistry : s'.registry = s.registry)
    (hTables : s'.tables = s.tables) (hFunctions : s'.functions = s.functions) : s.Later s' where
  size_le := Nat.le_of_eq (congrArg Arena.size hTerms.symm)
  term_eq v _ := by rw [term, hTerms, term]
  table x hx := by rwa [KnowsTable, hTables, hRegistry]
  function id hId := by rwa [KnowsFunction, hFunctions, hRegistry]
  isClass x _ hClass := by rwa [Inference.isClass, table?, hTables]

theorem refl (s : Inference) : s.Later s := of_eq rfl rfl rfl rfl

theorem knowsTerm (h : s.Later s') {v : TermId} (hv : s.KnowsTerm v) : s'.KnowsTerm v :=
  Nat.lt_of_lt_of_le hv h.size_le

theorem knowsClass (h : s.Later s') {x : TableId} (hx : s.KnowsClass x) : s'.KnowsClass x :=
  ⟨h.table x hx.1, h.isClass x hx.1 hx.2⟩

theorem trans (h : s.Later s') (h' : s'.Later s'') : s.Later s'' where
  size_le := Nat.le_trans h.size_le h'.size_le
  term_eq v hv := (h'.term_eq v (h.knowsTerm hv)).trans (h.term_eq v hv)
  table x hx := h'.table x (h.table x hx)
  function id hId := h'.function id (h.function id hId)
  isClass x hx hClass := h'.isClass x (h.table x hx) (h.isClass x hx hClass)

end Later

/-! ## Grounded contexts -/

/-- A context knows the numbers that link a table to others. -/
structure LinksTable (w : Inference) (x : TableId) (t : TableRecord) : Prop where
  id_eq : t.id = x
  known : w.KnowsTable x
  base : ∀ y, t.base = some y → w.KnowsTable y
  /-- A table is an instance of another one, which is a class. -/
  owner : ∀ y, t.instanceOf = some y → w.KnowsClass y ∧ y ≠ x
  container : ∀ place, t.containedIn = some place → w.KnowsTable place.1

/-- A context knows the numbers in the record of a function. -/
structure LinksFunction (w : Inference) (id : FunctionId) (f : FunctionRecord) : Prop where
  id_eq : f.id = id
  known : w.KnowsFunction id
  receiver : ∀ v, f.receiver = some v → w.KnowsTerm v
  returned : ∀ v ∈ f.returns.flatten, w.KnowsTerm v
  constructs : ∀ x, f.constructs = some x → w.KnowsClass x
  object : ∀ o, f.builtObject = some o → w.KnowsTable o.table

/-- A context knows every number that a term consists of. -/
structure LinksTerm (w : Inference) (t : Term) : Prop where
  part : ∀ v ∈ t.parts, w.KnowsTerm v
  table : ∀ x, t = .literal (.table x) → w.KnowsTable x
  function : ∀ id, t = .literal (.function id) → w.KnowsFunction id

/-- The context `w` knows every number that `s` holds. -/
structure Covers (w s : Inference) : Prop where
  term : ∀ v, w.LinksTerm (s.term v)
  /-- Operands come before what they are operands of. -/
  part_lt : ∀ v, ∀ part ∈ (s.term v).parts, part.index < v.index
  definition : ∀ ident, ∀ d ∈ s.definitionsOf ident, w.KnowsTerm d.value
  stored : ∀ v, s.Stored v → w.KnowsTerm v
  table : ∀ x t, s.table? x = some t → w.LinksTable x t
  function : ∀ id f, s.function? id = some f → w.LinksFunction id f
  returned : ∀ m ∈ s.modules, ∀ d ∈ m.returns.flatten, w.KnowsTerm d.value
  call : ∀ site ∈ s.calls, w.KnowsTerm site.call
  use : ∀ key types, s.usages.find? key = some types → ∀ v, key = .term v → w.KnowsTerm v
  /-- The types that uses leave are among a few, which name nothing. -/
  allowed : ∀ key types, s.usages.find? key = some types → ∀ tag ∈ types, tag ∈ TypeSet.usageDomain

/-- A context that knows every number it holds. -/
def Grounded (s : Inference) : Prop := s.Covers s

/-- Nothing dangles behind a change, and what was known stays known. -/
structure LeadsTo (s s' : Inference) : Prop where
  later : s.Later s'
  grounded : s'.Grounded

section Mono

variable {w w' s : Inference}

theorem LinksTable.mono {x : TableId} {t : TableRecord} (h : w.LinksTable x t)
    (hLater : w.Later w') : w'.LinksTable x t where
  id_eq := h.id_eq
  known := hLater.table x h.known
  base y hy := hLater.table y (h.base y hy)
  owner y hy := ⟨hLater.knowsClass (h.owner y hy).1, (h.owner y hy).2⟩
  container place hPlace := hLater.table _ (h.container place hPlace)

theorem LinksFunction.mono {id : FunctionId} {f : FunctionRecord} (h : w.LinksFunction id f)
    (hLater : w.Later w') : w'.LinksFunction id f where
  id_eq := h.id_eq
  known := hLater.function id h.known
  receiver v hv := hLater.knowsTerm (h.receiver v hv)
  returned v hv := hLater.knowsTerm (h.returned v hv)
  constructs x hx := hLater.knowsClass (h.constructs x hx)
  object o ho := hLater.table _ (h.object o ho)

theorem LinksTerm.mono {t : Term} (h : w.LinksTerm t) (hLater : w.Later w') :
    w'.LinksTerm t where
  part v hv := hLater.knowsTerm (h.part v hv)
  table x hx := hLater.table x (h.table x hx)
  function id hId := hLater.function id (h.function id hId)

/-- What one context knows a later one knows too. -/
theorem Covers.mono (h : w.Covers s) (hLater : w.Later w') : w'.Covers s where
  term v := (h.term v).mono hLater
  part_lt := h.part_lt
  definition ident d hd := hLater.knowsTerm (h.definition ident d hd)
  stored v hv := hLater.knowsTerm (h.stored v hv)
  table x t ht := (h.table x t ht).mono hLater
  function id f hf := (h.function id f hf).mono hLater
  returned m hm d hd := hLater.knowsTerm (h.returned m hm d hd)
  call site hSite := hLater.knowsTerm (h.call site hSite)
  use key types hFound v hv := hLater.knowsTerm (h.use key types hFound v hv)
  allowed := h.allowed

end Mono

/-- A change after which all that is held is known, and what was known stays known. -/
theorem Grounded.of_later {s s' : Inference} (hs : s.Grounded) (hLater : s.Later s')
    (h : s'.Covers s → s'.Covers s') : s'.Grounded :=
  h (hs.mono hLater)

namespace LeadsTo

variable {s s' s'' : Inference}

theorem refl (hs : s.Grounded) : s.LeadsTo s := ⟨.refl s, hs⟩

theorem trans (h : s.LeadsTo s') (h' : s'.LeadsTo s'') : s.LeadsTo s'' :=
  ⟨h.later.trans h'.later, h'.grounded⟩

/-- A change of which it is known what it holds. -/
theorem of_covers (hs : s.Grounded) (hLater : s.Later s') (h : s'.Covers s → s'.Covers s') :
    s.LeadsTo s' :=
  ⟨hLater, hs.of_later hLater h⟩

end LeadsTo

/-- A term without operands that is no literal of a table or a function. -/
theorem linksTerm_of_plain {w : Inference} {t : Term} (hParts : t.parts = [])
    (hTable : ∀ x, t ≠ .literal (.table x)) (hFunction : ∀ id, t ≠ .literal (.function id)) :
    w.LinksTerm t where
  part v hv := by
    rw [hParts] at hv
    cases hv
  table x hx := absurd hx (hTable x)
  function id hId := absurd hId (hFunction id)

theorem grounded_empty (buckets : List String) : Grounded (empty buckets) where
  term _ := linksTerm_of_plain rfl (fun _ h => by cases h) fun _ h => by cases h
  part_lt _ _ h := by cases h
  definition _ _ h := by cases h
  stored _ h := by
    obtain ⟨_, _, h⟩ := h
    cases h
  table _ _ h := by cases h
  function _ _ h := by cases h
  returned _ h := by cases h
  call _ h := by cases h
  use _ _ h := by cases h
  allowed _ _ h := by cases h

namespace Grounded

variable {s : Inference}
variable {x : TableId}

variable (hs : s.Grounded)
include hs

theorem knowsTable_of_tableLiteral? {v : TermId} (h : s.terms.tableLiteral? v = some x) :
    s.KnowsTable x := by
  rw [Arena.tableLiteral?] at h
  split at h
  · rename_i found hTerm
    cases h
    exact (hs.term v).table x hTerm
  · cases h

theorem knowsFunction_of_functionLiteral? {v : TermId} {id : FunctionId}
    (h : s.terms.functionLiteral? v = some id) : s.KnowsFunction id := by
  rw [Arena.functionLiteral?] at h
  split at h
  · rename_i found hTerm
    cases h
    exact (hs.term v).function id hTerm
  · cases h

/-- The parts of a call are known. -/
theorem knowsTerm_of_callParts? {v callee : TermId} {args : List TermId}
    (h : s.terms.callParts? v = some (callee, args)) :
    s.KnowsTerm callee ∧ ∀ arg ∈ args, s.KnowsTerm arg := by
  rw [Arena.callParts?] at h
  split at h
  · rename_i hTerm
    cases h
    have hParts := (hs.term v).part
    rw [show s.term v = _ from hTerm] at hParts
    exact ⟨hParts callee mem_cons_self, fun arg hArg =>
      hParts arg (mem_cons_of_mem _ hArg)⟩
  · cases h

/-- A table, or the class it is an instance of. -/
theorem knowsTable_classOrSelf (hx : s.KnowsTable x) : s.KnowsTable (s.classOrSelf x) := by
  rw [classOrSelf]
  cases hTable : s.table? x with
  | none => exact hx
  | some t =>
    cases hOwner : t.instanceOf with
    | none => simpa [hOwner] using hx
    | some owner => simpa [hOwner] using ((hs.table x t hTable).owner owner hOwner).1.1

theorem knowsTerm_of_stored {t : TableRecord} {key : String} {d : Definition}
    (hTable : s.table? x = some t) (hd : d ∈ t.fields.get key) : s.KnowsTerm d.value := by
  refine hs.stored d.value ⟨x, key, ?_⟩
  rw [stored, hTable]
  exact mem_map_of_mem hd

end Grounded

/-! ## Changes of tables -/

section Tables

variable {w s : Inference}

/-- Other records for the tables, where no table is lost and classes stay classes. -/
theorem later_withTables {tables : OrderedMap TableId TableRecord}
    (hKeys : ∀ x ∈ s.tables.keys, x ∈ tables.keys)
    (hClass : ∀ x, s.isClass x = true → ({ s with tables } : Inference).isClass x = true) :
    s.Later { s with tables } :=
  ⟨Nat.le_refl _, fun _ _ => rfl, fun x hx => ⟨hKeys x hx.1, hx.2⟩, fun _ h => h,
    fun x _ => hClass x⟩

theorem later_modifyTable (s : Inference) (id : TableId) {f : TableRecord → TableRecord}
    (hf : ∀ t, (f t).classInfo = t.classInfo) : s.Later (s.modifyTable id f) := by
  refine later_withTables (fun x hx => ?_) fun x hx => ?_
  · rwa [OrderedMap.keys_modify]
  · show (s.modifyTable id f).isClass x = true
    rw [isClass, table?_modifyTable]
    split
    · rw [isClass] at hx
      cases hTable : s.table? x with
      | none => simp [hTable] at hx
      | some t => simpa [hTable, TableRecord.isClass, hf] using hx
    · exact hx

theorem isClass_promoteClass (s : Inference) (id x : TableId) (name : Option String)
    (f : ClassInfo → ClassInfo) :
    (s.promoteClass id name f).isClass x = (decide (x = id) || s.isClass x) := by
  rw [isClass, table?_promoteClass]
  by_cases hx : x = id
  · simp [hx, promoted, TableRecord.isClass]
  · simp [hx, isClass]

theorem mem_keys_promoteClass (s : Inference) (id x : TableId) (name : Option String)
    (f : ClassInfo → ClassInfo) :
    x ∈ (s.promoteClass id name f).tables.keys ↔ x = id ∨ x ∈ s.tables.keys :=
  OrderedMap.mem_keys_upsertIn

theorem later_promoteClass (s : Inference) (id : TableId) (name : Option String)
    (f : ClassInfo → ClassInfo) : s.Later (s.promoteClass id name f) := by
  refine later_withTables (fun x hx => ?_) fun x hx => ?_
  · exact (s.mem_keys_promoteClass id x name f).2 (.inr hx)
  · show (s.promoteClass id name f).isClass x = true
    simp [isClass_promoteClass, hx]

/-- A known table that has been made a class. -/
theorem knowsClass_promoteClass {id : TableId} (h : s.KnowsTable id) (name : Option String)
    (f : ClassInfo → ClassInfo) : (s.promoteClass id name f).KnowsClass id :=
  ⟨(s.later_promoteClass id name f).table id h, by simp [isClass_promoteClass]⟩

theorem later_makeInstance (s : Inference) (id owner : TableId) (withFunctions : Bool) :
    s.Later (s.makeInstance id owner withFunctions) := by
  rw [makeInstance]
  split
  · exact .refl s
  · refine (s.later_modifyTable id fun _ => ?_).trans (later_modifyTable _ owner fun _ => ?_)
    · rfl
    · rfl

theorem later_newTable (s : Inference) (hint : String) : s.Later (s.newTable hint).2 := by
  have hOld : ∀ x, s.KnowsTable x → (s.newTable hint).2.table? x = s.table? x := by
    intro x hx
    rw [table?_newTable, if_neg]
    rintro rfl
    exact Nat.lt_irrefl _ hx.2.lt
  refine ⟨Nat.le_refl _, fun _ _ => rfl, fun x hx => ⟨?_, hx.2.mint _ _⟩,
    fun id hId => ⟨hId.1, hId.2.mint _ _⟩, fun x hx hClass => ?_⟩
  · exact OrderedMap.mem_keys_upsertIn.2 (.inr hx.1)
  · rwa [isClass, hOld x hx]

theorem knowsTable_newTable (s : Inference) (hint : String) :
    (s.newTable hint).2.KnowsTable (s.newTable hint).1 :=
  ⟨OrderedMap.mem_keys_upsertIn.2 (.inl rfl), s.registry.is_mint .table hint⟩

/-- Changing links of a table. -/
theorem Covers.modifyTable (h : w.Covers s) (id : TableId) {f : TableRecord → TableRecord}
    (hFields : ∀ t, (f t).fields = t.fields)
    (hf : ∀ t, w.LinksTable id t → w.LinksTable id (f t)) : w.Covers (s.modifyTable id f) :=
  { h with
    stored := by
      rintro v ⟨x, key, hv⟩
      rw [stored_modifyTable s id x hFields] at hv
      exact h.stored v ⟨x, key, hv⟩
    table := by
      intro x t ht
      rw [table?_modifyTable] at ht
      split at ht
      · rename_i hx
        subst hx
        obtain ⟨t', ht', rfl⟩ := Option.map_eq_some_iff.1 ht
        exact hf t' (h.table x t' ht')
      · exact h.table x t ht }

theorem Covers.promoteClass (h : w.Covers s) {id : TableId} (hId : w.KnowsTable id)
    (name : Option String) (f : ClassInfo → ClassInfo) : w.Covers (s.promoteClass id name f) :=
  { h with
    stored := by
      rintro v ⟨x, key, hv⟩
      rw [stored_promoteClass] at hv
      exact h.stored v ⟨x, key, hv⟩
    table := by
      intro x t ht
      rw [table?_promoteClass] at ht
      split at ht
      · rename_i hx
        subst hx
        cases ht
        rw [promoted]
        cases hTable : s.table? x with
        | none => exact ⟨rfl, hId, by simp, by simp, by simp⟩
        | some t =>
          have hLinks := h.table x t hTable
          exact ⟨hLinks.id_eq, hId, hLinks.base, hLinks.owner, hLinks.container⟩
      · exact h.table x t ht }

/-- Making a table an instance of a class that is another one. -/
theorem Covers.makeInstance (h : w.Covers s) {id owner : TableId} (hOwner : w.KnowsClass owner)
    (hNe : id ≠ owner) (withFunctions : Bool) :
    w.Covers (s.makeInstance id owner withFunctions) := by
  have hStored : ∀ v, (s.makeInstance id owner withFunctions).Stored v → w.KnowsTerm v := by
    rintro v ⟨x, key, hv⟩
    rcases s.stored_makeInstance id owner withFunctions x key with hEq | ⟨-, part, hPart, hEq⟩
    · rw [hEq] at hv
      exact h.stored v ⟨x, key, hv⟩
    · rw [hEq] at hv
      rcases mem_append.1 hv with hv | hv
      · exact h.stored v ⟨x, key, hv⟩
      · exact h.stored v ⟨id, key, hPart.subset hv⟩
  rw [Inference.makeInstance] at hStored ⊢
  split at hStored
  · exact h
  · rename_i record hRecord
    have hMarked : w.Covers (s.modifyTable id fun t => { t with instanceOf := some owner }) := by
      refine h.modifyTable id (fun _ => rfl) fun t ht => ?_
      refine ⟨ht.id_eq, ht.known, ht.base, ?_, ht.container⟩
      rintro y ⟨⟩
      exact ⟨hOwner, Ne.symm hNe⟩
    dsimp only at hStored ⊢
    revert hMarked hStored
    generalize (s.modifyTable id fun t => { t with instanceOf := some owner }) = marked
    intro hStored hMarked
    refine { hMarked with stored := hStored, table := fun x t ht => ?_ }
    rw [table?_modifyTable] at ht
    split at ht
    · obtain ⟨t', ht', rfl⟩ := Option.map_eq_some_iff.1 ht
      have hLinks := hMarked.table x t' ht'
      exact ⟨hLinks.id_eq, hLinks.known, hLinks.base, hLinks.owner, hLinks.container⟩
    · exact hMarked.table x t ht

end Tables

/-! ## Changes of functions -/

section Functions

variable {s : Inference}

theorem function?_modifyFunction (s : Inference) (id x : FunctionId)
    (f : FunctionRecord → FunctionRecord) :
    (s.modifyFunction id f).function? x =
      if x = id then (s.function? x).map f else s.function? x :=
  OrderedMap.find?_modify s.functions id x f

theorem Grounded.leadsTo_modifyFunction (hs : s.Grounded) (id : FunctionId)
    {f : FunctionRecord → FunctionRecord}
    (hf : ∀ w, s.Later w → ∀ r, w.LinksFunction id r → w.LinksFunction id (f r)) :
    s.LeadsTo (s.modifyFunction id f) := by
  have hLater : s.Later (s.modifyFunction id f) := by
    refine ⟨Nat.le_refl _, fun _ _ => rfl, fun _ h => h, fun x hx => ⟨?_, hx.2⟩, fun _ _ h => h⟩
    show x ∈ (s.functions.modify id f).keys
    rw [OrderedMap.keys_modify]
    exact hx.1
  refine .of_covers hs hLater fun h => { h with function := fun x r hr => ?_ }
  rw [function?_modifyFunction] at hr
  split at hr
  · rename_i hx
    subst hx
    obtain ⟨r', hr', rfl⟩ := Option.map_eq_some_iff.1 hr
    exact hf _ hLater r' (h.function x r' hr')
  · exact h.function x r hr

theorem knowsFunction_newFunction (s : Inference) (name : Option String) :
    (s.newFunction name).2.KnowsFunction (s.newFunction name).1 :=
  ⟨OrderedMap.mem_keys_upsertIn.2 (.inl rfl), s.registry.is_mint .function _⟩

theorem Grounded.leadsTo_newFunction (hs : s.Grounded) (name : Option String) :
    s.LeadsTo (s.newFunction name).2 := by
  refine .of_covers hs ⟨Nat.le_refl _, fun _ _ => rfl, fun _ hx => ⟨hx.1, hx.2.mint _ _⟩,
    fun _ hId => ⟨OrderedMap.mem_keys_upsertIn.2 (.inr hId.1), hId.2.mint _ _⟩, fun _ _ h => h⟩
    fun h => { h with function := fun x f hf => ?_ }
  have hFound : (s.newFunction name).2.function? x =
      if x = (s.newFunction name).1 then
        some { id := (s.newFunction name).1, module := s.current, name } else s.function? x :=
    OrderedMap.find?_upsert s.functions _ x _
  rw [hFound] at hf
  split at hf
  · rename_i hx
    cases hf
    exact ⟨hx.symm, hx ▸ s.knowsFunction_newFunction name, by simp, by simp, by simp, by simp⟩
  · exact h.function x f hf

end Functions

/-! ## Other changes -/

namespace Grounded

variable {s : Inference} (hs : s.Grounded)
include hs

theorem leadsTo_newTable (hint : String) : s.LeadsTo (s.newTable hint).2 := by
  refine .of_covers hs (s.later_newTable hint) fun h => { h with stored := ?_, table := ?_ }
  · rintro v ⟨x, key, hv⟩
    rw [Inference.stored, table?_newTable] at hv
    split at hv
    · cases hv
    · exact h.stored v ⟨x, key, hv⟩
  · intro x t ht
    rw [table?_newTable] at ht
    split at ht
    · rename_i hx
      cases ht
      exact ⟨rfl, hx ▸ s.knowsTable_newTable hint, by simp, by simp, by simp⟩
    · exact h.table x t ht

theorem leadsTo_mint (kind : SymbolKind) (name : String) :
    s.LeadsTo { s with registry := (s.registry.mint kind name).2 } :=
  .of_covers hs ⟨Nat.le_refl _, fun _ _ => rfl, fun _ hx => ⟨hx.1, hx.2.mint _ _⟩,
    fun _ hId => ⟨hId.1, hId.2.mint _ _⟩, fun _ _ h => h⟩ fun h => { h with }

/-- A new term comes behind all others, so also behind its operands. -/
theorem leadsTo_alloc {t : Term} (ht : s.LinksTerm t) : s.LeadsTo (s.alloc t).2 := by
  have hTerm : ∀ v, (s.alloc t).2.term v = if v.index = s.terms.size then t else s.term v :=
    s.terms.get_alloc t
  have hLater : s.Later (s.alloc t).2 := by
    refine ⟨?_, fun v hv => s.terms.get_alloc_of_lt t hv, fun _ h => h, fun _ h => h,
      fun _ _ h => h⟩
    show s.terms.size ≤ (s.terms.alloc t).2.size
    rw [Arena.size_alloc]
    exact Nat.le_succ _
  refine .of_covers hs hLater fun h => { h with term := ?_, part_lt := ?_ }
  · intro v
    rw [hTerm]
    split
    · exact ht.mono hLater
    · exact h.term v
  · intro v part hPart
    rw [hTerm] at hPart
    split at hPart
    · rename_i hv
      rw [hv]
      exact ht.part part hPart
    · exact h.part_lt v part hPart

/-- Another definition of a name. -/
theorem leadsTo_pushDefinition (ident : Ident) {d : Definition} (hd : s.KnowsTerm d.value) :
    s.LeadsTo (s.pushDefinition ident d) := by
  refine .of_covers hs (.of_eq rfl rfl rfl rfl) fun h =>
    { h with definition := fun other d' hd' => ?_ }
  have hGet : (s.pushDefinition ident d).definitionsOf other = _ :=
    s.definitions.get_push ident other d
  rw [hGet] at hd'
  split at hd'
  · rcases mem_append.1 hd' with hd' | hd'
    · exact h.definition other d' hd'
    · cases mem_singleton.1 hd'
      exact hd
  · exact h.definition other d' hd'

/-- A change of the record of the module being read. -/
theorem leadsTo_modifyModule {f : ModuleRecord → ModuleRecord}
    (hf : ∀ m, ∀ d ∈ (f m).returns.flatten, d ∈ m.returns.flatten ∨ s.KnowsTerm d.value) :
    s.LeadsTo (s.modifyModule f) := by
  refine .of_covers hs (.of_eq rfl rfl rfl rfl) fun h =>
    { h with returned := fun m' hm' d hd => ?_ }
  obtain ⟨i, hi⟩ := mem_iff_getElem?.1 hm'
  have hModify : (s.modifyModule f).modules[i]? = _ :=
    getElem?_modify f s.current s.modules i
  rw [hModify] at hi
  obtain ⟨m, hm, hEq⟩ := Option.map_eq_some_iff.1 hi
  have hMem := mem_of_getElem? hm
  split at hEq
  · subst hEq
    exact (hf m d hd).elim (h.returned m hMem d) id
  · subst hEq
    exact h.returned m hMem d hd

end Grounded

theorem knowsTerm_alloc (s : Inference) (t : Term) :
    (s.alloc t).2.KnowsTerm (s.alloc t).1 := by
  show s.terms.size < (s.terms.alloc t).2.size
  rw [Arena.size_alloc]
  exact Nat.lt_succ_self _

end Inference

end LuaShape
