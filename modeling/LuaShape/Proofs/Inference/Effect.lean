import LuaShape.Proofs.Inference.KnownTypes
import LuaShape.Proofs.Inference.Sound

/-!
# Reports as changes

What the reader reports is made of steps, as long as the numbers in the report are known.  The
numbers that a report finds on its own come from terms, from fields and from resolution, and all
of these lead only to what is known.  The reports that store values need them to be storable: an
assignment, an entry of a table constructor, and the object that a function builds.

Where a report makes a class, the class is made before anything becomes an instance of it.
The one exception is the end of a function that builds an object: there the fields are
handed over first.  It is checked against the context behind the whole report.
-/

namespace LuaShape

open List

/-- The values at the slots behind an added one. -/
theorem mem_flatten_appendAt {α : Type} {value a : α} {position : Nat} {slots : List (List α)}
    (h : a ∈ (appendAt value position slots).flatten) : a = value ∨ a ∈ slots.flatten := by
  induction position generalizing slots with
  | zero =>
    cases slots with
    | nil => simpa [appendAt] using h
    | cons slot rest =>
      simp only [appendAt, flatten_cons, mem_append, mem_singleton] at h ⊢
      rcases h with (h | h) | h <;> simp [h]
  | succ position ih =>
    cases slots with
    | nil => exact ih (by simpa [appendAt] using h)
    | cons slot rest =>
      simp only [appendAt, flatten_cons, mem_append] at h ⊢
      rcases h with h | h
      · exact .inr (.inl h)
      · exact (ih h).imp_right .inr

namespace Inference

/-! ## What single changes lead to -/

/-- A table that is handed a base, unless it has one. -/
theorem LinksTable.orBase {w : Inference} {x : TableId} {t : TableRecord} (h : w.LinksTable x t)
    {base : Option TableId} (hBase : ∀ y, base = some y → w.KnowsTable y) :
    w.LinksTable x { t with base := t.base.or base } := by
  refine { h with base := fun y hy => ?_ }
  rcases Option.or_eq_some_iff.1 hy with hOwn | ⟨-, hGiven⟩
  · exact h.base y hOwn
  · exact hBase y hGiven

namespace Grounded

variable {s : Inference} {id : TableId} {value : TermId} (hs : s.Grounded)
include hs

/-- Changing links of a table. -/
theorem leadsTo_modifyTable (id : TableId) {f : TableRecord → TableRecord}
    (hClass : ∀ t, (f t).classInfo = t.classInfo) (hFields : ∀ t, (f t).fields = t.fields)
    (hf : ∀ w, s.Later w → ∀ t, w.LinksTable id t → w.LinksTable id (f t)) :
    s.LeadsTo (s.modifyTable id f) := by
  have hLater := s.later_modifyTable id hClass
  exact .of_covers hs hLater fun h => h.modifyTable id hFields (hf _ hLater)

theorem leadsTo_promoteClass (hId : s.KnowsTable id) (name : Option String)
    (f : ClassInfo → ClassInfo) : s.LeadsTo (s.promoteClass id name f) := by
  have hLater := s.later_promoteClass id name f
  exact .of_covers hs hLater fun h => h.promoteClass (hLater.table id hId) name f

theorem leadsTo_nameValue (value : TermId) (name : String) (isLocal : Bool) :
    s.LeadsTo (s.nameValue value name isLocal) := by
  rw [nameValue]
  split
  · refine hs.leadsTo_modifyTable _ (fun t => ?_) (fun t => ?_) fun w _ t ht => ?_
    · split <;> rfl
    · split <;> rfl
    · split
      · exact { ht with }
      · exact ht
  · exact hs.leadsTo_modifyFunction _ fun _ _ _ hr => { hr with }
  · exact .refl hs

theorem leadsTo_define (ident : Ident) (hValue : s.KnowsTerm value) (inFunction : Bool) :
    s.LeadsTo (s.define ident value inFunction) := by
  cases ident with
  | bound symbol =>
    have hNamed := hs.leadsTo_nameValue value ((s.registry.nameOf? symbol).getD "") true
    exact hNamed.trans (hNamed.grounded.leadsTo_pushDefinition _ (hNamed.later.knowsTerm hValue))
  | global name =>
    have hNamed := hs.leadsTo_nameValue value name false
    have hNoted : s.LeadsTo ((s.nameValue value name false).noteGlobal name value) :=
      hNamed.trans (hNamed.grounded.leadsTo_modifyModule fun _ _ hd => .inl hd)
    exact hNoted.trans (hNoted.grounded.leadsTo_pushDefinition _ (hNoted.later.knowsTerm hValue))

theorem leadsTo_placeValue (hId : s.KnowsTable id) (key : String) (value : TermId) :
    s.LeadsTo (s.placeValue id key value) := by
  rw [placeValue]
  split
  · split
    · exact .refl hs
    · refine hs.leadsTo_modifyTable _ (fun t => ?_) (fun t => ?_) fun w hLater t ht => ?_
      · split <;> rfl
      · split <;> rfl
      · split
        · refine { ht with container := ?_ }
          rintro place ⟨⟩
          exact hLater.table id hId
        · exact ht
  · exact hs.leadsTo_modifyFunction _ fun _ _ _ hr => { hr with }
  · exact .refl hs

theorem leadsTo_attachField (hId : s.KnowsTable id) (key : String) (hValue : s.KnowsTerm value)
    (inFunction onInstance inConstructor : Bool) :
    s.LeadsTo (s.attachField id key value inFunction onInstance inConstructor) := by
  have hPlaced := hs.leadsTo_placeValue hId key value
  have hStored := s.stored_attachField id key value inFunction onInstance inConstructor
  rw [attachField] at hStored ⊢
  generalize ({ value, module := s.current, inFunction, onInstance, inConstructor } :
    Definition) = d at hStored ⊢
  have hPushed := (s.placeValue id key value).later_modifyTable id
    (f := fun t => { t with fields := t.fields.push key d }) fun _ => rfl
  refine hPlaced.trans (.of_covers hPlaced.grounded hPushed fun h =>
    { h with stored := ?_, table := ?_ })
  · rintro v ⟨x, other, hv⟩
    have hLater := hPlaced.later.trans hPushed
    rcases hStored x other with hEq | ⟨-, -, hEq⟩ <;> rw [hEq] at hv
    · exact hLater.knowsTerm (hs.stored v ⟨x, other, hv⟩)
    · rcases mem_append.1 hv with hv | hv
      · exact hLater.knowsTerm (hs.stored v ⟨x, other, hv⟩)
      · cases mem_singleton.1 hv
        exact hLater.knowsTerm hValue
  · intro x t ht
    rw [table?_modifyTable] at ht
    split at ht
    · obtain ⟨t', ht', rfl⟩ := Option.map_eq_some_iff.1 ht
      exact { h.table x t' ht' with }
    · exact h.table x t ht

theorem leadsTo_makeInstance {owner : TableId} (hOwner : s.KnowsTable owner) (hNe : id ≠ owner) :
    s.LeadsTo ((s.promoteClass owner none fun c => c).makeInstance id owner false) := by
  have hPromoted := hs.leadsTo_promoteClass hOwner none fun c => c
  have hLater := (s.promoteClass owner none fun c => c).later_makeInstance id owner false
  refine hPromoted.trans (.of_covers hPromoted.grounded hLater fun h => ?_)
  exact h.makeInstance (hLater.knowsClass (knowsClass_promoteClass hOwner none _)) hNe false

/-- A table becomes an instance of a class built by a function.  In between it is an instance
of a table that is no class yet. -/
theorem leadsTo_build {owner : TableId} (hOwner : s.KnowsTable owner) (hNe : id ≠ owner)
    {base : Option TableId} (hBase : ∀ x, base = some x → s.KnowsTable x) (name : String) :
    s.LeadsTo (((s.makeInstance id owner true).modifyTable owner fun t =>
      { t with base := t.base.or base }).promoteClass owner (some name) fun c =>
        { c with isClosure := true }) := by
  have hMade := s.later_makeInstance id owner true
  have hBased := hMade.trans (later_modifyTable _ owner
    (f := fun t => { t with base := t.base.or base }) fun _ => rfl)
  have hLater := hBased.trans (later_promoteClass _ owner (some name) fun c =>
    { c with isClosure := true })
  have hClass := knowsClass_promoteClass (hBased.table owner hOwner) (some name) fun c =>
    { c with isClosure := true }
  refine .of_covers hs hLater fun h => ?_
  refine Covers.promoteClass ?_ hClass.1 _ _
  refine (h.makeInstance hClass hNe true).modifyTable owner (fun _ => rfl) fun t ht => ?_
  exact ht.orBase fun x hx => hLater.table x (hBase x hx)

end Grounded

/-! ## Steps -/

variable {P : TermId → Prop} {s : Inference}

namespace Step

variable {id : TableId}

theorem alloc {t : Term} (ht : s.LinksTerm t) : Step P s (s.alloc t).2 :=
  ⟨.alloc t, fun hs => hs.leadsTo_alloc ht⟩

theorem newTable (hint : String) : Step P s (s.newTable hint).2 :=
  ⟨.newTable hint, fun hs => hs.leadsTo_newTable hint⟩

theorem relabel (id : TableId) {f : TableRecord → TableRecord}
    (hf : ∀ t : TableRecord, t.Relabelled (f t))
    (hLinks : ∀ w, s.Later w → ∀ t, w.LinksTable id t → w.LinksTable id (f t)) :
    Step P s (s.modifyTable id f) := by
  refine ⟨.relabel id f hf, fun hs => hs.leadsTo_modifyTable id (fun t => ?_) (fun t => ?_) hLinks⟩
  all_goals
    obtain ⟨_, _, _, _, hEq⟩ := hf t
    rw [hEq]

theorem setBase (id : TableId) {base : Option TableId}
    (hBase : ∀ x, base = some x → s.KnowsTable x) :
    Step P s (s.modifyTable id fun t => { t with base }) :=
  .relabel id (fun _ => ⟨_, _, _, _, rfl⟩) fun _ hLater _ ht =>
    { ht with base := fun x hx => hLater.table x (hBase x hx) }

theorem promote (hId : s.KnowsTable id) (name : Option String) {f : ClassInfo → ClassInfo}
    (hf : ∀ c : ClassInfo, c.Grows (f c)) : Step P s (s.promoteClass id name f) :=
  ⟨.promote id name f hf, fun hs => hs.leadsTo_promoteClass hId name f⟩

theorem modifyFunction (id : FunctionId) {f : FunctionRecord → FunctionRecord}
    (hf : ∀ w, s.Later w → ∀ r, w.LinksFunction id r → w.LinksFunction id (f r)) :
    Step P s (s.modifyFunction id f) :=
  ⟨.aside _ _ _ _ _ _, fun hs => hs.leadsTo_modifyFunction id hf⟩

/-- What requires and marks add is linked to nothing. -/
theorem aside {moduleLevel : List SymbolId} {argumentsKnown : Bool}
    {diagnostics : List Diagnostic} :
    Step P s { s with moduleLevel, argumentsKnown, diagnostics } :=
  ⟨.aside _ _ _ _ _ _, fun hs => .of_covers hs (.of_eq rfl rfl rfl rfl) fun h => { h with }⟩

theorem bind (symbol : SymbolId) {d : Definition} (hd : s.KnowsTerm d.value) :
    Step P s (s.pushDefinition (.bound symbol) d) :=
  ⟨.bind symbol d, fun hs => hs.leadsTo_pushDefinition _ hd⟩

end Step

/-! ## Reports that store nothing -/

theorem changes_addUsage {id : TermId} (hId : s.KnowsTerm id) (allowed : List TypeTag) :
    Changes P s (s.addUsage id allowed) := by
  have hFind : ∀ key, (s.addUsage id allowed).usages.find? key = _ := fun key =>
    OrderedMap.find?_upsert s.usages (s.usageKey id) key _
  refine .single ⟨.aside _ _ _ _ _ _, fun hs => .of_covers hs (.of_eq rfl rfl rfl rfl) fun h =>
    { h with use := ?_, allowed := ?_ }⟩
  · intro key types hFound v hv
    rw [hFind] at hFound
    split at hFound
    · rename_i hKey
      rw [hKey, usageKey] at hv
      split at hv
      · cases hv
      · cases hv
        exact hId
    · exact h.use key types hFound v hv
  · intro key types hFound tag hTag
    rw [hFind] at hFound
    split at hFound
    · cases hFound
      have hOld := (SortedSet.mem_filter.1 hTag).1
      cases hBefore : s.usages.find? (s.usageKey id) with
      | none => simpa [hBefore] using hOld
      | some before =>
        rw [hBefore, Option.getD_some] at hOld
        exact h.allowed _ before hBefore tag hOld
    · exact h.allowed key types hFound tag hTag

theorem changes_setReceiver (id : FunctionId) {base : TermId} (hBase : s.KnowsTerm base) :
    Changes P s (s.setReceiver id base) := by
  refine .single (.modifyFunction id fun w hLater r hr => { hr with receiver := ?_ })
  rintro v ⟨⟩
  exact hLater.knowsTerm hBase

theorem changes_addReturn (function : Option FunctionId) (slot : Nat) {value : TermId}
    (hValue : s.KnowsTerm value) : Changes P s (s.addReturn function slot value) := by
  cases function with
  | some id =>
    refine .single (.modifyFunction id fun w hLater r hr => { hr with returned := ?_ })
    intro v hv
    rcases mem_flatten_appendAt hv with rfl | hv
    · exact hLater.knowsTerm hValue
    · exact hr.returned v hv
  | none =>
    refine .single ⟨.modifyModule _ (fun _ => rfl) (fun _ => rfl) fun _ => rfl,
      fun hs => hs.leadsTo_modifyModule fun m d hd => ?_⟩
    rcases mem_flatten_appendAt hd with rfl | hd
    · exact .inr hValue
    · exact .inl hd

theorem changes_resolveRequire (argument : String) :
    Changes P s (s.resolveRequire argument).2 := by
  obtain ⟨diagnostics, hEq⟩ := s.exists_resolveRequire_eq argument
  rw [hEq]
  exact .single .aside

theorem changes_methodDefined (hs : s.Grounded) {base : TermId} (hBase : s.KnowsTerm base)
    (method : String) (id : FunctionId) (isColon : Bool) :
    Changes P s (s.methodDefined base method id isColon) := by
  rw [methodDefined]
  split
  · exact .refl
  · split
    · exact .refl
    · rename_i owner hOwner
      have hKnown := hs.knowsTable_of_classTable? hBase hOwner
      refine .tail (.single (.promote hKnown none fun c => ⟨fun h => h, fun h => h⟩))
        (.modifyFunction id fun w hLater r hr => { hr with constructs := ?_ })
      rintro x ⟨⟩
      exact hLater.knowsClass (knowsClass_promoteClass hKnown none _)

/-! ## Instances -/

/-- The table and the class of a call that makes an instance. -/
theorem metatableInstance?_spec {call : TermId} {id owner : TableId}
    (h : s.metatableInstance? call = some (id, owner)) :
    id ≠ owner ∧ (∃ t, s.table? id = some t ∧ t.isSettled = false) ∧
    ∃ callee object metatable rest,
      s.terms.callParts? call = some (callee, object :: metatable :: rest) ∧
      s.classTable? ((((s.terms.tableLiteral? metatable).bind s.table?).bind fun record =>
        (record.fields.get "__index").head?.map Definition.value).getD metatable) = some owner := by
  rw [metatableInstance?] at h
  split at h
  · rename_i hCall
    split at h
    · simp only [Option.bind_eq_bind] at h
      split at h
      · cases h
      · simp only [Option.bind_eq_some_iff] at h
        obtain ⟨found, -, record, hRecord, h⟩ := h
        split at h
        · cases h
        · rename_i hSettled
          obtain ⟨_, hClass, h⟩ := Option.bind_eq_some_iff.1 h
          split at h
          · cases h
          · rename_i hNe
            cases h
            exact ⟨Ne.symm hNe, ⟨record, hRecord, Bool.eq_false_iff.2 hSettled⟩, _, _, _, _, hCall,
              hClass⟩
    · cases h
  · cases h

/-- The class that a call sets as a metatable, or under `__index` of one, is known. -/
theorem Grounded.knowsTable_of_metatableInstance? (hs : s.Grounded) {call : TermId}
    {id owner : TableId} (h : s.metatableInstance? call = some (id, owner)) :
    s.KnowsTable owner := by
  obtain ⟨-, -, callee, object, metatable, rest, hCall, hClass⟩ := metatableInstance?_spec h
  obtain ⟨-, hArgs⟩ := hs.knowsTerm_of_callParts? hCall
  refine hs.knowsTable_of_classTable? ?_ hClass
  -- The metatable itself, or what it holds under `__index`.
  cases hIndex : ((s.terms.tableLiteral? metatable).bind s.table?).bind fun record =>
      (record.fields.get "__index").head?.map Definition.value with
  | none => exact hArgs metatable (by simp)
  | some value =>
    obtain ⟨t, hTable, hHead⟩ := Option.bind_eq_some_iff.1 hIndex
    obtain ⟨x, -, hTable⟩ := Option.bind_eq_some_iff.1 hTable
    obtain ⟨d, hd, rfl⟩ := Option.map_eq_some_iff.1 hHead
    exact hs.knowsTerm_of_stored hTable (mem_of_head? hd)

theorem changes_addCall (hs : s.Grounded) {call : TermId} (hCall : s.KnowsTerm call) :
    Changes P s (s.addCall call) := by
  have hNoted : Changes P s { s with calls := s.calls ++ [{ call, module := s.current }] } := by
    refine .single ⟨.aside _ _ _ _ _ _, fun hs => .of_covers hs (.of_eq rfl rfl rfl rfl) fun h =>
      { h with call := fun site hSite => ?_ }⟩
    rcases mem_append.1 hSite with hOld | hNew
    · exact h.call site hOld
    · cases mem_singleton.1 hNew
      exact hCall
  have hs' := (hNoted.leadsTo hs).grounded
  rw [addCall]
  split
  · rename_i id owner hInstance
    obtain ⟨hOwner, ⟨t, hTable, hSettled⟩, -⟩ := metatableInstance?_spec hInstance
    exact .tail hNoted ⟨.makeInstance hTable hSettled hOwner, fun hs =>
      hs.leadsTo_makeInstance (hs'.knowsTable_of_metatableInstance? hInstance) hOwner⟩
  · exact hNoted

/-- The class of an object that a method builds. -/
theorem Grounded.objectOwner?_spec (hs : s.Grounded) {id : FunctionId} {name : String}
    {record : FunctionRecord} (hRecord : s.function? id = some record) {object : BuiltObject}
    {owner : TableId} (h : s.objectOwner? name record object = some owner) :
    s.KnowsTable owner ∧ object.table ≠ owner := by
  rw [objectOwner?] at h
  split at h
  · rename_i receiver _ hReceiver
    obtain ⟨found, hFound, hOwner⟩ := Option.bind_eq_some_iff.1 h
    split at hOwner
    · cases hOwner
    · rename_i hNe
      cases hOwner
      have hKnown := (hs.function id record hRecord).receiver receiver hReceiver
      exact ⟨(hs.knowsTypes_resolve hKnown).singleTable? hFound, Ne.symm hNe⟩
  · cases h

theorem changes_endFunction (hs : s.Grounded) (id : FunctionId) :
    Changes P s (s.endFunction id) := by
  rw [endFunction]
  split
  · exact .refl
  · rename_i name record object hClosure
    simp only [closureClass?, Option.bind_eq_bind, Option.bind_eq_some_iff] at hClosure
    obtain ⟨found, hFound, _, -, built, hBuilt, hEq⟩ := hClosure
    split at hEq <;> cases hEq
    have hObject := (hs.function id record hFound).object object hBuilt
    have hBase : ∀ x, (s.table? object.table).bind TableRecord.base = some x → s.KnowsTable x := by
      intro x hx
      obtain ⟨t, hTable, hx⟩ := Option.bind_eq_some_iff.1 hx
      exact (hs.table _ t hTable).base x hx
    dsimp only
    split
    · rename_i owner hOwner
      obtain ⟨hKnown, hNe⟩ := hs.objectOwner?_spec hFound hOwner
      exact .single ⟨.build _ _ hNe, fun hs => hs.leadsTo_build hKnown hNe hBase _⟩
    · have hBased : Changes P s (s.modifyTable object.table fun t =>
          { t with base := t.base.or ((s.table? object.table).bind TableRecord.base) }) :=
        .single (.relabel _ (fun t => ⟨_, _, _, _, rfl⟩) fun w hLater t ht =>
          ht.orBase fun x hx => hLater.table x (hBase x hx))
      exact .tail hBased (.promote (hBased.table hs hObject) _
        fun c => ⟨fun _ => rfl, fun h => h⟩)

/-! ## Assignments -/

/-- What an assignment hands to its target: the assigned value, a new term, or a literal
of a UI class. -/
structure Handed (P : TermId → Prop) (s s' : Inference) (value given : TermId) : Prop where
  changes : Changes P s s'
  fresh : s'.Fresh given
  known : s'.KnowsTerm given
  here : s'.IsHere given
  origin : given = value ∨ s.terms.size ≤ given.index ∨ s'.isUiLiteral given = true

/-- The object of a method call is known, and the arguments are those of a call. -/
theorem Grounded.memberCall?_spec (hs : s.Grounded) {call base : TermId} {method : String}
    {args : List TermId} (h : s.memberCall? call method = some (base, args)) :
    s.KnowsTerm base ∧ ∃ callee, s.terms.callParts? call = some (callee, args) := by
  rw [memberCall?] at h
  split at h
  · rename_i callee found hCall
    split at h
    · rename_i hCallee
      split at h <;> cases h
      refine ⟨(hs.term callee).part base ?_, callee, hCall⟩
      rw [hCallee]
      exact mem_singleton_self base
    · cases h
  · cases h

/-- A call that makes a UI class has a literal of a known table among its arguments. -/
theorem Grounded.atomUiClass?_spec (hs : s.Grounded) {value arg : TermId} {record : TableRecord}
    {parent : TableId} (h : s.atomUiClass? value = some (arg, record, parent)) :
    (∃ callee args, s.terms.callParts? value = some (callee, args) ∧ arg ∈ args) ∧
      s.KnowsTable parent ∧ ∃ x, s.terms.tableLiteral? arg = some x ∧ s.table? x = some record := by
  simp only [atomUiClass?, Option.bind_eq_bind, Option.bind_eq_some_iff] at h
  obtain ⟨⟨base, args⟩, hCall, ⟨found, foundRecord⟩, hMarked, _, hParent, hEq⟩ := h
  cases hEq
  obtain ⟨hBase, callee, hParts⟩ := hs.memberCall?_spec hCall
  obtain ⟨other, hOther, hFound⟩ := exists_of_findSome?_eq_some hMarked
  obtain ⟨t, hTable, hMark⟩ := Option.bind_eq_some_iff.1 hFound
  split at hMark <;> cases hMark
  obtain ⟨x, hLiteral, hRecord⟩ := Option.bind_eq_some_iff.1 hTable
  exact ⟨⟨callee, args, hParts, hOther⟩, hs.knowsTable_of_classTable? hBase hParent, x, hLiteral,
    hRecord⟩

theorem handed_applyAtomUiClass (hs : Sound s) (target : TermId) {value arg : TermId}
    {record : TableRecord} {parent : TableId} (hValue : s.Storable value)
    (h : s.atomUiClass? value = some (arg, record, parent)) :
    Handed P s (s.applyAtomUiClass target arg record parent).2 value
      (s.applyAtomUiClass target arg record parent).1 := by
  obtain ⟨⟨callee, args, hCall, hArg⟩, hParent, x, hLiteral, hRecord⟩ :=
    hs.grounded.atomUiClass?_spec h
  have hKnown := (hs.grounded.knowsTerm_of_callParts? hCall).2 arg hArg
  obtain rfl := hs.id_eq x record hRecord
  have hLinks := hs.grounded.table _ record hRecord
  have hChanges : ∀ Q, Changes Q s (s.applyAtomUiClass target arg record parent).2 := by
    intro Q
    have hFirst : Changes Q s (s.promoteClass parent none fun c => { c with isAtomUi := true }) :=
      .single (.promote hParent none fun c => ⟨fun h => h, fun _ => rfl⟩)
    have hSecond := hFirst.tail (.promote (f := fun c =>
      { c with
        isAtomUi := true
        deriveName := (record.fields.get atomUiMark).head?.bind fun d =>
          s.terms.stringLiteral? d.value }) (hFirst.table hs.grounded hLinks.known)
        (s.targetName? target) fun c => ⟨fun h => h, fun _ => rfl⟩)
    refine hSecond.tail (.setBase record.id ?_)
    rintro y ⟨⟩
    exact hSecond.table hs.grounded hParent
  have hUi : (s.applyAtomUiClass target arg record parent).2.isUiLiteral arg = true := by
    have hTerms : (s.applyAtomUiClass target arg record parent).2.terms = s.terms := rfl
    rw [isUiLiteral, hTerms, hLiteral, Option.bind_some, applyAtomUiClass, table?_modifyTable,
      if_pos rfl, table?_promoteClass, if_pos rfl]
    rfl
  exact ⟨hChanges P, fun _ => hUi, hKnown, (hChanges fun _ => True).isHere hs hKnown
    (hValue.args callee args hCall arg hArg), .inr (.inr hUi)⟩

theorem changes_supersedeEmpty (target : TermId) : Changes P s (s.supersedeEmpty target) := by
  have hFold : ∀ ids : List TableId, Changes P s (ids.foldl
      (fun s id => s.modifyTable id fun t => { t with isSuperseded := true }) s) := by
    intro ids
    induction ids generalizing s with
    | nil => exact .refl
    | cons id rest ih =>
      have hFirst : Step P s (s.modifyTable id fun t => { t with isSuperseded := true }) :=
        .relabel id (fun t => ⟨_, _, _, _, rfl⟩) fun _ _ _ ht => { ht with }
      exact .head hFirst ih
  rw [supersedeEmpty]
  split
  · exact hFold _
  · exact .refl

/-- A new table of the module being read has a storable literal. -/
theorem Sound.storable_literal (hs : Sound s) {x : TableId} {t : TableRecord}
    (hTable : s.table? x = some t) (hModule : t.module = s.current) (hx : s.KnowsTable x) :
    Changes P s (s.alloc (.literal (.table x))).2 ∧
      (s.alloc (.literal (.table x))).2.Storable (s.alloc (.literal (.table x))).1 := by
  have hLinks : s.LinksTerm (.literal (.table x)) := by
    refine ⟨by simp [Term.parts], ?_, by simp⟩
    rintro y ⟨⟩
    exact hx
  refine ⟨.single (.alloc hLinks), hs.storable_alloc hLinks ?_ (by simp)⟩
  rintro y ⟨⟩
  exact ⟨t, hTable, hModule⟩

/-- A new table with a base. -/
theorem Grounded.changes_newTable (hs : s.Grounded) (hint : String) {base : Option TableId}
    (hBase : ∀ x, base = some x → s.KnowsTable x) :
    let s' := (s.newTable hint).2.modifyTable (s.newTable hint).1 fun t => { t with base }
    Changes P s s' ∧ s'.KnowsTable (s.newTable hint).1 ∧
      ∃ t, s'.table? (s.newTable hint).1 = some t ∧ t.module = s'.current := by
  intro s'
  have hNew : Changes P s (s.newTable hint).2 := .single (.newTable hint)
  have hLinked : Changes P (s.newTable hint).2 s' :=
    .single (.setBase _ fun x hx => hNew.table hs (hBase x hx))
  refine ⟨hNew.trans hLinked, hLinked.table (hNew.leadsTo hs).grounded (s.knowsTable_newTable hint),
    { id := (s.newTable hint).1, module := s.current, base }, ?_, rfl⟩
  rw [table?_modifyTable, if_pos rfl, s.table?_newTable_self]
  rfl

theorem handed_applyDerivedClass (hs : Sound s) (target value : TermId) {parent : TableId}
    (hParent : s.KnowsTable parent) (args : List TermId) :
    Handed P s (s.applyDerivedClass target parent args).2 value
      (s.applyDerivedClass target parent args).1 := by
  rw [applyDerivedClass]
  generalize ((s.targetName? target).or (args.findSome? s.terms.stringLiteral?)).getD
    (s.tableName parent ++ "Derived") = name
  generalize args.findSome? s.terms.stringLiteral? = deriveName
  have hEmpty : Changes P s (s.supersedeEmpty target) := changes_supersedeEmpty target
  have hBase := hEmpty.tail (.promote (f := id) (hEmpty.table hs.grounded hParent) none
    fun c => ⟨fun h => h, fun h => h⟩)
  dsimp only
  generalize (s.supersedeEmpty target).promoteClass parent none id = s₁ at hBase ⊢
  have hKnown : ∀ x, some parent = some x → s₁.KnowsTable x := by
    rintro x ⟨⟩
    exact hBase.table hs.grounded hParent
  obtain ⟨hLinked, hTable, t, hFound, hModule⟩ :=
    (hBase.leadsTo hs.grounded).grounded.changes_newTable (P := P) name hKnown
  have hClass := hLinked.tail (.promote (f := fun c => { c with deriveName }) hTable (some name)
    fun c => ⟨fun h => h, fun h => h⟩)
  have hChanges : Changes P s _ := hBase.trans hClass
  obtain ⟨hLiteral, hStorable⟩ := (hChanges.sound hs).storable_literal (P := P)
    (by rw [table?_promoteClass, if_pos rfl]) (by
      rw [promoted, hFound]
      exact hModule) ((later_promoteClass _ _ _ _).table _ hTable)
  exact ⟨hChanges.trans hLiteral, hStorable.fresh, hStorable.known, hStorable.here,
    .inr (.inl (hChanges.leadsTo hs.grounded).later.size_le)⟩

variable {value : TermId}

theorem handed_assignedValue (hs : Sound s) (target : TermId) (hValue : s.Storable value) :
    Handed P s (s.assignedValue target value).2 value (s.assignedValue target value).1 := by
  rw [assignedValue]
  split
  · rename_i hUi
    exact handed_applyAtomUiClass hs target hValue hUi
  · split
    · rename_i parent args hDerived
      simp only [derivedClass?, Option.bind_eq_bind, Option.bind_eq_some_iff] at hDerived
      obtain ⟨⟨base, _⟩, hMember, _, hParent, hEq⟩ := hDerived
      split at hEq <;> cases hEq
      exact handed_applyDerivedClass hs target value (hs.grounded.knowsTable_of_classTable?
        (hs.grounded.memberCall?_spec hMember).1 hParent) _
    · exact ⟨.refl, hValue.fresh, hValue.known, hValue.here, .inl rfl⟩

theorem Step.attach {id : TableId} (hId : s.KnowsTable id) (key : String)
    {inFunction onInstance inConstructor : Bool} (hFresh : s.Fresh value)
    (hKnown : s.KnowsTerm value) (hValue : P value ∨ s.isUiLiteral value = true) :
    Step P s (s.attachField id key value inFunction onInstance inConstructor) :=
  ⟨.attach id key value _ _ _ hFresh hKnown hValue,
    fun hs => hs.leadsTo_attachField hId key hKnown _ _ _⟩

theorem changes_addField (hs : s.Grounded) {base : TermId} (hBase : s.KnowsTerm base) (key : String)
    (inFunction : Bool) (hFresh : s.Fresh value) (hKnown : s.KnowsTerm value)
    (hValue : P value ∨ s.isUiLiteral value = true) :
    Changes P s (s.addField base key value inFunction) := by
  rw [addField]
  split
  · exact .refl
  · rename_i id hId
    split
    · rename_i owner hOwner
      obtain ⟨t, hTable, hInstance⟩ := Option.bind_eq_some_iff.1 hOwner
      exact .single (.attach ((hs.table id t hTable).owner owner hInstance).1.1 key hFresh hKnown
        hValue)
    · exact .single (.attach ((hs.knowsTypes_resolve hBase).singleTable? hId) key hFresh hKnown
        hValue)

/-- An assignment stores at most the assigned value and new terms. -/
theorem changes_addAssignment (hs : Sound s) (target : TermId) (inFunction : Bool)
    (hValue : s.Storable value) :
    Changes (fun v => v = value ∨ s.terms.size ≤ v.index) s
      (s.addAssignment target value inFunction) := by
  have hHanded : Handed (fun v => v = value ∨ s.terms.size ≤ v.index) s _ value _ :=
    handed_assignedValue hs target hValue
  rw [addAssignment]
  revert hHanded
  generalize s.assignedValue target value = given
  obtain ⟨given, s'⟩ := given
  intro hHanded
  have hs' : s'.Grounded := (hHanded.changes.leadsTo hs.grounded).grounded
  have hParts := (hs'.term target).part
  have hField : ∀ {base : TermId}, base ∈ (s'.term target).parts → ∀ key,
      Changes (fun v => v = value ∨ s.terms.size ≤ v.index) s'
        (s'.addField base key given inFunction) := fun hBase key =>
    changes_addField hs' (hParts _ hBase) key inFunction hHanded.fresh hHanded.known
      (or_assoc.2 hHanded.origin)
  refine hHanded.changes.trans ?_
  dsimp only
  split
  · exact .single ⟨.define _ _ _ hHanded.known hHanded.here, fun hs =>
      hs.leadsTo_define _ hHanded.known inFunction⟩
  · rename_i hTarget
    exact hField (by simp [hTarget, Term.parts]) _
  · rename_i hTarget
    split
    · exact hField (by simp [hTarget, Term.parts]) _
    · exact .refl
  · exact .refl

/-- An entry of a table constructor stores its value. -/
theorem changes_addTableField (hs : Sound s) {table : TableId} (hTable : s.KnowsTable table)
    (key : String) (inFunction : Bool) (hValue : s.Storable value) :
    Changes (fun v => v = value) s (s.addTableField table key value inFunction) := by
  have hLabelled : ∀ Q, Changes Q s (s.modifyTable table fun t =>
      { t with literalKeys := t.literalKeys ++ [key] }) := fun Q =>
    .single (.relabel _ (fun t => ⟨_, _, _, _, rfl⟩) fun _ _ _ ht => { ht with })
  exact .tail (hLabelled _) (.attach ((hLabelled fun _ => True).table hs.grounded hTable)
    key ((hLabelled fun _ => False).fresh hs not_false hValue.fresh) hValue.known (.inl rfl))

/-! ## Objects that a function builds -/

/-- The table of an object, with a literal that a binding may hold. -/
theorem builtTable?_spec (hs : Sound s) {symbol : SymbolId} {held : TermId}
    {table : TableId} {s' : Inference} (hValue : s.Storable value)
    (h : s.builtTable? symbol value = some (table, held, s')) :
    Changes P s s' ∧ s'.KnowsTable table ∧ s'.Storable held ∧
      (held = value ∨ s.terms.size ≤ held.index) := by
  rw [builtTable?] at h
  split at h
  · rename_i hLiteral
    cases h
    exact ⟨.refl, hs.grounded.knowsTable_of_tableLiteral? hLiteral, hValue, .inl rfl⟩
  · obtain ⟨⟨base, _⟩, hMember, hMade⟩ := Option.map_eq_some_iff.1 h
    have hBase := (hs.grounded.memberCall?_spec hMember).1
    generalize (s.registry.nameOf? symbol).getD "self" = hint at hMade
    obtain ⟨hChanges, hTable, t, hFound, hModule⟩ := hs.grounded.changes_newTable (P := P) hint
      fun x (hx : s.classTable? base = some x) => hs.grounded.knowsTable_of_classTable? hBase hx
    obtain ⟨hLiteral, hStorable⟩ := (hChanges.sound hs).storable_literal hFound hModule hTable
    cases hMade
    exact ⟨hChanges.trans hLiteral, hTable, hStorable, .inr (Nat.le_refl _)⟩

/-- The value that the binding of an object holds. -/
theorem storable_addBuiltObject (hs : Sound s) (function : FunctionId) (symbol : SymbolId)
    (hValue : s.Storable value) :
    Changes P s (s.addBuiltObject function symbol value).2 ∧
      (s.addBuiltObject function symbol value).2.Storable
        (s.addBuiltObject function symbol value).1 ∧
      ((s.addBuiltObject function symbol value).1 = value ∨
        s.terms.size ≤ (s.addBuiltObject function symbol value).1.index) := by
  rw [addBuiltObject]
  split
  · exact ⟨.refl, hValue, .inl rfl⟩
  · rename_i table held s' hBuilt
    obtain ⟨hChanges, hTable, hStorable, hOrigin⟩ := builtTable?_spec (P := P) hs hValue hBuilt
    have hNoted : ∀ Q, Changes Q s' (s'.modifyFunction function fun f =>
        { f with builtObject := some { symbol, table } }) := by
      refine fun Q => .single (.modifyFunction function fun w hLater r hr => { hr with object := ?_ })
      rintro o ⟨⟩
      exact hLater.table table hTable
    exact ⟨hChanges.trans (hNoted P),
      (hNoted fun _ => False).storable (hChanges.sound hs) not_false hStorable, hOrigin⟩

end Inference

end LuaShape
