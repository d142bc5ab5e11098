import LuaShape.Proofs.Inference.GroundedReading
import LuaShape.Proofs.Summary.Returns
import Mathlib.Data.List.Induction
import Mathlib.Data.List.Nodup

/-!
# Members of a class

Every key of a class table that is not hidden becomes one member, under its own name: a
function, or a field.  The members are dealt out to five lists, each of which keeps the order
of the fields.  A key that is given a function stays one unless something else is assigned to
it through an instance.

Main result: `class_members_partitioned`.
-/

namespace LuaShape

open List

namespace Member

/-- The name of a member. -/
def name : Member → String
  | .function f => f.name
  | .field f => f.name

/-- The list that a member belongs to. -/
def place : Member → Nat
  | .field f => if f.isInstance then 1 else 0
  | .function f => if f.isConstructor then 4 else if f.isMethod then 3 else 2

end Member

namespace ClassMembers

/-- The lists of members: static fields, instance fields, functions, methods, constructors. -/
def lists (c : ClassMembers) : List (List Member) :=
  [c.staticFields.map .field, c.instanceFields.map .field, c.functions.map .function,
    c.methods.map .function, c.constructors.map .function]

/-- Members are dealt out in order. -/
theorem lists_foldl_add (members : List Member) :
    (members.foldl add {}).lists = (List.range 5).map fun i => members.filter (·.place = i) := by
  induction members using List.reverseRecOn with
  | nil => rfl
  | append_singleton members m ih =>
    rw [foldl_append]
    generalize members.foldl add {} = c at ih
    simp only [lists, List.range, List.range.loop, map_cons, map_nil,
      List.cons.injEq, and_true] at ih
    obtain ⟨hStatic, hInstance, hFunctions, hMethods, hConstructors⟩ := ih
    simp only [List.range, List.range.loop, map_cons, map_nil, filter_append,
      ← hStatic, ← hInstance, ← hFunctions, ← hMethods, ← hConstructors]
    cases m with
    | field f =>
      cases hf : f.isInstance <;> simp [add, lists, Member.place, hf]
    | function f =>
      cases hf : f.isConstructor <;> cases hf' : f.isMethod <;>
        simp [add, lists, Member.place, hf, hf']

theorem perm_flatten_lists (members : List Member) :
    (members.foldl add {}).lists.flatten.Perm members := by
  rw [lists_foldl_add, perm_iff_count]
  intro m
  have hPlace : m.place = 0 ∨ m.place = 1 ∨ m.place = 2 ∨ m.place = 3 ∨ m.place = 4 := by
    cases m with
    | field f => cases hf : f.isInstance <;> simp [Member.place, hf]
    | function f =>
      cases hf : f.isConstructor <;> cases hf' : f.isMethod <;> simp [Member.place, hf, hf']
  have hCount : ∀ i, (members.filter (·.place = i)).count m =
      if m.place = i then members.count m else 0 := by
    intro i
    split
    · rename_i hEq
      exact count_filter (by simpa using hEq)
    · rename_i hNe
      exact count_eq_zero.2 fun hMem => hNe (by simpa using (mem_filter.1 hMem).2)
  simp only [List.range, List.range.loop, map_cons, map_nil, flatten_cons,
    flatten_nil, append_nil, count_append, hCount]
  rcases hPlace with h | h | h | h | h <;> simp [h]

end ClassMembers

namespace Inference

variable {s : Inference} {key : String} {defs : List Definition}

/-- The types that definitions give. -/
theorem mem_typesOf {tag : TypeTag} :
    tag ∈ s.typesOf defs ↔ ∃ d ∈ defs, tag ∈ s.typesOf [d] := by
  have hEach : ∀ defs, tag ∈ s.typesOf defs ↔
      ∃ d ∈ defs, s.isSuperseded d.value = false ∧ tag ∈ s.resolve d.value := by
    intro defs
    have hFold : s.typesOf defs = ((s.standing defs).map Definition.value).foldl
        (fun types id => types.union (s.resolve id)) .empty := by rw [foldl_map, typesOf]
    rw [hFold, s.mem_foldl_resolve]
    simp [standing, and_assoc]
  rw [hEach]
  simp [hEach]

/-- A definition made through an instance does not agree with a function: it is none itself,
and a type that it gives is neither a function nor nil. -/
def Collides (s : Inference) (d : Definition) : Prop :=
  s.isFunction d = false ∧ d.onInstance = true ∧
    ∃ tag ∈ s.typesOf [d], tag ≠ .instanceMark ∧ tag.basic ≠ .function ∧ tag.basic ≠ .nil

theorem isConflicting_iff :
    isConflicting (s.typesOf ((defs.filter fun d => !s.isFunction d).filter
      Definition.onInstance)) = true ↔ ∃ d ∈ defs, s.Collides d := by
  have hAny : ∀ types, isConflicting types = true ↔ ∃ tag ∈ types,
      tag ≠ .instanceMark ∧ tag.basic ≠ .function ∧ tag.basic ≠ .nil := by
    intro types
    rw [isConflicting, any_eq_true]
    simp [and_assoc, Membership.mem]
  rw [hAny]
  constructor
  · rintro ⟨tag, hTag, hOther⟩
    obtain ⟨d, hd, hTag⟩ := mem_typesOf.1 hTag
    obtain ⟨hd, hInstance⟩ := mem_filter.1 hd
    obtain ⟨hd, hValue⟩ := mem_filter.1 hd
    exact ⟨d, hd, by simpa using hValue, hInstance, tag, hTag, hOther⟩
  · rintro ⟨d, hd, hValue, hInstance, tag, hTag, hOther⟩
    refine ⟨tag, mem_typesOf.2 ⟨d, ?_, hTag⟩, hOther⟩
    exact mem_filter.2 ⟨mem_filter.2 ⟨hd, by simpa using hValue⟩, hInstance⟩

/-- A key with a function: it is a field of instances if a definition collides with the
function, and the function otherwise. -/
theorem member?_of_firstFunction? {f : FunctionRecord} (hShown : isHiddenKey key = false)
    (hFirst : s.firstFunction? defs = some f) :
    ((¬ ∃ d ∈ defs, s.Collides d) →
        s.member? key defs = some (.function (s.functionSummary f key))) ∧
      ((∃ d ∈ defs, s.Collides d) → s.member? key defs =
        some (.field (s.fieldSummary key (defs.filter fun d => !s.isFunction d) true))) := by
  rw [member?, hShown, hFirst, ← isConflicting_iff]
  refine ⟨fun hAgrees => ?_, fun hCollides => ?_⟩
  · simp only [Bool.false_eq_true, if_false]
    exact if_neg hAgrees
  · simp only [Bool.false_eq_true, if_false]
    rw [if_pos hCollides]
    obtain ⟨d, hd, hValue, hInstance, -⟩ := isConflicting_iff.1 hCollides
    have hMem : d ∈ defs.filter fun d => !s.isFunction d :=
      mem_filter.2 ⟨hd, by simpa using hValue⟩
    rw [valueMember?, if_neg (by simpa using ne_nil_of_mem hMem),
      any_eq_true.2 ⟨d, hMem, hInstance⟩]

/-- The first function among definitions is known. -/
theorem Grounded.exists_firstFunction? (hs : s.Grounded)
    (h : ∃ d ∈ defs, s.isFunction d = true) : ∃ f, s.firstFunction? defs = some f := by
  obtain ⟨d, hd, hFunction⟩ := h
  have hSome : (defs.findSome? fun d => s.terms.functionLiteral? d.value).isSome = true :=
    isSome_findSome?.trans (any_eq_true.2 ⟨d, hd, hFunction⟩)
  obtain ⟨id, hId⟩ := Option.isSome_iff_exists.1 hSome
  obtain ⟨d, -, hLiteral⟩ := exists_of_findSome?_eq_some hId
  obtain ⟨f, hf⟩ := OrderedMap.mem_keys_iff.1 (hs.knowsFunction_of_functionLiteral? hLiteral).1
  exact ⟨f, by rw [firstFunction?, hId]; exact hf⟩

/-- A key becomes a member under its own name unless it is hidden. -/
theorem Grounded.name_member? (hs : s.Grounded) (hDefs : defs ≠ []) (key : String) :
    (s.member? key defs).map Member.name = if isHiddenKey key then none else some key := by
  split
  · rename_i hHidden
    rw [member?, if_pos hHidden]
    rfl
  · rename_i hShown
    rw [Bool.not_eq_true] at hShown
    by_cases hFunction : ∃ d ∈ defs, s.isFunction d = true
    · obtain ⟨f, hFirst⟩ := hs.exists_firstFunction? hFunction
      by_cases hCollides : ∃ d ∈ defs, s.Collides d
      · rw [(member?_of_firstFunction? hShown hFirst).2 hCollides]
        rfl
      · rw [(member?_of_firstFunction? hShown hFirst).1 hCollides]
        rfl
    · have hValues : (defs.filter fun d => !s.isFunction d) = defs :=
        filter_eq_self.2 fun d hd => by simpa using fun h => hFunction ⟨d, hd, h⟩
      have hNone : s.firstFunction? defs = none := by
        rw [firstFunction?, findSome?_eq_none_iff.2 fun d hd => ?_]
        · rfl
        · by_contra hSome
          exact hFunction ⟨d, hd, Option.isSome_iff_ne_none.2 hSome⟩
      rw [member?, hShown, hNone, hValues]
      simp only [Bool.false_eq_true, if_false]
      rw [valueMember?, if_neg (by simpa using hDefs)]
      rfl

/-- The members of a table have the names of its keys, in order, without the hidden ones. -/
theorem Grounded.map_name_members (hs : s.Grounded) {t : TableRecord}
    (hFilled : TableRecord.IsFilled t.fields) :
    (t.fields.entries.filterMap fun entry => s.member? entry.1 entry.2).map Member.name =
      t.fields.keys.filter fun key => !isHiddenKey key := by
  have hName : ∀ entry ∈ t.fields.entries, (s.member? entry.1 entry.2).map Member.name =
      if isHiddenKey entry.1 then none else some entry.1 := by
    intro entry hEntry
    refine hs.name_member? (fun hNil => hFilled entry.1 ?_) entry.1
    rw [← hNil]
    exact OrderedMap.find?_eq_some_iff.2 hEntry
  rw [map_filterMap, OrderedMap.keys, filter_map, ← filterMap_eq_map,
    ← filterMap_eq_filter, filterMap_filterMap]
  refine filterMap_congr fun entry hEntry => ?_
  rw [hName entry hEntry]
  cases hKey : isHiddenKey entry.1 <;> simp [Option.guard, hKey]

/-- **Members of a class.**  In every context that reading leads to, every key of a table that
is not hidden is the name of one member, and no other name is; the lists keep the order of the
keys.  A key that is given a function is a function, unless a value assigned through an
instance collides with it: then it is an instance field with the types of all other values. -/
theorem class_members_partitioned {buckets : List String} (h : Reached buckets s) {x : TableId}
    {t : TableRecord} (hTable : s.table? x = some t) :
    let c := s.classMembers t
    (∀ key, (c.lists.flatten.map Member.name).count key =
      if key ∈ t.fields.keys ∧ isHiddenKey key = false then 1 else 0) ∧
    (∀ list ∈ c.lists, (list.map Member.name).Sublist t.fields.keys) ∧
    ∀ key defs, (key, defs) ∈ t.fields.entries → isHiddenKey key = false →
      (∃ d ∈ defs, s.isFunction d = true) →
        ((¬ ∃ d ∈ defs, s.Collides d) →
          ∃ f ∈ c.functions ++ c.methods ++ c.constructors, f.name = key) ∧
        ((∃ d ∈ defs, s.Collides d) → ∃ f ∈ c.instanceFields, f.name = key ∧
          f.value.types = s.finalTypes (s.typesOf (defs.filter fun d => !s.isFunction d))) := by
  have hNames := h.grounded.map_name_members (h.sound.isFilled x t hTable)
  let members := t.fields.entries.filterMap fun entry => s.member? entry.1 entry.2
  have hPerm : (s.classMembers t).lists.flatten.Perm members :=
    ClassMembers.perm_flatten_lists members
  have hLists : (s.classMembers t).lists = _ := ClassMembers.lists_foldl_add members
  refine ⟨fun key => ?_, fun list hList => ?_, fun key defs hEntry hShown hFunction => ?_⟩
  · have hKeys := hPerm.map Member.name
    rw [hNames] at hKeys
    refine (hKeys.count_eq key).trans ((t.fields.distinct.filter _).count.trans ?_)
    exact if_congr (by simp [OrderedMap.keys]) rfl rfl
  · rw [hLists] at hList
    obtain ⟨i, -, rfl⟩ := mem_map.1 hList
    refine (filter_sublist.map Member.name).trans ?_
    rw [hNames]
    exact filter_sublist
  · obtain ⟨f, hFirst⟩ := h.grounded.exists_firstFunction? hFunction
    obtain ⟨hAgrees, hCollides⟩ := member?_of_firstFunction? hShown hFirst
    have hMem : ∀ m, s.member? key defs = some m → m ∈ members :=
      fun m hm => mem_filterMap.2 ⟨_, hEntry, hm⟩
    refine ⟨fun hNone => ?_, fun hSome => ?_⟩
    · have hListed := hPerm.mem_iff.2 (hMem _ (hAgrees hNone))
      simp only [ClassMembers.lists, flatten_cons, flatten_nil, append_nil,
        mem_append, mem_map, Member.function.injEq, exists_eq_right, reduceCtorEq,
        and_false, exists_false, false_or] at hListed
      exact ⟨s.functionSummary f key, by simpa [or_assoc] using hListed, rfl⟩
    · have hField := hMem _ (hCollides hSome)
      have hInstances : (s.classMembers t).instanceFields.map Member.field =
          members.filter (·.place = 1) := Option.some.inj (congrArg (·[1]?) hLists)
      have hListed : _ ∈ members.filter (·.place = 1) := mem_filter.2 ⟨hField, rfl⟩
      rw [← hInstances] at hListed
      obtain ⟨g, hg, hEq⟩ := mem_map.1 hListed
      cases hEq
      exact ⟨_, hg, rfl, rfl⟩

set_option maxRecDepth 100000 in
/-- A number assigned through an instance makes an instance field of a function. -/
theorem class_members_partitioned_collision :
    let files : List SourceFile := [⟨"shared/a",
      "C = {}\nfunction C:new() self.f = 1 end\nfunction C.f() end\nC.__index = C"⟩]
    let s := readChunks [] (files.filterMap SourceFile.chunk?)
    ∃ t, s.table? ⟨1⟩ = some t ∧ t.fields.keys = ["f", "new", "__index"] ∧
      (∀ key, ((s.classMembers t).lists.flatten.map Member.name).count key =
        if key ∈ t.fields.keys ∧ isHiddenKey key = false then 1 else 0) ∧
      ∃ f ∈ (s.classMembers t).instanceFields, f.name = "f" := by
  intro files s
  have hRead : (s.table? ⟨1⟩).map (fun t => (t.fields.keys, (t.fields.find? "f").map fun defs =>
      (defs.any s.isFunction, defs.any fun d =>
        !s.isFunction d && d.onInstance && decide (.number ∈ s.typesOf [d])))) =
      some (["f", "new", "__index"], some (true, true)) := by
    decide +kernel
  obtain ⟨t, hTable, hRead⟩ := Option.map_eq_some_iff.1 hRead
  obtain ⟨hKeys, hField⟩ := Prod.mk.inj hRead
  obtain ⟨defs, hDefs, hAny⟩ := Option.map_eq_some_iff.1 hField
  obtain ⟨hFunction, hCollides⟩ := Prod.mk.inj hAny
  obtain ⟨hCount, -, hMembers⟩ := class_members_partitioned (reached_readChunks [] _) hTable
  obtain ⟨d, hd, hValue⟩ := any_eq_true.1 hCollides
  simp only [Bool.and_eq_true, Bool.not_eq_true', decide_eq_true_eq] at hValue
  obtain ⟨f, hf, hName, -⟩ := (hMembers "f" defs (OrderedMap.find?_eq_some_iff.1 hDefs) (by decide)
    (any_eq_true.1 hFunction)).2 ⟨d, hd, hValue.1.1, hValue.1.2, .number, hValue.2, by decide⟩
  exact ⟨t, hTable, hKeys, hCount, f, hf, hName⟩

end Inference

end LuaShape
