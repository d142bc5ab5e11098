import LuaShape.Proofs.Inference.Direct
import LuaShape.Proofs.Inference.Reached
import LuaShape.Proofs.Project.Chunks

/-!
# Declared returns and the results of calls

The types of a call and the returns that the summary of a function declares are
computed apart: the first from the callee, with the memo of the resolution it is part
of, the second value by value, each with a memo of its own.  Where the chains of terms
below a call are followed to their end, both say the same of a function that is no
constructor.  A constructor declares the instance it makes and nothing else, while a
call of it still has what it returns behind the instance.

Main result: `finalTypes_call_eq_declared`.
-/

namespace LuaShape.Inference

open List

/-! ## Calls -/

/-- The standard functions whose results are known. -/
def standardNames : List String := ["tonumber", "tostring", "type", "setmetatable"]

/-- A call that asks a standard function for its first result. -/
def IsStandardCall (s : Inference) (callee : TermId) (slot : Nat) : Prop :=
  slot = 0 ∧ ∃ name ∈ standardNames,
    s.term callee = .reference (.global name) ∧ s.definitionsOf (.global name) = []

instance (s : Inference) (callee : TermId) (slot : Nat) :
    Decidable (s.IsStandardCall callee slot) :=
  inferInstanceAs (Decidable (_ ∧ _))

/-- Only calls of standard functions have an answer of their own. -/
theorem standardCall?_eq_none {m : Type → Type} [Monad m] {s : Inference} {callee : TermId}
    {slot : Nat} (h : ¬ s.IsStandardCall callee slot) (types : TermId → m TypeSet)
    (args : List TermId) : s.standardCall? types callee args slot = none := by
  unfold standardCall?
  split
  · rename_i name hCallee
    by_cases hOwn : (slot ≠ 0 || !(s.definitionsOf (.global name)).isEmpty) = true
    · rw [if_pos hOwn]
    · have hSlot : slot = 0 ∧ s.definitionsOf (.global name) = [] := by simpa using hOwn
      have hName : name ∉ standardNames := fun hMem =>
        h ⟨hSlot.1, name, hMem, hCallee, hSlot.2⟩
      simp only [standardNames, mem_cons, not_mem_nil, or_false, not_or] at hName
      simp [hName]
  · rfl

variable {types : TypeSet}

section

variable (s : Inference)

/-- The types of a union of terms that direct resolution has answers for. -/
theorem mem_unionOf_directTypes {depth : Nat} (hDepth : depth ≤ maxDepth) {ids : List TermId}
    (h : unionOf (s.directTypes depth) ids = some types) (tag : TypeTag) :
    tag ∈ types ↔ ∃ id ∈ ids, tag ∈ s.resolve id := by
  induction ids generalizing types with
  | nil =>
    cases h
    simp
  | cons id rest ih =>
    obtain ⟨first, hFirst, hRest⟩ := Option.bind_eq_some_iff.1 h
    obtain ⟨others, hOthers, hUnion⟩ := Option.bind_eq_some_iff.1 hRest
    cases hUnion
    rw [SortedSet.mem_union, ih hOthers, ← s.resolve_eq_of_directTypes hDepth hFirst]
    simp

/-- The types of values resolved one by one. -/
theorem mem_foldl_resolve (ids : List TermId) (types : TypeSet) (tag : TypeTag) :
    tag ∈ ids.foldl (fun types id => types.union (s.resolve id)) types ↔
      tag ∈ types ∨ ∃ id ∈ ids, tag ∈ s.resolve id := by
  induction ids generalizing types with
  | nil => simp
  | cons id rest ih =>
    rw [foldl_cons, ih, SortedSet.mem_union, or_assoc]
    simp

theorem finalTypes_unionOf {depth : Nat} (hDepth : depth ≤ maxDepth) {ids : List TermId}
    (h : unionOf (s.directTypes depth) ids = some types) :
    s.finalTypes types = s.returnTypes ids := by
  refine congrArg s.finalTypes (SortedSet.ext_mem fun tag => ?_)
  rw [s.mem_unionOf_directTypes hDepth h, s.mem_foldl_resolve]
  simp

/-- What a call that is followed to its end resolves to: the answer of the one function
that the callee names. -/
theorem returnRule_of_directTypes {call callee : TermId} {args : List TermId} {slot : Nat}
    {id : FunctionId} (hCall : s.term call = .operation (.call slot) (callee :: args))
    (hCallee : (s.resolve callee).singleFunction? = some id)
    (hStandard : ¬ s.IsStandardCall callee slot) (hUsage : s.usage? (s.usageKey call) = none)
    (hDirect : s.directTypes maxDepth call = some types) :
    s.returnRule (s.directTypes (maxDepth - 1)) id slot = some types := by
  obtain ⟨raw, hRaw, hTypes⟩ := Option.map_eq_some_iff.1 hDirect
  have hNarrow : s.narrow call raw = raw := by
    rw [narrow, narrowUnder, hUsage]
  rw [hNarrow] at hTypes
  subst hTypes
  rw [hCall, termRule, operationRule, callRule, standardCall?_eq_none hStandard] at hRaw
  obtain ⟨found, hFound, hReturn⟩ := Option.bind_eq_some_iff.1 hRaw
  rw [← s.resolve_eq_of_directTypes (by decide) hFound, hCallee] at hReturn
  exact hReturn

/-! ## Declared returns -/

/-- An instance is reported as its class. -/
theorem finalTypes_instance (owner : TableId) :
    s.finalTypes (.of [.tableRef owner, .instanceMark]) = .single (.tableRef owner) := by
  have hMerged : (TypeSet.of [.tableRef owner, .instanceMark]).withoutMark.collapseBooleans =
      .single (.tableRef owner) := rfl
  have hClasses : (s.classesIn (.single (.tableRef owner))).length ≤ maxClasses :=
    Nat.le_trans (length_filter_le _ _) (Nat.le_succ 1)
  rw [finalTypes, hMerged, if_neg (Nat.not_lt.2 hClasses)]

theorem returns_of_constructor {f : FunctionRecord} {owner : TableId}
    (h : f.constructs = some owner) (name : String) :
    (s.functionSummary f name).returns = [.single (.tableRef owner)] := by
  rw [functionSummary, h]

theorem returns_of_plain {f : FunctionRecord} (h : f.constructs = none) (name : String) :
    (s.functionSummary f name).returns = f.returns.map s.returnTypes := by
  rw [functionSummary, h]

/-- A slot behind the last one has no types, as one without values. -/
theorem getD_map_returnTypes (slots : List (List TermId)) (slot : Nat) :
    ((slots.map s.returnTypes)[slot]?).getD .empty = s.returnTypes (slots[slot]?.getD []) := by
  rw [getElem?_map]
  cases slots[slot]? <;> rfl

end

/-- **Declared returns agree with the results of calls.**  Take a call of a slot of a
function, other than the first of a standard function, without uses that narrow it, below
which no chain of terms comes back to itself or is longer than resolution follows.  Unless
the function is a constructor and the slot is behind its first, what the call resolves to
is what the summary of the function declares for the slot, and nothing where it declares
nothing.  A constructor declares no later slot, but a call has there what the function
returns. -/
theorem finalTypes_call_eq_declared (s : Inference) {call callee : TermId} {args : List TermId}
    {slot : Nat} {id : FunctionId} {f : FunctionRecord} (name : String)
    (hCall : s.term call = .operation (.call slot) (callee :: args))
    (hCallee : (s.resolve callee).singleFunction? = some id)
    (hFunction : s.function? id = some f)
    (hStandard : ¬ s.IsStandardCall callee slot)
    (hUsage : s.usage? (s.usageKey call) = none)
    (hDirect : (s.directTypes maxDepth call).isSome) :
    let declared := (s.functionSummary f name).returns[slot]?
    (f.constructs = none ∨ slot = 0 → s.finalTypes (s.resolve call) = declared.getD .empty) ∧
    (f.constructs ≠ none → slot ≠ 0 → declared = none ∧
      s.finalTypes (s.resolve call) = s.returnTypes (f.returns[slot]?.getD [])) := by
  intro declared
  obtain ⟨types, hTypes⟩ := Option.isSome_iff_exists.1 hDirect
  have hReturn := s.returnRule_of_directTypes hCall hCallee hStandard hUsage hTypes
  rw [s.resolve_eq_of_directTypes (Nat.le_refl _) hTypes]
  rw [returnRule, hFunction] at hReturn
  cases hConstructs : f.constructs with
  | none =>
      simp only [hConstructs] at hReturn
      refine ⟨fun _ => ?_, fun h => absurd rfl h⟩
      rw [s.finalTypes_unionOf (by decide) hReturn]
      simp only [declared, s.returns_of_plain hConstructs, s.getD_map_returnTypes]
  | some owner =>
      simp only [declared, s.returns_of_constructor hConstructs]
      cases slot with
      | zero =>
          simp only [hConstructs] at hReturn
          cases hReturn
          exact ⟨fun _ => s.finalTypes_instance owner, fun _ h => absurd rfl h⟩
      | succ slot =>
          simp only [hConstructs] at hReturn
          refine ⟨fun h => by simp at h, fun _ _ => ⟨rfl, ?_⟩⟩
          exact s.finalTypes_unionOf (by decide) hReturn

set_option maxRecDepth 100000 in
/-- A function that returns an instance first and a string second. -/
theorem declared_first_of_returned_instance :
    let files : List SourceFile := [⟨"a",
      "Foo = {} function Foo:new() return self, 1 end
      function pair() return Foo:new(), 'x' end local p, q = pair()"⟩]
    let s := (readChunks [] (files.filterMap SourceFile.chunk?)).propagateArguments
    ∃ f, s.term ⟨14⟩ = .operation (.call 0) [⟨13⟩] ∧
      (s.resolve ⟨13⟩).singleFunction? = some ⟨4⟩ ∧ s.function? ⟨4⟩ = some f ∧
      ¬ s.IsStandardCall ⟨13⟩ 0 ∧ s.usage? (s.usageKey ⟨14⟩) = none ∧
      (s.directTypes maxDepth ⟨14⟩).isSome ∧ f.constructs = none ∧
      s.finalTypes (s.resolve ⟨14⟩) = .single (.tableRef ⟨1⟩) ∧
      s.finalTypes (s.resolve ⟨14⟩) =
        ((s.functionSummary f "pair").returns[0]?).getD .empty := by
  intro files s
  have hRead : s.term ⟨14⟩ = .operation (.call 0) [⟨13⟩] ∧
      (s.resolve ⟨13⟩).singleFunction? = some ⟨4⟩ ∧ ¬ s.IsStandardCall ⟨13⟩ 0 ∧
      s.usage? (s.usageKey ⟨14⟩) = none ∧ (s.directTypes maxDepth ⟨14⟩).isSome ∧
      s.finalTypes (s.resolve ⟨14⟩) = .single (.tableRef ⟨1⟩) ∧
      (s.function? ⟨4⟩).map FunctionRecord.constructs = some none := by
    decide +kernel
  obtain ⟨hCall, hCallee, hStandard, hUsage, hDirect, hTypes, hKnown⟩ := hRead
  obtain ⟨f, hFunction, hPlain⟩ := Option.map_eq_some_iff.1 hKnown
  exact ⟨f, hCall, hCallee, hFunction, hStandard, hUsage, hDirect, hPlain, hTypes,
    (s.finalTypes_call_eq_declared "pair" hCall hCallee hFunction hStandard hUsage hDirect).1
      (.inl hPlain)⟩

set_option maxRecDepth 100000 in
/-- What a constructor returns behind the instance reaches its callers but is not
declared. -/
theorem constructor_second_return_undeclared :
    let files : List SourceFile := [⟨"shared/a",
      "Foo = {}\nfunction Foo:new() return self, 1 end\nlocal a, b = Foo:new()\nreturn b"⟩]
    let s := (readChunks [] (files.filterMap SourceFile.chunk?)).propagateArguments
    s.term ⟨10⟩ = .operation (.call 1) [⟨8⟩, ⟨7⟩] ∧
      (s.resolve ⟨8⟩).singleFunction? = some ⟨2⟩ ∧ ¬ s.IsStandardCall ⟨8⟩ 1 ∧
      s.usage? (s.usageKey ⟨10⟩) = none ∧ (s.directTypes maxDepth ⟨10⟩).isSome ∧
      s.finalTypes (s.resolve ⟨10⟩) = .single .number ∧
      ((s.function? ⟨2⟩).map fun f => (s.functionSummary f "new").returns) =
        some [.single (.tableRef ⟨1⟩)] := by
  decide +kernel

end LuaShape.Inference
