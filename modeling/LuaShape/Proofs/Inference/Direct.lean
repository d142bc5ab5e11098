import LuaShape.Proofs.Inference.Grounded

/-!
# Resolution without a memo

The rules of type resolution do not say how the types of a part are asked for.
`directTypes` asks for them afresh every time and gives up where a chain of terms is
too long; a term that depends on itself has no end to its chains, so it is given up
too.  Where direct resolution has an answer, the memoizing resolver has the same
(`resolve_eq_of_directTypes`).

Two ways of asking that correspond make all rules correspond.  This is shown once,
for any relation between computations that respects how they are put together
(`Correspondence`) and any two contexts in which rules find the same (`Concord`).  Here it
is used for direct resolution with more depth, and for the memoizing resolver.  The
argument for the latter is on depth: the entries of terms in progress are wrong, but these
terms have no direct answer within the depth that is left, so they are not asked for.
-/

namespace LuaShape.Inference

open List

/-! ## Computations that correspond -/

/-- A relation between computations of two kinds that respects how they are put together, as long
as all answers are of a certain kind. -/
structure Correspondence (m n : Type → Type) [Monad m] [Monad n] (T : TypeSet → Prop) where
  Rel : m TypeSet → n TypeSet → Prop
  pure : ∀ {types : TypeSet}, T types → Rel (pure types) (pure types)
  bind : ∀ {x : m TypeSet} {y : n TypeSet} {f : TypeSet → m TypeSet} {g : TypeSet → n TypeSet},
    Rel x y → (∀ types, T types → Rel (f types) (g types)) → Rel (x >>= f) (y >>= g)

/-- Rules find the same in two contexts, if they start from certain terms: they come to such terms
only, and to types of a certain kind. -/
structure Concord (s s' : Inference) (K : TermId → Prop) (T : TypeSet → Prop) : Prop where
  of_plain : ∀ {types : TypeSet}, types.tables = [] → types.functions = [] → T types
  falsyPart : ∀ types, T (TypeSet.falsyPart types)
  truthyPart : ∀ {types}, T types → T types.truthyPart
  union : ∀ {types types'}, T types → T types' → T (types.union types')
  insert : ∀ {types tag}, T types → tag = .nil ∨ tag = .instanceMark → T (types.insert tag)
  definitions : ∀ ident, s'.definitionsOf ident = s.definitionsOf ident ∧
    s'.standing (s.definitionsOf ident) = s.standing (s.definitionsOf ident) ∧
    ∀ d ∈ s.definitionsOf ident, K d.value
  isModuleLevel : s'.isModuleLevel = s.isModuleLevel
  fields : ∀ owner key,
    s'.standing (s'.fieldDefinitions owner key) = s.standing (s.fieldDefinitions owner key) ∧
    ∀ d ∈ s.fieldDefinitions owner key, K d.value
  modules : s'.moduleNamed? = s.moduleNamed?
  returned : ∀ (target : Option String) (slot : Nat),
    ∀ d ∈ ((target.bind s.moduleNamed?).bind fun record => record.returns[slot]?).getD [], K d.value
  term : ∀ {id}, K id → s'.term id = s.term id ∧ ∀ part ∈ (s.term id).parts, K part
  literal : ∀ {id value}, K id → s.term id = .literal value →
    s'.literalTypes value = s.literalTypes value ∧ T (s.literalTypes value)
  isConstant : ∀ {id}, K id → s'.isConstant id = s.isConstant id
  function : ∀ {types id}, T types → types.singleFunction? = some id →
    s'.function? id = s.function? id ∧ ∀ f, s.function? id = some f →
      (∀ owner, f.constructs = some owner → T (.of [.tableRef owner, .instanceMark])) ∧
      ∀ (slot : Nat), ∀ v ∈ f.returns[slot]?.getD [], K v

theorem Concord.refl (s : Inference) : s.Concord s (fun _ => True) fun _ => True := by
  constructor <;> simp

namespace Correspondence

variable {m n : Type → Type} [Monad m] [Monad n] {s s' : Inference} {K : TermId → Prop}
  {T : TypeSet → Prop} (R : Correspondence m n T) (c : s.Concord s' K T)
  {t : TermId → m TypeSet} {u : TermId → n TypeSet} (h : ∀ id, K id → R.Rel (t id) (u id))

include c h


theorem unionOf {ids : List TermId} (hIds : ∀ id ∈ ids, K id) :
    R.Rel (Inference.unionOf t ids) (Inference.unionOf u ids) := by
  induction ids with
  | nil => exact R.pure (c.of_plain rfl rfl)
  | cons id rest ih =>
    refine R.bind (h id (hIds id mem_cons_self)) fun first hFirst => ?_
    refine R.bind (ih fun v hv => hIds v (mem_cons_of_mem _ hv)) fun others hOthers => ?_
    exact R.pure (c.union hFirst hOthers)

theorem definedTypes {defs : List Definition} (hDefs : ∀ d ∈ defs, K d.value) :
    R.Rel (Inference.definedTypes t defs) (Inference.definedTypes u defs) := by
  induction defs with
  | nil => exact R.pure (c.of_plain rfl rfl)
  | cons d rest ih =>
    refine R.bind (h d.value (hDefs d mem_cons_self)) fun found hFound => ?_
    refine R.bind (ih fun d' hd' => hDefs d' (mem_cons_of_mem _ hd')) fun others hOthers => ?_
    refine R.pure (c.union ?_ hOthers)
    split
    · exact c.insert hFound (.inr rfl)
    · exact hFound

theorem identRule (ident : Ident) : R.Rel (s.identRule t ident) (s'.identRule u ident) := by
  obtain ⟨hSame, hStanding, hDefs⟩ := c.definitions ident
  simp only [Inference.identRule, hSame, hStanding, c.isModuleLevel]
  refine R.bind (R.definedTypes c h fun d hd => hDefs d (mem_filter.1 hd).1)
    fun found hFound => R.pure ?_
  split
  · exact c.insert hFound (.inl rfl)
  · exact hFound

theorem fieldRule {base : TermId} (hBase : K base) (key : String) :
    R.Rel (s.fieldRule t base key) (s'.fieldRule u base key) := by
  have hField := fun owner => (c.fields owner key).1
  simp only [Inference.fieldRule, hField]
  refine R.bind (h base hBase) fun owners _ => R.unionOf c h fun id hId => ?_
  obtain ⟨owner, -, hValue⟩ := mem_flatMap.1 hId
  obtain ⟨d, hd, rfl⟩ := mem_map.1 hValue
  exact (c.fields owner key).2 d (mem_filter.1 hd).1

theorem requireRule (target : Option String) (slot : Nat) :
    R.Rel (s.requireRule t target slot) (s'.requireRule u target slot) := by
  simp only [Inference.requireRule, c.modules]
  refine R.unionOf c h fun id hId => ?_
  obtain ⟨d, hd, rfl⟩ := mem_map.1 hId
  exact c.returned target slot d hd

theorem andRule {left right : TermId} (hLeft : K left) (hRight : K right) :
    R.Rel (Inference.andRule t left right) (Inference.andRule u left right) := by
  refine R.bind (h left hLeft) fun first hFirst => ?_
  cases first.truthiness with
  | none => exact R.bind (h right hRight) fun _ hSecond => R.pure (c.union (c.falsyPart _) hSecond)
  | some value =>
    cases value with
    | true => exact h right hRight
    | false => exact R.pure hFirst

theorem plainOrRule {left right : TermId} (hLeft : K left) (hRight : K right) :
    R.Rel (Inference.plainOrRule t left right) (Inference.plainOrRule u left right) := by
  refine R.bind (h left hLeft) fun first hFirst => ?_
  cases first.truthiness with
  | none =>
    exact R.bind (h right hRight) fun _ hSecond => R.pure (c.union (c.truthyPart hFirst) hSecond)
  | some value =>
    cases value with
    | true => exact R.pure hFirst
    | false => exact h right hRight

theorem choiceRule {condition consequent alternative : TermId} (hCondition : K condition)
    (hConsequent : K consequent) (hAlternative : K alternative) :
    R.Rel (Inference.choiceRule t condition consequent alternative)
      (Inference.choiceRule u condition consequent alternative) := by
  refine R.bind (h condition hCondition) fun test _ =>
    R.bind (h consequent hConsequent) fun chosen hChosen => ?_
  have hKept : T (if test.truthiness = some false then .empty else chosen.truthyPart) := by
    split
    · exact c.of_plain rfl rfl
    · exact c.truthyPart hChosen
  dsimp only
  split
  · exact R.pure hKept
  · exact R.bind (h alternative hAlternative) fun _ hOther => R.pure (c.union hKept hOther)

theorem orRule {left right : TermId} (hLeft : K left) (hRight : K right) :
    R.Rel (s.orRule t left right) (s'.orRule u left right) := by
  obtain ⟨hTerm, hParts⟩ := c.term hLeft
  unfold Inference.orRule
  rw [hTerm]
  split
  · rename_i condition consequent rest hChoice
    rw [hChoice] at hParts
    exact R.choiceRule c h (hParts condition (by simp [Term.parts]))
      (hParts consequent (by simp [Term.parts])) hRight
  · exact R.plainOrRule c h hLeft hRight

theorem notRule {operand : TermId} (hOperand : K operand) :
    R.Rel (s.notRule t operand) (s'.notRule u operand) := by
  unfold Inference.notRule
  rw [c.isConstant hOperand]
  split
  · refine R.bind (h operand hOperand) fun types _ => ?_
    cases types.truthiness with
    | none => exact R.pure (c.of_plain rfl rfl)
    | some value => cases value <;> exact R.pure (c.of_plain rfl rfl)
  · exact R.pure (c.of_plain rfl rfl)

theorem returnRule {types : TypeSet} (hTypes : T types) {id : FunctionId}
    (hId : types.singleFunction? = some id) (slot : Nat) :
    R.Rel (s.returnRule t id slot) (s'.returnRule u id slot) := by
  obtain ⟨hFunction, hLinks⟩ := c.function hTypes hId
  unfold Inference.returnRule
  rw [hFunction]
  split
  · exact R.pure (c.of_plain rfl rfl)
  · rename_i f hFound
    split
    · rename_i owner hOwner
      exact R.pure ((hLinks f hFound).1 owner hOwner)
    · exact R.unionOf c h ((hLinks f hFound).2 _)

/-- What is a standard call is the same for both, and the answers correspond. -/
theorem standardCall? {callee : TermId} (hCallee : K callee) {args : List TermId}
    (hArgs : ∀ arg ∈ args, K arg) (slot : Nat) :
    Option.Rel R.Rel (s.standardCall? t callee args slot)
      (s'.standardCall? u callee args slot) := by
  unfold Inference.standardCall?
  rw [(c.term hCallee).1]
  split
  · rename_i name _
    rw [(c.definitions (.global name)).1]
    by_cases hOwn : (slot ≠ 0 || !(s.definitionsOf (.global name)).isEmpty) = true
    · rw [if_pos hOwn, if_pos hOwn]
      exact .none
    · rw [if_neg hOwn, if_neg hOwn]
      by_cases hNumber : name = "tonumber"
      · rw [if_pos hNumber, if_pos hNumber]
        exact .some (R.pure (c.of_plain rfl rfl))
      · rw [if_neg hNumber, if_neg hNumber]
        by_cases hString : (name = "tostring" || name = "type") = true
        · rw [if_pos hString, if_pos hString]
          exact .some (R.pure (c.of_plain rfl rfl))
        · rw [if_neg hString, if_neg hString]
          by_cases hObject : name = "setmetatable"
          · rw [if_pos hObject, if_pos hObject]
            cases args with
            | nil => exact .some (R.pure (c.of_plain rfl rfl))
            | cons object _ => exact .some (h object (hArgs object mem_cons_self))
          · rw [if_neg hObject, if_neg hObject]
            exact .none
  · exact .none

theorem callRule {callee : TermId} (hCallee : K callee) {args : List TermId}
    (hArgs : ∀ arg ∈ args, K arg) (slot : Nat) :
    R.Rel (s.callRule t callee args slot) (s'.callRule u callee args slot) := by
  have hStandard := R.standardCall? c h hCallee hArgs slot
  unfold Inference.callRule
  revert hStandard
  generalize s.standardCall? t callee args slot = answer
  generalize s'.standardCall? u callee args slot = answer'
  rintro (hAnswer | _)
  · exact hAnswer
  · refine R.bind (h callee hCallee) fun types hTypes => ?_
    cases hFunction : types.singleFunction? with
    | none => exact R.pure (c.of_plain rfl rfl)
    | some id => exact R.returnRule c h hTypes hFunction slot

theorem operationRule (op : Operator) {operands : List TermId}
    (hOperands : ∀ id ∈ operands, K id) :
    R.Rel (s.operationRule t op operands) (s'.operationRule u op operands) := by
  unfold Inference.operationRule
  split
  · rename_i left right _
    have hLeft := hOperands left (by simp)
    have hRight := hOperands right (by simp)
    split
    · exact R.andRule c h hLeft hRight
    · exact R.orRule c h hLeft hRight
    · exact R.pure (c.of_plain rfl rfl)
    · refine R.pure ?_
      split <;> exact c.of_plain rfl rfl
  · exact R.pure (c.of_plain rfl rfl)
  · exact R.notRule c h (hOperands _ mem_cons_self)
  · exact R.pure (c.of_plain rfl rfl)
  · exact R.pure (c.of_plain rfl rfl)
  · exact R.callRule c h (hOperands _ mem_cons_self)
      (fun arg hArg => hOperands arg (mem_cons_of_mem _ hArg)) _
  · exact R.pure (c.of_plain rfl rfl)

/-- Where all parts correspond, so do the types of a term. -/
theorem termRule (id : TermId) (hId : K id) :
    R.Rel (s.termRule t (s.term id)) (s'.termRule u (s.term id)) := by
  obtain ⟨-, hParts⟩ := c.term hId
  cases hTerm : s.term id with
  | literal value =>
    obtain ⟨hSame, hTypes⟩ := c.literal hId hTerm
    simp only [Inference.termRule, hSame]
    exact R.pure hTypes
  | reference ident => exact R.identRule c h ident
  | member base name => exact R.fieldRule c h (hParts base (by simp [hTerm, Term.parts])) name
  | index base key =>
    have hKey : s'.terms.fieldKey? key = s.terms.fieldKey? key := by
      rw [Arena.fieldKey?, show s'.terms.get key = s.term key from
        (c.term (hParts key (by simp [hTerm, Term.parts]))).1]
      rfl
    simp only [Inference.termRule, hKey]
    split
    · exact R.fieldRule c h (hParts base (by simp [hTerm, Term.parts])) _
    · exact R.pure (c.of_plain rfl rfl)
  | require _ target slot => exact R.requireRule c h target slot
  | operation op operands =>
    rw [hTerm] at hParts
    exact R.operationRule c h op hParts
  | vararg => exact R.pure (c.of_plain rfl rfl)

end Correspondence

/-! ## Direct resolution -/

/-- The types of a term, found without a memo; nothing if a chain of more than
`depth` terms would have to be followed. -/
def directTypes (s : Inference) : (depth : Nat) → TermId → Option TypeSet
  | 0, _ => none
  | depth + 1, id => (s.termRule (s.directTypes depth) (s.term id)).map (s.narrow id)

/-- A computation that may fail is extended by another one. -/
def extension : Correspondence Option Option fun _ => True where
  Rel x y := ∀ a, x = some a → y = some a
  pure _ := fun _ h => h
  bind := by
    intro x y f g hx hf b hb
    obtain ⟨a, hxa, hfa⟩ := Option.bind_eq_some_iff.1 hb
    exact Option.bind_eq_some_iff.2 ⟨a, hx a hxa, hf a trivial b hfa⟩

variable {depth : Nat} {id : TermId} {types : TypeSet} {s : Inference} {seen : Seen}

theorem directTypes_succ (s : Inference) (h : s.directTypes depth id = some types) :
    s.directTypes (depth + 1) id = some types := by
  induction depth generalizing id types with
  | zero => cases h
  | succ depth ih =>
    rw [directTypes, Option.map_eq_some_iff] at h ⊢
    obtain ⟨raw, hRaw, hTypes⟩ := h
    exact ⟨raw, extension.termRule (.refl s) (fun _ _ _ h => ih h) id trivial raw hRaw, hTypes⟩

/-- More depth changes no answer. -/
theorem directTypes_mono (s : Inference) {depth depth' : Nat} (hDepth : depth ≤ depth')
    (h : s.directTypes depth id = some types) : s.directTypes depth' id = some types := by
  induction hDepth with
  | refl => exact h
  | step _ ih => exact s.directTypes_succ ih

theorem directTypes_unique (s : Inference) {depth depth' : Nat} {types types' : TypeSet}
    (h : s.directTypes depth id = some types) (h' : s.directTypes depth' id = some types') :
    types = types' := by
  have hMax := s.directTypes_mono (Nat.le_max_left depth depth') h
  rw [s.directTypes_mono (Nat.le_max_right depth depth') h', Option.some.injEq] at hMax
  exact hMax.symm

/-! ## The memo -/

/-- An entry of the memo is what direct resolution finds with some depth. -/
def Right (s : Inference) (id : TermId) (types : TypeSet) : Prop :=
  ∃ depth, s.directTypes depth id = some types

/-- All entries of the memo are right, but for terms that direct resolution gives up
at a depth. -/
def Trusted (s : Inference) (depth : Nat) (seen : Seen) : Prop :=
  ∀ id types, seen.find? id = some types → s.directTypes depth id = none ∨ s.Right id types

/-- A memo has only right entries beside those of another one. -/
def Extends (s : Inference) (seen seen' : Seen) : Prop :=
  ∀ id types, seen'.find? id = some types → seen.find? id = some types ∨ s.Right id types

theorem Extends.refl (s : Inference) (seen : Seen) : s.Extends seen seen :=
  fun _ _ h => .inl h

theorem Extends.trans {seen seen' seen'' : Seen} (h : s.Extends seen seen')
    (h' : s.Extends seen' seen'') : s.Extends seen seen'' :=
  fun id types hFound => (h' id types hFound).elim (h id types) .inr

theorem Trusted.extends {seen seen' : Seen} (h : s.Trusted depth seen) (h' : s.Extends seen seen') :
    s.Trusted depth seen' :=
  fun id types hFound => (h' id types hFound).elim (h id types) .inr

/-- What is given up at a depth is given up at a lower one. -/
theorem Trusted.mono {depth depth' : Nat} (hDepth : depth ≤ depth') (h : s.Trusted depth' seen) :
    s.Trusted depth seen := by
  intro id types hFound
  refine (h id types hFound).imp_left fun hNone => ?_
  rw [Option.eq_none_iff_forall_ne_some] at hNone ⊢
  exact fun found hSome => hNone found (s.directTypes_mono hDepth hSome)

/-- Starting on a term that is given up at a depth. -/
theorem Trusted.start (h : s.Trusted depth seen) (hNone : s.directTypes depth id = none) :
    s.Trusted depth (seen.insert id .empty) := by
  intro other types hFound
  rw [OrderedMap.insert, OrderedMap.find?_upsert] at hFound
  split at hFound
  · rename_i hSame
    exact .inl (hSame ▸ hNone)
  · exact h other types hFound

/-- Being done with a term. -/
theorem Extends.finish {seen seen' : Seen} (h : s.Extends (seen.insert id .empty) seen')
    (hRight : s.Right id types) : s.Extends seen (seen'.insert id types) := by
  intro other found hFound
  rw [OrderedMap.insert, OrderedMap.find?_upsert] at hFound
  split at hFound
  · rename_i hSame
    cases hFound
    exact .inr (hSame ▸ hRight)
  · rename_i hOther
    refine (h other found hFound).imp_left fun hOld => ?_
    rwa [OrderedMap.insert, OrderedMap.find?_upsert, if_neg hOther] at hOld

/-- A computation with a memo gives the answer of one that may fail, from every memo
that is trusted at a depth, and adds right entries. -/
def memoized (s : Inference) (depth : Nat) :
    Correspondence (StateM Seen) Option fun _ => True where
  Rel x y := ∀ a, y = some a → ∀ seen, s.Trusted depth seen →
    (x.run seen).1 = a ∧ s.Extends seen (x.run seen).2
  pure _ := by
    rintro _ ⟨⟩ seen -
    exact ⟨rfl, .refl s seen⟩
  bind := by
    intro x y f g hx hf b hb seen hSeen
    obtain ⟨a, hya, hga⟩ := Option.bind_eq_some_iff.1 hb
    obtain ⟨hValue, hFirst⟩ := hx a hya seen hSeen
    obtain ⟨hResult, hSecond⟩ := hf a trivial b hga (x.run seen).2 (hSeen.extends hFirst)
    rw [← hValue] at hResult hSecond
    exact ⟨hResult, hFirst.trans hSecond⟩

/-- The least depth at which a term has a direct answer. -/
theorem exists_least_depth (h : s.directTypes depth id = some types) :
    ∃ least < depth, s.directTypes least id = none ∧ s.directTypes (least + 1) id = some types := by
  induction depth with
  | zero => cases h
  | succ depth ih =>
    cases hLower : s.directTypes depth id with
    | none => exact ⟨depth, Nat.lt_succ_self depth, hLower, h⟩
    | some found =>
      obtain rfl := s.directTypes_unique h hLower
      obtain ⟨least, hLt, hLeast⟩ := ih hLower
      exact ⟨least, Nat.lt_succ_of_lt hLt, hLeast⟩

/-- A term that the memo holds is not asked for again. -/
theorem run_typesWithin_of_seen (s : Inference) (limit : Nat) {found : TypeSet}
    (h : seen.find? id = some found) : (s.typesWithin (limit + 1) id).run seen = (found, seen) := by
  rw [typesWithin, StateT.run_bind, StateT.run_get, pure_bind]
  dsimp only
  rw [h]
  rfl

theorem run_typesWithin_of_new (s : Inference) (limit : Nat) (h : seen.find? id = none) :
    (s.typesWithin (limit + 1) id).run seen =
      let done := (s.termRule (s.typesWithin limit) (s.term id)).run (seen.insert id .empty)
      (s.narrow id done.1, done.2.insert id (s.narrow id done.1)) := by
  rw [typesWithin, StateT.run_bind, StateT.run_get, pure_bind]
  dsimp only
  rw [h]
  rfl

/-- Within enough depth, the memoizing resolver finds what direct resolution finds. -/
theorem typesWithin_of_directTypes (s : Inference) {depth limit : Nat} (hLimit : depth ≤ limit)
    (h : s.directTypes depth id = some types) (hSeen : s.Trusted depth seen) :
    ((s.typesWithin limit id).run seen).1 = types ∧
      s.Extends seen ((s.typesWithin limit id).run seen).2 := by
  induction limit generalizing depth id types seen with
  | zero =>
    obtain rfl : depth = 0 := Nat.le_zero.1 hLimit
    cases h
  | succ limit ih =>
    obtain ⟨least, hLeast, hNone, hSome⟩ := exists_least_depth h
    cases hFound : seen.find? id with
    | some found =>
      rw [s.run_typesWithin_of_seen limit hFound]
      refine ⟨?_, .refl s seen⟩
      rcases hSeen id found hFound with hGiven | ⟨_, hRight⟩
      · rw [h] at hGiven
        cases hGiven
      · exact s.directTypes_unique hRight h
    | none =>
      rw [directTypes, Option.map_eq_some_iff] at hSome
      obtain ⟨raw, hRaw, hTypes⟩ := hSome
      -- Below this term, direct answers need no more than the least depth.
      have hParts : ∀ part, True → (s.memoized least).Rel (s.typesWithin limit part)
          (s.directTypes least part) := by
        intro part _ found hPart seen' hSeen'
        exact ih (by omega) hPart hSeen'
      obtain ⟨hValue, hExtends⟩ := (s.memoized least).termRule (.refl s) hParts id trivial raw hRaw
        (seen.insert id .empty) ((hSeen.mono (by omega)).start hNone)
      rw [s.run_typesWithin_of_new limit hFound]
      dsimp only
      rw [hValue, hTypes]
      exact ⟨rfl, hExtends.finish ⟨depth, h⟩⟩

/-- Where direct resolution has an answer, resolution has the same. -/
theorem resolve_eq_of_directTypes (s : Inference) (hDepth : depth ≤ maxDepth)
    (h : s.directTypes depth id = some types) : s.resolve id = types := by
  refine (s.typesWithin_of_directTypes hDepth h ?_).1
  intro other found hFound
  cases hFound

end LuaShape.Inference
