import LuaShape.Proofs.Inference.Choices
import LuaShape.Proofs.Inference.ClosedTerms
import LuaShape.Proofs.Inference.Direct

/-!
# Types of closed expressions

The types found for a closed expression cover every value that it may have, and the types
of each part that is evaluated cover the value of that part.

Each rule for operators is sound by itself: it covers the result if the types it asks for
cover the values of the operands.  A use narrows an operand only to types without which its
operation is an error.  Resolution follows the rules as long as no chain of terms is too
long (`resolve_eq_rule`), so the result is by induction on the evaluation.
-/

namespace LuaShape

open List

/-! ## Types that cover a value -/

namespace Evaluation

variable {N : Type} {v w : Value N} {types types' : TypeSet}

/-- The one of Lua's types that a value has. -/
def Value.type : Value N → TypeTag
  | .nil => .nil
  | .boolean _ => .boolean
  | .number _ => .number
  | .string _ => .string

/-- The tags that cover a value. -/
def Value.tags : Value N → List TypeTag
  | .boolean true => [.true, .boolean]
  | .boolean false => [.false, .boolean]
  | v => [v.type]

/-- A set of types has a tag that covers a value. -/
def Value.Fits (v : Value N) (types : TypeSet) : Prop := ∃ tag ∈ v.tags, tag ∈ types

variable {tag : TypeTag}

theorem basic_of_mem_tags (h : tag ∈ v.tags) : tag.basic = v.type := by
  cases v with
  | boolean value => cases value <;> simp [Value.tags] at h <;> rcases h with rfl | rfl <;> rfl
  | nil | number | string =>
    obtain rfl := mem_singleton.1 h
    rfl

theorem ne_instanceMark_of_mem_tags (h : tag ∈ v.tags) : tag ≠ .instanceMark := by
  have hBasic := basic_of_mem_tags h
  rintro rfl
  cases v <;> cases hBasic

theorem isTruthy_of_mem_tags (h : tag ∈ v.tags) {b : Bool} (hTag : tag.truthiness = some b) :
    v.isTruthy = b := by
  cases v with
  | boolean value =>
    cases value <;> simp [Value.tags] at h <;> rcases h with rfl | rfl <;> cases hTag <;> rfl
  | nil | number | string =>
    obtain rfl := mem_singleton.1 h
    cases hTag
    rfl

namespace Value

theorem fits_single {tag : TypeTag} (h : tag ∈ v.tags) : v.Fits (.single tag) :=
  ⟨tag, h, by simp [TypeSet.single]⟩

theorem fits_boolean (b : Bool) : (boolean b : Value N).Fits (.single .boolean) :=
  fits_single (by cases b <;> simp [tags])

namespace Fits

theorem mono (h : v.Fits types) (hSub : ∀ tag ∈ types, tag ∈ types') : v.Fits types' := by
  obtain ⟨tag, hTag, hMem⟩ := h
  exact ⟨tag, hTag, hSub tag hMem⟩

theorem union_left (h : v.Fits types) (types' : TypeSet) : v.Fits (types.union types') :=
  h.mono fun _ hTag => SortedSet.mem_union.2 (.inl hTag)

theorem union_right (h : v.Fits types') (types : TypeSet) : v.Fits (types.union types') :=
  h.mono fun _ hTag => SortedSet.mem_union.2 (.inr hTag)

/-- A set of types with one truth value covers values of that truth value only. -/
theorem isTruthy_eq (h : v.Fits types) {b : Bool} (hTypes : types.truthiness = some b) :
    v.isTruthy = b := by
  obtain ⟨tag, hTag, hMem⟩ := h
  refine isTruthy_of_mem_tags hTag ((TypeSet.sharedTruthiness_eq_some_iff.1 hTypes).2 _ ?_)
  exact SortedSet.mem_def.1 (SortedSet.mem_erase.2 ⟨hMem, ne_instanceMark_of_mem_tags hTag⟩)

theorem truthiness_ne (h : v.Fits types) {b : Bool} (hValue : v.isTruthy ≠ b) :
    types.truthiness ≠ some b :=
  fun hTypes => hValue (h.isTruthy_eq hTypes)

theorem part (h : v.Fits types) {b : Bool} (hValue : v.isTruthy = b) : v.Fits (types.part b) := by
  obtain ⟨tag, hTag, hMem⟩ := h
  subst hValue
  cases v with
  | boolean value =>
    -- Both the tag of the value and `boolean` leave the tag of the value.
    have hCases : tag = TypeSet.ofBool value ∨ tag = .boolean := by
      cases value <;> simpa [tags, TypeSet.ofBool] using hTag
    refine ⟨TypeSet.ofBool value, by cases value <;> exact mem_cons_self,
      TypeSet.mem_part.2 ?_⟩
    rcases hCases with rfl | rfl
    · exact .inl ⟨hMem, by cases value <;> rfl⟩
    · exact .inr ⟨rfl, hMem⟩
  | nil | number | string =>
    obtain rfl := mem_singleton.1 hTag
    exact ⟨_, hTag, TypeSet.mem_part.2 (.inl ⟨hMem, rfl⟩)⟩

/-- A constraint that allows the type of a value drops no tag that covers it. -/
theorem narrowBy (h : v.Fits types) {constraint : TypeSet} (hType : v.type ∈ constraint) :
    v.Fits (Inference.narrowBy constraint types) := by
  unfold Inference.narrowBy
  split
  · exact h
  · obtain ⟨tag, hTag, hMem⟩ := h
    refine ⟨tag, hTag, Inference.mem_allowedPart.2 ⟨hMem, .inr ?_⟩⟩
    exact basic_of_mem_tags hTag ▸ hType

end Fits

end Value

end Evaluation

namespace Inference

open Evaluation

variable {N : Type} {v w : Value N}

/-! ## Rules that cover -/

section Rules

variable {types : TermId → TypeSet} {left right : TermId}

theorem fits_andRule (hLeft : v.Fits (types left))
    (h : v.isTruthy = false ∧ w = v ∨ v.isTruthy = true ∧ w.Fits (types right)) :
    w.Fits (andRule (m := Id) types left right) := by
  unfold andRule
  dsimp only [bind, pure]
  cases hTypes : (types left).truthiness with
  | none =>
    rcases h with ⟨hFalse, rfl⟩ | ⟨-, hRight⟩
    · exact (hLeft.part hFalse).union_left _
    · exact hRight.union_right _
  | some b =>
    have hValue := hLeft.isTruthy_eq hTypes
    rcases h with ⟨hFalse, rfl⟩ | ⟨hTrue, hRight⟩
    · cases hValue.symm.trans hFalse
      exact hLeft
    · cases hValue.symm.trans hTrue
      exact hRight

theorem fits_plainOrRule (hLeft : v.Fits (types left))
    (h : v.isTruthy = true ∧ w = v ∨ v.isTruthy = false ∧ w.Fits (types right)) :
    w.Fits (plainOrRule (m := Id) types left right) := by
  unfold plainOrRule
  dsimp only [bind, pure]
  cases hTypes : (types left).truthiness with
  | none =>
    rcases h with ⟨hTrue, rfl⟩ | ⟨-, hRight⟩
    · exact (hLeft.part hTrue).union_left _
    · exact hRight.union_right _
  | some b =>
    have hValue := hLeft.isTruthy_eq hTypes
    rcases h with ⟨hTrue, rfl⟩ | ⟨hFalse, hRight⟩
    · cases hValue.symm.trans hTrue
      exact hLeft
    · cases hValue.symm.trans hFalse
      exact hRight

/-- A choice has its consequent where that and the condition are true, and its alternative
where either is false. -/
theorem fits_choiceRule {condition : TermId} {u : Value N} (hCondition : u.Fits (types condition))
    (h : u.isTruthy = true ∧ v.Fits (types left) ∧
        (v.isTruthy = true ∧ w = v ∨ v.isTruthy = false ∧ w.Fits (types right)) ∨
      u.isTruthy = false ∧ w.Fits (types right)) :
    w.Fits (choiceRule (m := Id) types condition left right) := by
  unfold choiceRule
  dsimp only [bind, pure]
  rcases h with ⟨hTest, hLeft, ⟨hTrue, rfl⟩ | ⟨hFalse, hRight⟩⟩ | ⟨hTest, hRight⟩
  · have hNot : (types condition).truthiness ≠ some false :=
      hCondition.truthiness_ne (by simp [hTest])
    rw [if_neg hNot]
    split
    · exact hLeft.part hTrue
    · exact (hLeft.part hTrue).union_left _
  · have hNot : (types left).truthiness ≠ some true :=
      hLeft.truthiness_ne (by simp [hFalse])
    rw [if_neg (by simp [hNot])]
    exact hRight.union_right _
  · have hNot : (types condition).truthiness ≠ some true :=
      hCondition.truthiness_ne (by simp [hTest])
    rw [if_neg (by simp [hNot])]
    exact hRight.union_right _

theorem fits_notRule (s : Inference) (h : v.Fits (types left)) :
    (Value.boolean !v.isTruthy : Value N).Fits (s.notRule (m := Id) types left) := by
  unfold notRule
  split
  · dsimp only [bind, pure]
    cases hTypes : (types left).truthiness with
    | none => exact Value.fits_boolean _
    | some b =>
      rw [h.isTruthy_eq hTypes]
      cases b <;> exact Value.fits_single mem_cons_self
  · exact Value.fits_boolean _

theorem fits_literalTypes (s : Inference) {numbers : Numbers N} {value : Literal}
    (h : numbers.value? value = some v) : v.Fits (s.literalTypes value) := by
  cases value with
  | nil | string =>
    cases h
    exact Value.fits_single mem_cons_self
  | boolean b =>
    cases h
    cases b <;> exact Value.fits_single mem_cons_self
  | number text =>
    obtain ⟨n, _, rfl⟩ := Option.map_eq_some_iff.1 h
    exact Value.fits_single mem_cons_self
  | table | function => cases h

theorem fits_unaryRule (s : Inference) {numbers : Numbers N} {op : UnaryOp} {result : Value N}
    (h : AppliesTo numbers op v result) (hOperand : v.Fits (types left)) :
    result.Fits (s.operationRule (m := Id) types (.unary op) [left]) := by
  cases h with
  | not => exact s.fits_notRule hOperand
  | number hOp _ => rcases hOp with rfl | rfl <;> exact Value.fits_single mem_cons_self
  | length => exact Value.fits_single mem_cons_self

end Rules

/-! ## Uses that leave the types of operands -/

variable {constraint : TypeSet}

theorem mem_of_usedAs {allowed : List TypeTag} (h : usedAs allowed = some constraint)
    {tag : TypeTag} (hTag : tag ∈ allowed) (hDomain : tag ∈ TypeSet.usageDomain) :
    tag ∈ constraint := by
  unfold usedAs at h
  split at h
  · cases h
  · cases h
    exact SortedSet.mem_filter.2 ⟨hDomain, contains_iff_mem.2 hTag⟩

/-- An operation that is no error has operands that its uses allow. -/
theorem type_mem_of_applies {numbers : Numbers N} {op : BinaryOp} {result : Value N}
    (h : Applies numbers op v w result) (hUsed : usedAs (Read.operandTypes op) = some constraint) :
    v.type ∈ constraint ∧ w.type ∈ constraint := by
  have hComparison : op.isComparison = false := by
    cases hOp : op.isComparison with
    | false => rfl
    | true => cases op <;> cases hOp <;> cases hUsed
  cases h with
  | number hOp _ =>
    have hTypes : Read.operandTypes op = [.number] := by
      cases op <;> rcases hOp with hOp | hOp <;> cases hOp <;> rfl
    rw [hTypes] at hUsed
    have hMem : .number ∈ constraint := mem_of_usedAs hUsed mem_cons_self (by decide)
    exact ⟨hMem, hMem⟩
  | concat =>
    have hMem : .string ∈ constraint := mem_of_usedAs hUsed mem_cons_self (by decide)
    exact ⟨hMem, hMem⟩
  | equality hOp => rcases hOp with rfl | rfl <;> cases hComparison
  | numberOrder hOp | stringOrder hOp =>
    rw [hOp] at hComparison
    cases hComparison
  | and | or => cases hUsed

theorem type_mem_of_appliesTo {numbers : Numbers N} {op : UnaryOp} {result : Value N}
    (h : AppliesTo numbers op v result)
    (hUsed : usedAs (Read.unaryOperandTypes op) = some constraint) : v.type ∈ constraint := by
  cases h with
  | not => cases hUsed
  | number hOp _ =>
    show .number ∈ constraint
    rcases hOp with rfl | rfl <;> exact mem_of_usedAs hUsed mem_cons_self (by decide)
  | length =>
    show .string ∈ constraint
    exact mem_of_usedAs hUsed (mem_cons_of_mem _ mem_cons_self) (by decide)

/-! ## Resolution by rules -/

/-- A computation that may fail has the answer of one that does not. -/
def certain : Correspondence Option Id fun _ => True where
  Rel x y := ∀ a, x = some a → y = a
  pure _ := by
    rintro _ ⟨⟩
    rfl
  bind := by
    intro x y f g hx hf b hb
    obtain ⟨a, hxa, hfa⟩ := Option.bind_eq_some_iff.1 hb
    cases hx a hxa
    exact hf y trivial b hfa

/-- Where direct resolution has an answer, the types of a term follow by its rule from those
of its parts. -/
theorem resolve_eq_rule (s : Inference) {id : TermId} {types : TypeSet}
    (h : s.directTypes maxDepth id = some types) :
    s.resolve id = s.narrow id (s.termRule (m := Id) s.resolve (s.term id)) := by
  have hSome : s.directTypes (200 + 1) id = some types := h
  rw [directTypes, Option.map_eq_some_iff] at hSome
  obtain ⟨raw, hRaw, hTypes⟩ := hSome
  have hParts : ∀ part, True → certain.Rel (s.directTypes 200 part) (s.resolve part) :=
    fun part _ found hFound => s.resolve_eq_of_directTypes (by decide) hFound
  rw [s.resolve_eq_of_directTypes (Nat.le_refl _) h, ← hTypes]
  exact congrArg (s.narrow id) (certain.termRule (.refl s) hParts id trivial raw hRaw).symm

/-! ## Direct answers for closed expressions -/

section Answers

variable {types : TermId → Option TypeSet} {left right : TermId}

theorem exists_andRule (hLeft : ∃ found, types left = some found)
    (hRight : ∃ found, types right = some found) :
    ∃ found, andRule types left right = some found := by
  obtain ⟨first, hLeft⟩ := hLeft
  obtain ⟨second, hRight⟩ := hRight
  simp only [andRule, hLeft, hRight, Option.bind_eq_bind, Option.bind_some]
  split <;> exact ⟨_, rfl⟩

theorem exists_plainOrRule (hLeft : ∃ found, types left = some found)
    (hRight : ∃ found, types right = some found) :
    ∃ found, plainOrRule types left right = some found := by
  obtain ⟨first, hLeft⟩ := hLeft
  obtain ⟨second, hRight⟩ := hRight
  simp only [plainOrRule, hLeft, hRight, Option.bind_eq_bind, Option.bind_some]
  split <;> exact ⟨_, rfl⟩

theorem exists_choiceRule {condition : TermId} (hCondition : ∃ found, types condition = some found)
    (hLeft : ∃ found, types left = some found) (hRight : ∃ found, types right = some found) :
    ∃ found, choiceRule types condition left right = some found := by
  obtain ⟨test, hCondition⟩ := hCondition
  obtain ⟨first, hLeft⟩ := hLeft
  obtain ⟨second, hRight⟩ := hRight
  simp only [choiceRule, hCondition, hLeft, hRight, Option.bind_eq_bind, Option.bind_some]
  split <;> exact ⟨_, rfl⟩

theorem exists_notRule (s : Inference) (hLeft : ∃ found, types left = some found) :
    ∃ found, s.notRule types left = some found := by
  obtain ⟨first, hLeft⟩ := hLeft
  simp only [notRule, hLeft, Option.bind_eq_bind, Option.bind_some]
  split
  · split <;> exact ⟨_, rfl⟩
  · exact ⟨_, rfl⟩

end Answers

namespace StandsFor

variable {s : Inference} {start : Nat} {id : TermId} {e : Expr}

variable (h : s.StandsFor start id e)
include h

/-- The term of a closed expression is a literal, or an operation on terms of closed
expressions that are less high. -/
theorem term_cases :
    (∃ value, s.term id = .literal value) ∨
    (∃ op operand start' inner, s.term id = .operation (.unary op) [operand] ∧
      s.StandsFor start' operand inner ∧ inner.height < e.height) ∨
    ∃ op first second start' left start'' right,
      s.term id = .operation (.binary op) [first, second] ∧
      (s.StandsFor start' first left ∧ left.height < e.height) ∧
      s.StandsFor start'' second right ∧ right.height < e.height := by
  induction h with
  | literal _ hTerm _ => exact .inl ⟨_, hTerm⟩
  | paren _ _ ih => exact ih
  | unary _ hTerm h _ _ _ => exact .inr (.inl ⟨_, _, _, _, hTerm, h, Nat.lt_succ_self _⟩)
  | binary _ hTerm hLeft hRight _ _ _ _ _ =>
    exact .inr (.inr ⟨_, _, _, _, _, _, _, hTerm,
      ⟨hLeft, Nat.lt_succ_of_le (Nat.le_max_left ..)⟩,
      hRight, Nat.lt_succ_of_le (Nat.le_max_right ..)⟩)

theorem term_of_literal {value : Literal} (hLiteral : e.literal? = some value) :
    s.term id = .literal value := by
  cases h with
  | literal hLiteral' hTerm =>
    cases hLiteral.symm.trans hLiteral'
    exact hTerm
  | paren | unary | binary => cases hLiteral

/-- Direct resolution has an answer for a closed expression, given a depth of its height. -/
theorem exists_directTypes {depth : Nat} (hDepth : e.height ≤ depth) :
    ∃ types, s.directTypes depth id = some types := by
  induction depth generalizing start id e with
  | zero => exact absurd hDepth (Nat.not_le.2 e.height_pos)
  | succ depth ih =>
    suffices hRule : ∃ raw, s.termRule (s.directTypes depth) (s.term id) = some raw by
      obtain ⟨raw, hRaw⟩ := hRule
      exact ⟨s.narrow id raw, by rw [directTypes, hRaw, Option.map_some]⟩
    rcases h.term_cases with ⟨value, hTerm⟩ | ⟨op, operand, _, inner, hTerm, h, hHeight⟩ |
      ⟨op, first, second, _, left, _, right, hTerm, ⟨hLeft, hHeight⟩, hRight, hHeight'⟩
    · rw [hTerm]
      exact ⟨_, rfl⟩
    · rw [hTerm]
      cases op with
      | not => exact s.exists_notRule (ih h (by omega))
      | neg | bitNot | len => exact ⟨_, rfl⟩
    · rw [hTerm]
      have hFirst := ih hLeft (by omega)
      have hSecond := ih hRight (by omega)
      cases op with
      | and => exact exists_andRule hFirst hSecond
      | or =>
        show ∃ raw, s.orRule (s.directTypes depth) first second = some raw
        unfold orRule
        split
        · -- The operands of the choice are one more step down.
          rename_i condition consequent _ hChoice
          rcases hLeft.term_cases with ⟨_, hTerm'⟩ | ⟨_, _, _, _, hTerm', _⟩ |
            ⟨_, _, _, _, _, _, _, hTerm', ⟨hTest, _⟩, hChosen, _⟩ <;>
            rw [hTerm'] at hChoice <;> cases hChoice
          exact exists_choiceRule (ih hTest (by omega)) (ih hChosen (by omega)) hSecond
        · exact exists_plainOrRule hFirst hSecond
      | _ => exact ⟨_, rfl⟩

/-- What a rule covers, resolution covers, unless the uses of the term rule it out. -/
theorem fits_resolve (hHeight : e.height ≤ maxDepth)
    (hUsage : ∀ constraint, s.usage? (.term id) = some constraint → v.type ∈ constraint)
    (hRule : v.Fits (s.termRule (m := Id) s.resolve (s.term id))) : v.Fits (s.resolve id) := by
  obtain ⟨types, hTypes⟩ := h.exists_directTypes hHeight
  rw [s.resolve_eq_rule hTypes, narrow, h.usageKey_eq, narrowUnder]
  split
  · rename_i constraint hConstraint
    exact hRule.narrowBy (hUsage constraint hConstraint)
  · exact hRule

end StandsFor

/-! ## Traces -/

/-- The term found by following operands. -/
def operandAt (s : Inference) (id : TermId) : List Nat → Option TermId
  | [] => some id
  | position :: path =>
    match s.term id with
    | .operation _ operands => (operands[position]?).bind fun operand => s.operandAt operand path
    | _ => none

/-- The types of the parts that are evaluated cover their values. -/
def CoversTrace (s : Inference) (id : TermId) (trace : Trace N) : Prop :=
  ∀ entry ∈ trace, ∃ part, s.operandAt id entry.1 = some part ∧ entry.2.Fits (s.resolve part)

section Traces

variable {s : Inference} {id part : TermId} {trace trace' : Trace N}

theorem operandAt_cons {op : Operator} {operands : List TermId}
    (hTerm : s.term id = .operation op operands) {position : Nat}
    (hPart : operands[position]? = some part) (path : List Nat) :
    s.operandAt id (position :: path) = s.operandAt part path := by
  rw [operandAt, hTerm]
  simp only [hPart, Option.bind_some]

/-- The trace of an operation: its own value, and the traces of operands. -/
theorem CoversTrace.cons (h : v.Fits (s.resolve id)) (hTrace : s.CoversTrace id trace) :
    s.CoversTrace id (([], v) :: trace) := by
  intro entry hEntry
  rcases mem_cons.1 hEntry with rfl | hEntry
  · exact ⟨id, rfl, h⟩
  · exact hTrace entry hEntry

theorem CoversTrace.append (h : s.CoversTrace id trace) (h' : s.CoversTrace id trace') :
    s.CoversTrace id (trace ++ trace') :=
  fun entry hEntry => (mem_append.1 hEntry).elim (h entry) (h' entry)

theorem CoversTrace.below (h : s.CoversTrace part trace) {op : Operator} {operands : List TermId}
    (hTerm : s.term id = .operation op operands) {position : Nat}
    (hPart : operands[position]? = some part) : s.CoversTrace id (trace.below position) := by
  intro entry hEntry
  obtain ⟨below, hBelow, rfl⟩ := mem_map.1 hEntry
  obtain ⟨found, hFound, hFits⟩ := h below hBelow
  exact ⟨found, (operandAt_cons hTerm hPart below.1).trans hFound, hFits⟩

/-- The types of an operand cover its value, if it is evaluated. -/
theorem CoversTrace.fits_operand (h : s.CoversTrace id trace) {op : Operator}
    {operands : List TermId} (hTerm : s.term id = .operation op operands) {position : Nat}
    (hPart : operands[position]? = some part) (hMem : ([position], v) ∈ trace) :
    v.Fits (s.resolve part) := by
  obtain ⟨found, hFound, hFits⟩ := h _ hMem
  cases (operandAt_cons hTerm hPart []).symm.trans hFound
  exact hFits

end Traces

section Evaluated

variable {numbers : Numbers N} {s : Inference} {start : Nat} {id : TermId} {e : Expr}
  {trace : Trace N}

theorem CoversTrace.fits (h : s.CoversTrace id trace) (hValue : Evaluates numbers e v trace) :
    v.Fits (s.resolve id) := by
  obtain ⟨part, hPart, hFits⟩ := h _ hValue.mem_trace
  cases hPart
  exact hFits

/-- The evaluation of an expression whose term is made with `and`. -/
theorem StandsFor.evaluates_and (h : s.StandsFor start id e) {operands : List TermId}
    (hTerm : s.term id = .operation (.binary .and) operands)
    (hValue : Evaluates numbers e v trace) :
    ∃ u, ([0], u) ∈ trace ∧
      (u.isTruthy = false ∧ v = u ∨ u.isTruthy = true ∧ ([1], v) ∈ trace) := by
  induction hValue generalizing start with
  | literal hLiteral _ => cases (h.term_of_literal hLiteral).symm.trans hTerm
  | paren _ _ ih =>
    cases h with
    | literal hLiteral => cases hLiteral
    | paren _ h => exact ih h
  | unary =>
    cases h with
    | literal hLiteral => cases hLiteral
    | unary _ hTerm' => cases hTerm'.symm.trans hTerm
  | binary _ hLeft hRight hResult =>
    cases h with
    | literal hLiteral => cases hLiteral
    | binary _ hTerm' =>
      cases hTerm'.symm.trans hTerm
      obtain ⟨hTrue, rfl⟩ := hResult.of_and
      have hFirst := Trace.mem_below hLeft.mem_trace 0
      have hSecond := Trace.mem_below hRight.mem_trace 1
      exact ⟨_, mem_cons_of_mem _ (mem_append_left _ hFirst),
        .inr ⟨hTrue, mem_cons_of_mem _ (mem_append_right _ hSecond)⟩⟩
  | decided _ _ hLeft hDecides =>
    cases h with
    | literal hLiteral => cases hLiteral
    | binary _ hTerm' =>
      cases hTerm'.symm.trans hTerm
      cases hDecides with
      | and hFalse =>
        exact ⟨_, mem_cons_of_mem _ (Trace.mem_below hLeft.mem_trace 0),
          .inl ⟨hFalse, rfl⟩⟩

section Binary

variable {first second : TermId} {result : Value N}

/-- The rule for `or` covers the result, whether the left operand is a choice or not. -/
theorem StandsFor.fits_orRule (h : s.StandsFor start first e)
    (hValue : Evaluates numbers e v trace) (hCovers : s.CoversTrace first trace)
    (hResult : v.isTruthy = true ∧ w = v ∨ v.isTruthy = false ∧ w.Fits (s.resolve second)) :
    w.Fits (s.orRule (m := Id) s.resolve first second) := by
  unfold orRule
  split
  · -- The rule for a choice looks past the left operand, at the operands of its `and`.
    rename_i condition consequent _ hTerm
    obtain ⟨u, hMem, hChoice⟩ := h.evaluates_and hTerm hValue
    refine fits_choiceRule (hCovers.fits_operand hTerm rfl hMem) ?_ (v := v)
    rcases hChoice with ⟨hTest, rfl⟩ | ⟨hTest, hChosen⟩
    · rcases hResult with ⟨hTrue, _⟩ | ⟨_, hSecond⟩
      · cases hTest.symm.trans hTrue
      · exact .inr ⟨hTest, hSecond⟩
    · exact .inl ⟨hTest, hCovers.fits_operand hTerm rfl hChosen, hResult⟩
  · exact fits_plainOrRule (hCovers.fits hValue) hResult

/-- The rule of a binary operator covers the result where both operands are evaluated. -/
theorem StandsFor.fits_of_applies (h : s.StandsFor start first e)
    (hValue : Evaluates numbers e v trace) (hCovers : s.CoversTrace first trace)
    (hSecond : w.Fits (s.resolve second)) {op : BinaryOp}
    (hResult : Applies numbers op v w result) :
    result.Fits (s.operationRule (m := Id) s.resolve (.binary op) [first, second]) := by
  have hComparison : ∀ outcome, op.isComparison = true → (Value.boolean outcome : Value N).Fits
      (s.operationRule (m := Id) s.resolve (.binary op) [first, second]) := by
    intro outcome hOp
    cases op <;> cases hOp <;> exact Value.fits_boolean outcome
  cases hResult with
  | number hOp _ =>
    cases op <;> rcases hOp with hOp | hOp <;> cases hOp <;>
      exact Value.fits_single mem_cons_self
  | concat => exact Value.fits_single mem_cons_self
  | equality hOp _ _ outcome => exact hComparison outcome (by rcases hOp with rfl | rfl <;> rfl)
  | numberOrder hOp _ _ outcome | stringOrder hOp _ _ outcome => exact hComparison outcome hOp
  | and hTrue => exact fits_andRule (hCovers.fits hValue) (.inr ⟨hTrue, hSecond⟩)
  | or hFalse => exact h.fits_orRule hValue hCovers (.inr ⟨hFalse, hSecond⟩)

/-- The rule of a binary operator covers the result where the left operand decides. -/
theorem StandsFor.fits_of_decides (h : s.StandsFor start first e)
    (hValue : Evaluates numbers e v trace) (hCovers : s.CoversTrace first trace) {op : BinaryOp}
    (hDecides : Decides op v) :
    v.Fits (s.operationRule (m := Id) s.resolve (.binary op) [first, second]) := by
  cases hDecides with
  | and hFalse => exact fits_andRule (hCovers.fits hValue) (.inl ⟨hFalse, rfl⟩)
  | or hTrue => exact h.fits_orRule hValue hCovers (.inl ⟨hTrue, rfl⟩)

end Binary

/-- The types of a closed expression and its parts cover the values of an evaluation, unless
the uses of the whole rule out its value. -/
theorem StandsFor.covers (h : s.StandsFor start id e) (hHeight : e.height ≤ maxDepth)
    (hValue : Evaluates numbers e v trace)
    (hUsage : ∀ constraint, s.usage? (.term id) = some constraint → v.type ∈ constraint) :
    s.CoversTrace id trace := by
  induction hValue generalizing start id with
  | literal hLiteral hValue =>
    refine .cons (h.fits_resolve hHeight hUsage ?_) fun _ hEntry => by cases hEntry
    rw [h.term_of_literal hLiteral]
    exact s.fits_literalTypes hValue
  | paren _ _ ih =>
    cases h with
    | literal hLiteral => cases hLiteral
    | paren _ h => exact ih h hHeight hUsage
  | unary mark hValue hResult ih =>
    have hWhole := h
    cases h with
    | literal hLiteral => cases hLiteral
    | unary _ hTerm h _ hUsed =>
      have hOperand := ih h (Nat.le_trans (Expr.height_operand_le ..) hHeight)
        fun _ hSome => type_mem_of_appliesTo hResult (hUsed.symm.trans hSome)
      refine .cons (hWhole.fits_resolve hHeight hUsage ?_) (hOperand.below hTerm rfl)
      rw [hTerm]
      exact s.fits_unaryRule hResult (hOperand.fits hValue)
  | binary mark hLeft hRight hResult ihLeft ihRight =>
    have hWhole := h
    cases h with
    | literal hLiteral => cases hLiteral
    | binary _ hTerm h h' _ hUsed hUsed' =>
      have hFirst := ihLeft h (Nat.le_trans (Expr.height_left_le ..) hHeight)
        fun _ hSome => (type_mem_of_applies hResult (hUsed.symm.trans hSome)).1
      have hSecond := ihRight h' (Nat.le_trans (Expr.height_right_le ..) hHeight)
        fun _ hSome => (type_mem_of_applies hResult (hUsed'.symm.trans hSome)).2
      refine .cons (hWhole.fits_resolve hHeight hUsage ?_)
        ((hFirst.below hTerm rfl).append (hSecond.below hTerm rfl))
      rw [hTerm]
      exact h.fits_of_applies hLeft hFirst (hSecond.fits hRight) hResult
  | decided mark right hLeft hDecides ih =>
    have hWhole := h
    cases h with
    | literal hLiteral => cases hLiteral
    | binary _ hTerm h _ _ hUsed _ =>
      -- Neither `and` nor `or` records a use of its operands.
      have hFirst := ih h (Nat.le_trans (Expr.height_left_le ..) hHeight) fun _ hSome => by
        cases hDecides <;> cases hUsed.symm.trans hSome
      refine .cons (hWhole.fits_resolve hHeight hUsage ?_) (hFirst.below hTerm rfl)
      rw [hTerm]
      exact h.fits_of_decides hLeft hFirst hDecides

end Evaluated

/-! ## Expressions as they are read -/

/-- The types found for a closed expression cover every value it may have, and those of each
part that is evaluated cover the value of that part. -/
theorem resolve_covers_evaluation (buckets : List String) (name : String) (hint : Option String)
    {e : Expr} (hClosed : e.Closed) (hHeight : e.height ≤ 201) (numbers : Numbers N)
    {trace : Trace N} (hValue : Evaluates numbers e v trace) :
    let done := (Read.readExpr hint e).run (Reading.start buckets name)
    v.Fits (done.2.inference.resolve done.1) ∧ done.2.inference.CoversTrace done.1 trace := by
  have hAdds := Read.adds_readExpr hClosed hint (unusedFrom_start buckets name)
  have hCovers := hAdds.stands.covers hHeight hValue fun _ hSome => by
    cases (hAdds.unused _ (Nat.le_refl _)).symm.trans hSome
  exact ⟨hCovers.fits hValue, hCovers⟩

/-- Integers, with decimal numerals and the operations that always have integers as
results. -/
def integers : Numbers Int where
  numeral text :=
    if text.toList.all Char.isDigit then
      some (text.toList.foldl (fun n c => 10 * n + (c.toNat - '0'.toNat)) 0)
    else none
  binary
    | .add, a, b => some (a + b)
    | .sub, a, b => some (a - b)
    | .mul, a, b => some (a * b)
    | _, _, _ => none
  unary
    | .neg, a => some (-a)
    | _, _ => none
  length text := text.utf8ByteSize

/-- `("a" < "b" and false or #"xy") + 1`, where the comparison is true. -/
theorem resolve_covers_evaluation_of_choice :
    let mark : Mark := default
    let test : Expr := .binary mark .lt (.string mark "a") (.string mark "b")
    let choice : Expr := .binary mark .or (.binary mark .and test (.boolean mark false))
      (.unary mark .len (.string mark "xy"))
    let e : Expr := .binary mark .add (.paren mark choice) (.number mark "1")
    e.Closed ∧ e.height ≤ 201 ∧ ∃ trace, Evaluates integers e (.number 3) trace ∧
      let done := (Read.readExpr none e).run (Reading.start [] "main")
      (Value.number 3 : Value Int).Fits (done.2.inference.resolve done.1) ∧
      done.2.inference.CoversTrace done.1 trace := by
  intro mark test choice e
  have hNumeral : integers.numeral "1" = some 1 := by decide
  have hSum : integers.binary .add 2 1 = some 3 := rfl
  have hTest : Evaluates integers test (.boolean true) _ :=
    .binary mark (.literal rfl rfl) (.literal rfl rfl) (.stringOrder rfl "a" "b" true)
  have hLength : Evaluates integers (.unary mark .len (.string mark "xy")) (.number 2) _ :=
    .unary mark (.literal rfl rfl) (.length "xy")
  have hChoice : Evaluates integers choice (.number 2) _ :=
    .binary mark (.binary mark hTest (.literal rfl rfl) (.and rfl (.boolean false))) hLength
      (.or rfl (.number 2))
  have hOne : Evaluates integers (.number mark "1") (.number 1) _ :=
    .literal rfl (congrArg (Option.map Value.number) hNumeral)
  have hValue : Evaluates integers e (.number 3) _ :=
    .binary mark (.paren mark hChoice) hOne (.number (.inl rfl) hSum)
  have hClosed : e.Closed :=
    .binary mark _ (.paren mark (.binary mark _ (.binary mark _ (.binary mark _ (.literal rfl)
      (.literal rfl)) (.literal rfl)) (.unary mark _ (.literal rfl)))) (.literal rfl)
  have hHeight : e.height ≤ 201 := by decide
  exact ⟨hClosed, hHeight, _, hValue,
    resolve_covers_evaluation [] "main" none hClosed hHeight integers hValue⟩

end Inference

end LuaShape
