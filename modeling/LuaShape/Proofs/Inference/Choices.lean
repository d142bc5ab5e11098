import LuaShape.Inference.Resolve

/-!
# Choices and short circuits

`c and a or b` is read as a choice between `a` and `b`.  The rule for it looks at the types of
`c` and `a` and skips those of `c and a`.  It gives what the rules for `and` and `or` give one
after the other, but for the instance mark: a set of which only the mark can be true keeps it
in a choice.  Where nothing is known of `c`, the rule for `and` takes `c` to be true, while a
choice may have either value.

All rules are compared by the tags that their results have (`mem_andRule`, `mem_plainOrRule`,
`mem_choiceRule`).
-/

namespace LuaShape

namespace TypeSet

variable {types : TypeSet} {tag : TypeTag} {b : Bool}

/-- A set says something about the type of a value: it has a tag other than the mark. -/
def Names (types : TypeSet) : Prop := ∃ tag ∈ types, tag ≠ .instanceMark

theorem mem_withoutMark : tag ∈ types.withoutMark ↔ tag ∈ types ∧ tag ≠ .instanceMark :=
  SortedSet.mem_erase

theorem sharedTruthiness_eq_some_iff {tags : List TypeTag} :
    sharedTruthiness tags = some b ↔ tags ≠ [] ∧ ∀ tag ∈ tags, tag.truthiness = some b := by
  induction tags with
  | nil => simp [sharedTruthiness]
  | cons first rest ih =>
    cases rest with
    | nil => simp [sharedTruthiness]
    | cons second rest =>
      have hRest : (∀ tag ∈ second :: rest, tag.truthiness = some b) ↔
          sharedTruthiness (second :: rest) = some b := by simp [ih]
      rw [List.forall_mem_cons, hRest, sharedTruthiness.eq_3 _ _ (by simp)]
      cases first.truthiness <;> cases sharedTruthiness (second :: rest) <;> grind

/-- A set is true or false as a whole if it names some type and all types it names are. -/
theorem truthiness_eq_some_iff : types.truthiness = some b ↔
    types.Names ∧ ∀ tag ∈ types, tag ≠ .instanceMark → tag.truthiness = some b := by
  rw [truthiness, sharedTruthiness_eq_some_iff]
  refine and_congr ?_ ?_
  · rw [ne_eq, List.eq_nil_iff_forall_not_mem, Classical.not_forall_not]
    exact exists_congr fun _ => mem_withoutMark
  · exact forall_congr' fun _ => (imp_congr_left mem_withoutMark).trans and_imp

/-- The part of a set that can be true, or the part that can be false. -/
def part (types : TypeSet) : Bool → TypeSet
  | true => types.truthyPart
  | false => types.falsyPart

/-- The tag of a literal boolean. -/
def ofBool : Bool → TypeTag
  | true => .true
  | false => .false

theorem mem_part : tag ∈ types.part b ↔
    tag ∈ types ∧ tag.truthiness = some b ∨ tag = ofBool b ∧ .boolean ∈ types := by
  cases b <;> simp only [part, truthyPart, falsyPart, of, SortedSet.mem_ofList, List.mem_filterMap]
  all_goals
    constructor
    · rintro ⟨source, hSource, hTag⟩
      have hMem : source ∈ types := hSource
      cases source <;> cases hTag <;> simp [hMem, TypeTag.truthiness, ofBool]
    · rintro (⟨hMem, hTag⟩ | ⟨rfl, hMem⟩)
      · refine ⟨tag, hMem, ?_⟩
        cases tag <;> first | rfl | cases hTag
      · exact ⟨_, hMem, rfl⟩

/-- All that a set names is in one part if the set is true or false as a whole. -/
theorem mem_part_of_truthiness {c : Bool} (h : types.truthiness = some c)
    (hTag : tag ≠ .instanceMark) : tag ∈ types.part b ↔ b = c ∧ tag ∈ types := by
  have hAll := (truthiness_eq_some_iff.1 h).2
  have hBoolean : .boolean ∉ types := fun hMem => by
    simpa [TypeTag.truthiness] using hAll _ hMem (by simp)
  rw [mem_part]
  constructor
  · rintro (⟨hMem, hTruth⟩ | ⟨-, hMem⟩)
    · exact ⟨Option.some.inj (hTruth.symm.trans (hAll _ hMem hTag)), hMem⟩
    · exact absurd hMem hBoolean
  · rintro ⟨rfl, hMem⟩
    exact .inl ⟨hMem, hAll _ hMem hTag⟩

/-- A set that names types and is neither true nor false as a whole can be either. -/
theorem exists_mem_part (hNames : types.Names) (h : types.truthiness = none) (b : Bool) :
    ∃ tag ∈ types.part b, tag.truthiness = some b := by
  have hOther : ¬∀ tag ∈ types, tag ≠ .instanceMark → tag.truthiness = some !b := fun hAll => by
    simp [truthiness_eq_some_iff.2 ⟨hNames, hAll⟩] at h
  simp only [Classical.not_forall] at hOther
  obtain ⟨tag, hMem, hTag, hTruth⟩ := hOther
  by_cases hBoolean : tag = .boolean
  · exact ⟨ofBool b, mem_part.2 (.inr ⟨rfl, hBoolean ▸ hMem⟩), by cases b <;> rfl⟩
  · have hSome : tag.truthiness = some b := by
      cases tag <;> cases b <;> simp_all [TypeTag.truthiness]
    exact ⟨tag, mem_part.2 (.inl ⟨hMem, hSome⟩), hSome⟩

end TypeSet

namespace Inference

variable {types : TermId → TypeSet} {left right condition : TermId} {tag : TypeTag}

/-! ## The tags that the rules give -/

theorem mem_andRule (hTag : tag ≠ .instanceMark) :
    tag ∈ (andRule (m := Id) types left right).run ↔
      tag ∈ (types left).part false ∨ (types left).truthiness ≠ some false ∧ tag ∈ types right := by
  unfold andRule
  dsimp only [bind, pure]
  cases hLeft : (types left).truthiness with
  | none => simp [TypeSet.part, Id.run]
  | some b => cases b <;> simp [TypeSet.mem_part_of_truthiness hLeft hTag, Id.run]

theorem mem_plainOrRule (hTag : tag ≠ .instanceMark) :
    tag ∈ (plainOrRule (m := Id) types left right).run ↔
      tag ∈ (types left).part true ∨ (types left).truthiness ≠ some true ∧ tag ∈ types right := by
  unfold plainOrRule
  dsimp only [bind, pure]
  cases hLeft : (types left).truthiness with
  | none => simp [TypeSet.part, Id.run]
  | some b => cases b <;> simp [TypeSet.mem_part_of_truthiness hLeft hTag, Id.run]

theorem mem_choiceRule : tag ∈ (choiceRule (m := Id) types condition left right).run ↔
    (types condition).truthiness ≠ some false ∧ tag ∈ (types left).part true ∨
      ((types condition).truthiness ≠ some true ∨ (types left).truthiness ≠ some true) ∧
        tag ∈ types right := by
  unfold choiceRule
  dsimp only [bind, pure, Id.run, TypeSet.part]
  by_cases hFalse : (types condition).truthiness = some false
  · simp [hFalse]
  · by_cases hBoth : (types condition).truthiness = some true ∧ (types left).truthiness = some true
    · simp [hBoth.1, hBoth.2]
    · have hTest : (decide ((types condition).truthiness = some true) &&
          decide ((types left).truthiness = some true)) = false := by simpa using hBoth
      rw [Classical.not_and_iff_not_or_not] at hBoth
      simp [hFalse, hTest, hBoth]

/-! ## Choices against short circuits -/

/-- What may come out of `or` on the left side is true. -/
theorem mem_part_or_mem_of_mem_plainOrRule
    (h : tag ∈ (plainOrRule (m := Id) types left right).run) :
    tag ∈ (types left).part true ∨ tag ∈ types right := by
  by_cases hTag : tag = .instanceMark
  · unfold plainOrRule at h
    dsimp only [bind, pure, Id.run] at h
    split at h
    · exact .inl (TypeSet.mem_part.2 (.inl ⟨h, hTag ▸ rfl⟩))
    · exact .inr h
    · exact SortedSet.mem_union.1 h
  · exact ((mem_plainOrRule hTag).1 h).imp_right And.right

/-- With a condition that names types, `c and a` is true as a whole exactly if `c` and `a`
are. -/
theorem truthiness_andRule_eq_true_iff (hNames : (types left).Names) :
    (andRule (m := Id) types left right).run.truthiness = some true ↔
      (types left).truthiness = some true ∧ (types right).truthiness = some true := by
  cases hLeft : (types left).truthiness with
  | some b =>
    unfold andRule
    dsimp only [bind, pure, Id.run]
    cases b <;> simp [hLeft]
  | none =>
    obtain ⟨tag, hPart, hFalse⟩ := TypeSet.exists_mem_part hNames hLeft false
    have hTag : tag ≠ .instanceMark := by
      rintro rfl
      cases hFalse
    have hMem : tag ∈ (andRule (m := Id) types left right).run :=
      (mem_andRule hTag).2 (.inl hPart)
    simp only [reduceCtorEq, false_and, iff_false]
    intro hTrue
    have := (TypeSet.truthiness_eq_some_iff.1 hTrue).2 tag hMem hTag
    simp [hFalse] at this

/-- With a condition that names no type, `c and a` is `a`. -/
theorem andRule_of_not_names (hNone : ¬(types left).Names) :
    (andRule (m := Id) types left right).run = types right := by
  have hTest : (types left).truthiness = none :=
    Option.eq_none_iff_forall_ne_some.2 fun b h => hNone (TypeSet.truthiness_eq_some_iff.1 h).1
  have hPart : ∀ tag, tag ∉ (types left).falsyPart := by
    intro tag hMem
    rcases TypeSet.mem_part.1 (show tag ∈ (types left).part false from hMem) with
      ⟨hMem, hFalse⟩ | ⟨-, hMem⟩
    · exact hNone ⟨tag, hMem, by rintro rfl; cases hFalse⟩
    · exact hNone ⟨_, hMem, by simp⟩
  unfold andRule
  dsimp only [bind, pure, Id.run]
  rw [hTest]
  exact SortedSet.ext_mem fun tag => by simp [hPart tag]

/-- What `c and a` can be where it is true: what `a` can be, unless `c` is false. -/
theorem mem_part_andRule (hTag : tag ≠ .instanceMark) :
    tag ∈ (andRule (m := Id) types left right).run.part true ↔
      (types left).truthiness ≠ some false ∧ tag ∈ (types right).part true := by
  have hFalsy : ∀ {x : TypeTag}, x ∈ (types left).part false → x.truthiness = some false := by
    intro x hx
    rcases TypeSet.mem_part.1 hx with ⟨-, h⟩ | ⟨rfl, -⟩
    · exact h
    · rfl
  rw [TypeSet.mem_part, TypeSet.mem_part, mem_andRule hTag, mem_andRule (by simp)]
  constructor
  · rintro (⟨hMem | ⟨hTest, hMem⟩, hTrue⟩ | ⟨rfl, hMem | ⟨hTest, hMem⟩⟩)
    · simp [hFalsy hMem] at hTrue
    · exact ⟨hTest, .inl ⟨hMem, hTrue⟩⟩
    · cases hFalsy hMem
    · exact ⟨hTest, .inr ⟨rfl, hMem⟩⟩
  · rintro ⟨hTest, ⟨hMem, hTrue⟩ | ⟨rfl, hMem⟩⟩
    · exact .inl ⟨.inr ⟨hTest, hMem⟩, hTrue⟩
    · exact .inr ⟨rfl, .inr ⟨hTest, hMem⟩⟩

/-- A choice has the types that `or` gives to what `and` gives, apart from the instance mark,
if the condition names any type; if not, it has at least these. -/
theorem choice_agrees_with_short_circuit (s : Inference) (types : TermId → TypeSet)
    {left condition consequent : TermId} (alternative : TermId)
    (hTerm : s.term left = .operation (.binary .and) [condition, consequent])
    (hUnused : s.usage? (s.usageKey left) = none)
    (hLeft : types left = s.narrow left (s.termRule (m := Id) types (s.term left)).run) :
    let choice := (s.operationRule (m := Id) types (.binary .or) [left, alternative]).run
    let plain := (plainOrRule (m := Id) types left alternative).run
    ((types condition).Names → choice.withoutMark = plain.withoutMark) ∧
      (¬(types condition).Names → ∀ tag ∈ plain, tag ∈ choice) := by
  have hAnd : types left = (andRule (m := Id) types condition consequent).run := by
    rw [hLeft, narrow, narrowUnder, hUnused, hTerm]
    rfl
  have hChoice : s.operationRule (m := Id) types (.binary .or) [left, alternative] =
      choiceRule (m := Id) types condition consequent alternative := by
    simp [operationRule, orRule, hTerm]
  intro choice plain
  refine ⟨fun hNames => SortedSet.ext_mem fun tag => ?_, fun hNone tag hTag => ?_⟩
  · rw [TypeSet.mem_withoutMark, TypeSet.mem_withoutMark]
    refine and_congr_left fun hTag => ?_
    have hTrue : (types left).truthiness ≠ some true ↔
        (types condition).truthiness ≠ some true ∨ (types consequent).truthiness ≠ some true := by
      rw [hAnd, ne_eq, truthiness_andRule_eq_true_iff hNames, Classical.not_and_iff_not_or_not]
    rw [show choice = _ from congrArg Id.run hChoice, mem_choiceRule, mem_plainOrRule hTag, hTrue,
      hAnd, mem_part_andRule hTag]
  · have hTest : (types condition).truthiness = none :=
      Option.eq_none_iff_forall_ne_some.2 fun b h => hNone (TypeSet.truthiness_eq_some_iff.1 h).1
    have hSame : types left = types consequent := hAnd.trans (andRule_of_not_names hNone)
    rw [show choice = _ from congrArg Id.run hChoice, mem_choiceRule, hTest]
    simpa [hSame] using mem_part_or_mem_of_mem_plainOrRule hTag

/-- `c and 1 or "s"`, where `c` is a boolean. -/
theorem choice_agrees_with_short_circuit_boolean :
    let s : Inference := { buckets := []
                           terms := ⟨#[.vararg, .vararg, .operation (.binary .and) [⟨0⟩, ⟨1⟩]]⟩ }
    let types : TermId → TypeSet := fun id =>
      ([[.boolean], [.number], [.number, .false], [.string]].map TypeSet.of).getD id.index .empty
    types ⟨2⟩ = s.narrow ⟨2⟩ (s.termRule (m := Id) types (s.term ⟨2⟩)).run ∧
      (s.operationRule (m := Id) types (.binary .or) [⟨2⟩, ⟨3⟩]).run.withoutMark =
        (plainOrRule (m := Id) types ⟨2⟩ ⟨3⟩).run.withoutMark := by
  intro s types
  have hTypes : types ⟨2⟩ = s.narrow ⟨2⟩ (s.termRule (m := Id) types (s.term ⟨2⟩)).run := by decide
  exact ⟨hTypes, (choice_agrees_with_short_circuit s types ⟨3⟩ rfl rfl hTypes).1
    ⟨.boolean, by decide, by decide⟩⟩

end Inference

end LuaShape
