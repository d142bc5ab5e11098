import LuaShape.Inference.Reader
import LuaShape.Proofs.Inference.Evaluation

/-!
# Terms of closed expressions

Reading a closed expression adds its terms one after another, operands before their
operation, and records for every operand the types that the operation allows.  Since each
term is new, an operand is used by its operation and by nothing else, and the term of the
whole expression has no use yet (`adds_readExpr`).
-/

namespace LuaShape

namespace Inference

/-! ## Terms that stand for an expression -/

/-- What is recorded for a term whose only use allows the types of a list. -/
def usedAs (allowed : List TypeTag) : Option TypeSet :=
  if allowed.isEmpty then none
  else some (TypeSet.usageDomain.filter fun tag => allowed.contains tag)

/-- A term stands for a closed expression, whose terms are numbered from `start` up to it.
The only use of an operand is by its operation. -/
inductive StandsFor (s : Inference) : (start : Nat) → TermId → Expr → Prop where
  | literal {start : Nat} {id : TermId} {e : Expr} {value : Literal}
      (hLiteral : e.literal? = some value) (hTerm : s.term id = .literal value)
      (hStart : start ≤ id.index) : StandsFor s start id e
  | paren (mark : Mark) {start : Nat} {id : TermId} {inner : Expr}
      (h : StandsFor s start id inner) : StandsFor s start id (.paren mark inner)
  | unary (mark : Mark) {start : Nat} {id operand : TermId} {op : UnaryOp} {e : Expr}
      (hTerm : s.term id = .operation (.unary op) [operand])
      (h : StandsFor s start operand e) (hOlder : operand.index < id.index)
      (hUsage : s.usage? (.term operand) = usedAs (Read.unaryOperandTypes op)) :
      StandsFor s start id (.unary mark op e)
  | binary (mark : Mark) {start : Nat} {id first second : TermId} {op : BinaryOp}
      {left right : Expr} (hTerm : s.term id = .operation (.binary op) [first, second])
      (hLeft : StandsFor s start first left)
      (hRight : StandsFor s (first.index + 1) second right) (hOlder : second.index < id.index)
      (hFirst : s.usage? (.term first) = usedAs (Read.operandTypes op))
      (hSecond : s.usage? (.term second) = usedAs (Read.operandTypes op)) :
      StandsFor s start id (.binary mark op left right)

namespace StandsFor

variable {s s' : Inference} {start : Nat} {id : TermId} {e : Expr}

theorem start_le (h : s.StandsFor start id e) : start ≤ id.index := by
  induction h with
  | literal _ _ hStart => exact hStart
  | paren _ _ ih => exact ih
  | unary _ _ _ hOlder _ ih => exact Nat.le_trans ih (Nat.le_of_lt hOlder)
  | binary _ _ _ _ hOlder _ _ ihLeft ihRight => omega

/-- No term of a closed expression is a name. -/
theorem usageKey_eq (h : s.StandsFor start id e) : s.usageKey id = .term id := by
  induction h with
  | paren _ _ ih => exact ih
  | literal _ hTerm | unary _ hTerm | binary _ hTerm => rw [usageKey, hTerm]

/-- What a term stands for depends on its own terms, and on the uses of those below it. -/
theorem congr (h : s.StandsFor start id e)
    (hTerms : ∀ x, start ≤ x.index → x.index ≤ id.index → s'.term x = s.term x)
    (hUsages : ∀ x, start ≤ x.index → x.index < id.index →
      s'.usage? (.term x) = s.usage? (.term x)) : s'.StandsFor start id e := by
  induction h with
  | literal hLiteral hTerm hStart =>
    exact .literal hLiteral ((hTerms _ hStart (Nat.le_refl _)).trans hTerm) hStart
  | paren mark _ ih => exact .paren mark (ih hTerms hUsages)
  | unary mark hTerm h hOlder hUsage ih =>
    have hStart := h.start_le
    refine .unary mark ((hTerms _ (by omega) (Nat.le_refl _)).trans hTerm) ?_ hOlder
      ((hUsages _ hStart hOlder).trans hUsage)
    exact ih (fun x hx hLe => hTerms x hx (by omega))
      (fun x hx hLt => hUsages x hx (by omega))
  | binary mark hTerm hLeft hRight hOlder hFirst hSecond ihLeft ihRight =>
    have hStart := hLeft.start_le
    have hBetween := hRight.start_le
    refine .binary mark ((hTerms _ (by omega) (Nat.le_refl _)).trans hTerm) ?_ ?_ hOlder
      ((hUsages _ hStart (by omega)).trans hFirst)
      ((hUsages _ (by omega) hOlder).trans hSecond)
    · exact ihLeft (fun x hx hLe => hTerms x hx (by omega))
        (fun x hx hLt => hUsages x hx (by omega))
    · exact ihRight (fun x hx hLe => hTerms x (by omega) (by omega))
        (fun x hx hLt => hUsages x (by omega) (by omega))

end StandsFor

/-! ## Adding terms -/

/-- No use is recorded of a term with this number or a higher one. -/
def UnusedFrom (s : Inference) (start : Nat) : Prop :=
  ∀ x : TermId, start ≤ x.index → s.usage? (.term x) = none

/-- An expression has been added: its term is the newest and not used, and all is as it was
for older terms. -/
structure Adds (s : Inference) (e : Expr) (id : TermId) (s' : Inference) : Prop where
  stands : s'.StandsFor s.terms.size id e
  size_eq : s'.terms.size = id.index + 1
  unused : s'.UnusedFrom id.index
  term_eq : ∀ x, x.index < s.terms.size → s'.term x = s.term x
  usage_eq : ∀ x, x.index < s.terms.size → s'.usage? (.term x) = s.usage? (.term x)

/-- An expression that has been added is not affected by the next one. -/
theorem Adds.stands_after {left right : Expr} {s added added' : Inference}
    {first second : TermId} (hLeft : s.Adds left first added)
    (hRight : added.Adds right second added') :
    added'.StandsFor s.terms.size first left := by
  have hSize := hLeft.size_eq
  exact hLeft.stands.congr (fun x _ hx => hRight.term_eq x (by omega))
    fun x _ hx => hRight.usage_eq x (by omega)

/-- The first use of a term has been recorded, and nothing else. -/
structure FirstUse (s : Inference) (allowed : List TypeTag) (id : TermId) (s' : Inference) :
    Prop where
  terms_eq : s'.terms = s.terms
  usage_self : s'.usage? (.term id) = usedAs allowed
  usage_of_ne : ∀ x, x ≠ id → s'.usage? (.term x) = s.usage? (.term x)

theorem FirstUse.term_eq {s s' : Inference} {allowed : List TypeTag} {id : TermId}
    (h : s.FirstUse allowed id s') (x : TermId) : s'.term x = s.term x :=
  congrArg (·.get x) h.terms_eq

theorem FirstUse.usageKey_eq {s s' : Inference} {allowed : List TypeTag} {id : TermId}
    (h : s.FirstUse allowed id s') (x : TermId) : s'.usageKey x = s.usageKey x := by
  rw [usageKey, usageKey, h.term_eq]

theorem term_alloc_self (s : Inference) (t : Term) :
    (s.alloc t).2.term ⟨s.terms.size⟩ = t :=
  s.terms.get_alloc_self t

theorem term_alloc_of_lt (s : Inference) (t : Term) {x : TermId} (h : x.index < s.terms.size) :
    (s.alloc t).2.term x = s.term x :=
  s.terms.get_alloc_of_lt t h

theorem size_terms_alloc (s : Inference) (t : Term) :
    (s.alloc t).2.terms.size = s.terms.size + 1 :=
  s.terms.size_alloc t

theorem adds_literal {e : Expr} {value : Literal} (h : e.literal? = some value) {s : Inference}
    (hUnused : s.UnusedFrom s.terms.size) :
    s.Adds e ⟨s.terms.size⟩ (s.alloc (.literal value)).2 where
  stands := .literal h (s.term_alloc_self _) (Nat.le_refl _)
  size_eq := s.size_terms_alloc _
  unused := hUnused
  term_eq _ hx := s.term_alloc_of_lt _ hx
  usage_eq _ _ := rfl

/-- The term of a unary operation, after its operand has been added and used. -/
theorem Adds.unary (mark : Mark) {op : UnaryOp} {e : Expr} {s added used : Inference}
    {id : TermId} (h : s.Adds e id added)
    (hUse : added.FirstUse (Read.unaryOperandTypes op) id used) :
    s.Adds (.unary mark op e) ⟨used.terms.size⟩
      (used.alloc (.operation (.unary op) [id])).2 := by
  have hStart := h.stands.start_le
  have hSize : used.terms.size = id.index + 1 := hUse.terms_eq ▸ h.size_eq
  have hTerm : ∀ x : TermId, x.index ≤ id.index →
      (used.alloc (.operation (.unary op) [id])).2.term x = added.term x :=
    fun x hx => (used.term_alloc_of_lt _ (by omega)).trans (hUse.term_eq x)
  have hUsage : ∀ x : TermId, x.index ≠ id.index →
      used.usage? (.term x) = added.usage? (.term x) :=
    fun x hx => hUse.usage_of_ne x fun hSame => hx (congrArg TermId.index hSame)
  exact
    { stands := .unary mark (used.term_alloc_self _)
        (h.stands.congr (fun x _ hx => hTerm x hx) fun x _ hx => hUsage x (Nat.ne_of_lt hx))
        (by simp [hSize]) hUse.usage_self
      size_eq := used.size_terms_alloc _
      unused := by
        intro x hx
        have hx : id.index + 1 ≤ x.index := hSize ▸ hx
        exact (hUsage x (by omega)).trans (h.unused x (by omega))
      term_eq := fun x hx => (hTerm x (by omega)).trans (h.term_eq x hx)
      usage_eq := fun x hx => (hUsage x (by omega)).trans (h.usage_eq x hx) }

/-- The term of a binary operation, after its operands have been added and used in turn. -/
theorem Adds.binary (mark : Mark) {op : BinaryOp} {left right : Expr}
    {s added added' used used' : Inference} {first second : TermId}
    (hLeft : s.Adds left first added) (hRight : added.Adds right second added')
    (hUse : added'.FirstUse (Read.operandTypes op) first used)
    (hUse' : used.FirstUse (Read.operandTypes op) second used') :
    s.Adds (.binary mark op left right) ⟨used'.terms.size⟩
      (used'.alloc (.operation (.binary op) [first, second])).2 := by
  have hStart := hLeft.stands.start_le
  have hBetween := hLeft.size_eq ▸ hRight.stands.start_le
  have hSize : used'.terms.size = second.index + 1 :=
    (hUse'.terms_eq.trans hUse.terms_eq) ▸ hRight.size_eq
  have hTerm : ∀ x : TermId, x.index ≤ second.index →
      (used'.alloc (.operation (.binary op) [first, second])).2.term x = added'.term x :=
    fun x hx => (used'.term_alloc_of_lt _ (by omega)).trans
      ((hUse'.term_eq x).trans (hUse.term_eq x))
  -- The two uses touch the operands only, and no term below them.
  have hUsage : ∀ x : TermId, x.index ≠ first.index → x.index ≠ second.index →
      used'.usage? (.term x) = added'.usage? (.term x) := by
    intro x hx hx'
    rw [hUse'.usage_of_ne x fun hSame => hx' (congrArg TermId.index hSame),
      hUse.usage_of_ne x fun hSame => hx (congrArg TermId.index hSame)]
  have hFirst : used'.usage? (.term first) = usedAs (Read.operandTypes op) := by
    refine (hUse'.usage_of_ne first fun hSame => ?_).trans hUse.usage_self
    have := congrArg TermId.index hSame
    omega
  have hStands : added'.StandsFor s.terms.size first left := hLeft.stands_after hRight
  have hStands' : added'.StandsFor (first.index + 1) second right := hLeft.size_eq ▸ hRight.stands
  exact
    { stands := .binary mark (used'.term_alloc_self _)
        (hStands.congr (fun x _ hx => hTerm x (by omega))
          fun x _ hx => hUsage x (by omega) (by omega))
        (hStands'.congr (fun x _ hx => hTerm x hx) fun x _ hx => hUsage x (by omega) (by omega))
        (by simp [hSize]) hFirst hUse'.usage_self
      size_eq := used'.size_terms_alloc _
      unused := by
        intro x hx
        have hx : second.index + 1 ≤ x.index := hSize ▸ hx
        exact (hUsage x (by omega) (by omega)).trans (hRight.unused x (by omega))
      term_eq := by
        intro x hx
        have hSize := hLeft.size_eq
        rw [← hLeft.term_eq x hx, ← hRight.term_eq x (by omega)]
        exact hTerm x (by omega)
      usage_eq := by
        intro x hx
        have hSize := hLeft.size_eq
        rw [← hLeft.usage_eq x hx, ← hRight.usage_eq x (by omega)]
        exact hUsage x (by omega) (by omega) }

end Inference

/-- The start of reading a module, where nothing has been read before. -/
def Reading.start (buckets : List String) (name : String) : Reading :=
  let (scope, inference) := (Inference.empty buckets).beginModule name
  { inference, scope }

theorem Inference.unusedFrom_start (buckets : List String) (name : String) :
    (Reading.start buckets name).inference.UnusedFrom
      (Reading.start buckets name).inference.terms.size :=
  fun _ _ => rfl

namespace Read

open Inference

/-! ## Reading closed expressions -/

theorem firstUse_useAs (allowed : List TypeTag) {id : TermId} {r : Reading}
    (hKey : r.inference.usageKey id = .term id)
    (hNone : r.inference.usage? (.term id) = none) :
    r.inference.FirstUse allowed id ((useAs allowed id).run r).2.inference := by
  have hFind : r.inference.usages.find? (.term id) = none := hNone
  by_cases hEmpty : allowed.isEmpty = true
  · rw [useAs, if_pos hEmpty]
    refine ⟨rfl, ?_, fun _ _ => rfl⟩
    rw [usedAs, if_pos hEmpty]
    exact hNone
  · rw [useAs, if_neg hEmpty]
    show r.inference.FirstUse allowed id (r.inference.addUsage id allowed)
    refine ⟨rfl, ?_, fun x hx => ?_⟩
    · rw [usage?, addUsage, hKey, OrderedMap.find?_upsert, if_pos rfl, hFind, usedAs,
        if_neg hEmpty]
      rfl
    · rw [usage?, addUsage, hKey, OrderedMap.find?_upsert,
        if_neg fun hSame => hx (UsageKey.term.inj hSame)]
      rfl

theorem readExpr_literal (hint : Option String) {e : Expr} {value : Literal}
    (h : e.literal? = some value) : ∃ mark, readExpr hint e = make mark (.literal value) := by
  cases e <;> cases h <;> exact ⟨_, rfl⟩

/-- Reading a closed expression adds it. -/
theorem adds_readExpr {e : Expr} (h : e.Closed) (hint : Option String) {r : Reading}
    (hUnused : r.inference.UnusedFrom r.inference.terms.size) :
    r.inference.Adds e ((readExpr hint e).run r).1 ((readExpr hint e).run r).2.inference := by
  induction h generalizing hint r with
  | literal h =>
    obtain ⟨mark, hRead⟩ := readExpr_literal hint h
    rw [hRead]
    exact adds_literal h hUnused
  | paren mark _ ih =>
    have h := ih hint hUnused
    rw [readExpr]
    exact { h with stands := .paren mark h.stands }
  | unary mark op _ ih =>
    have h := ih none hUnused
    rw [readExpr]
    exact h.unary mark (firstUse_useAs _ h.stands.usageKey_eq (h.unused _ (Nat.le_refl _)))
  | binary mark op _ _ ihLeft ihRight =>
    have hLeft := ihLeft none hUnused
    have hSize := hLeft.size_eq
    have hRight := ihRight none fun x hx => hLeft.unused x (by omega)
    have hStart := hRight.stands.start_le
    have hUse := firstUse_useAs (operandTypes op) (hLeft.stands_after hRight).usageKey_eq
      ((hRight.usage_eq _ (by omega)).trans (hLeft.unused _ (Nat.le_refl _)))
    have hUse' := firstUse_useAs (operandTypes op)
      ((hUse.usageKey_eq _).trans hRight.stands.usageKey_eq)
      ((hUse.usage_of_ne _ fun hSame => by rw [hSame] at hStart; omega).trans
        (hRight.unused _ (Nat.le_refl _)))
    rw [readExpr]
    exact hLeft.binary mark hRight hUse hUse'

end Read

end LuaShape
