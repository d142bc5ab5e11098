import LuaShape.Proofs.Inference.Reached

/-!
# Terms come behind their operands

In a grounded context each term comes behind its operands, so that a question about a term which
is passed on to an operand is answered in the end.

Main result: `terms_behind_operands`.
-/

namespace LuaShape

namespace Inference

/-- Whether a term is constant, or the operand that has to be asked instead. -/
def constantStep : Term → TermId ⊕ Bool
  | .literal (.table _) | .literal (.function _) => .inr false
  | .literal _ => .inr true
  | .operation (.unary .not) (operand :: _) => .inl operand
  | _ => .inr false

/-- Whether a term is constant, found out by asking operands as often as it takes. -/
inductive Settles (s : Inference) : TermId → Bool → Prop
  | answer {v : TermId} {b : Bool} (h : constantStep (s.term v) = .inr b) : Settles s v b
  | ask {v operand : TermId} {b : Bool} (h : constantStep (s.term v) = .inl operand)
      (hRest : Settles s operand b) : Settles s v b

variable {s : Inference} {v : TermId}

theorem isConstantWithin_succ (limit : Nat) : s.isConstantWithin (limit + 1) v =
    (constantStep (s.term v)).elim (s.isConstantWithin limit) id := by
  rw [isConstantWithin]
  fun_cases constantStep (s.term v) <;> simp_all

theorem mem_parts_of_constantStep {t : Term} {operand : TermId} (h : constantStep t = .inl operand) :
    operand ∈ t.parts := by
  unfold constantStep at h
  split at h <;> cases h
  exact List.mem_cons_self

theorem Settles.unique {b b' : Bool} (h : s.Settles v b) (h' : s.Settles v b') : b = b' := by
  induction h with
  | answer h =>
    cases h' with
    | answer h' => exact Sum.inr.inj (h.symm.trans h')
    | ask h' _ => cases h.symm.trans h'
  | ask h _ ih =>
    cases h' with
    | answer h' => cases h.symm.trans h'
    | ask h' hRest =>
      obtain rfl := Sum.inl.inj (h.symm.trans h')
      exact ih hRest

/-- Asking operands ends, because each has a smaller number. -/
theorem Grounded.settles (hs : s.Grounded) {limit : Nat} (h : v.index < limit) :
    s.Settles v (s.isConstantWithin limit v) := by
  induction limit generalizing v with
  | zero => cases h
  | succ limit ih =>
    rw [isConstantWithin_succ]
    cases hStep : constantStep (s.term v) with
    | inr b => exact .answer hStep
    | inl operand =>
      have hLt := hs.part_lt v operand (mem_parts_of_constantStep hStep)
      exact .ask hStep (ih (by omega))

theorem Grounded.settles_isConstant (hs : s.Grounded) (v : TermId) :
    s.Settles v (s.isConstant v) := by
  by_cases hv : v.index < s.terms.size
  · exact hs.settles hv
  · have hTerm : s.term v = .vararg := by simp [term, Arena.get, Arena.size] at hv ⊢; simp [hv]
    have hFalse : s.isConstant v = false := by
      rw [isConstant]
      cases s.terms.size with
      | zero => rfl
      | succ n => rw [isConstantWithin_succ, hTerm]; rfl
    rw [hFalse]
    exact .answer (by rw [hTerm]; rfl)

/-- **Terms come behind their operands.**  Whatever chunks have been read, the operands of a term
have smaller numbers.  So no term is part of itself, and whether a term is constant is found out
by asking its operands, without any bound. -/
theorem terms_behind_operands (buckets : List String) (chunks : List (String × Chunk)) :
    let s := readChunks buckets chunks
    (∀ v, ∀ part ∈ (s.term v).parts, part.index < v.index) ∧
    WellFounded (fun part v => part ∈ (s.term v).parts) ∧
    ∀ v b, s.Settles v b ↔ s.isConstant v = b := by
  intro s
  have hs : s.Grounded := (reached_readChunks buckets chunks).grounded
  refine ⟨hs.part_lt, Subrelation.wf (hs.part_lt _ _) (InvImage.wf TermId.index Nat.lt_wfRel.wf),
    fun v b => ⟨fun h => (hs.settles_isConstant v).unique h, ?_⟩⟩
  rintro rfl
  exact hs.settles_isConstant v

end Inference

end LuaShape
