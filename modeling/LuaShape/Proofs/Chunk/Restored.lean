import LuaShape.Proofs.Chunk.Spelled

/-!
# Parsing undoes printing

The words of a tree that can be read spell that tree.  Where they come next they are therefore
derived, and what is derived is what the parser returns.
-/

namespace LuaShape

open List

open Token (Word)
open Layout (words_cons words_append)

/-! ## Lists -/

section Lists

variable {rest : List Word}

theorem spells_exprs {es : List Expr} (h : ∀ e ∈ es, e.Spelled) (hNonempty : es ≠ [])
    (hRest : Closes rest) : Spells ((Layout.commas (exprLayouts es)).words ++ rest)
      [.phrase (.exprs (bareExprs es))] rest := by
  induction es with
  | nil => exact absurd rfl hNonempty
  | cons e es ih =>
    have hFirst := h e (by simp)
    cases es with
    | nil =>
      simp only [exprLayouts, Layout.commas_singleton]
      refine .only .lastExpr ((hFirst.expr (hRest.stops 0)).append (Lacks.absent ?_ (.nil _)))
      exact hRest.mono fun kind hKind => (Bool.or_eq_false_iff.1 hKind).2
    | cons e' es =>
      have hOthers := ih (fun e'' he'' => h e'' (by simp [he''])) (by simp)
      simp only [exprLayouts] at hOthers ⊢
      rw [Layout.commas_cons (by simp), words_append, append_assoc]
      exact .only (.consExpr (by simp [bareExprs])) ((hFirst.expr (lacks_cons.2 rfl)).append
        (.token hOthers))

theorem spells_args {args : List Expr} (h : ∀ e ∈ args, e.Spelled) (rest : List Word) :
    Spells ((Layout.arguments args (.commas (exprLayouts args))).words ++ rest)
      [.phrase (.args (bareExprs args))] rest := by
  rw [Layout.words_arguments, cons_append, append_assoc]
  cases args with
  | nil => exact .only .noArgs (.token (.token (.nil _)))
  | cons e es =>
    have hList : Spells (_ ++ .ofKind .rightParen :: rest) _ _ :=
      spells_exprs h (by simp) (lacks_cons.2 rfl)
    refine .only .someArgs (.token (Lacks.absent (hList.lacks fun kind hKind => ?_)
      (hList.append (.token (.nil _)))))
    cases kind <;> first | rfl | cases hKind

theorem spells_targets {es : List Expr} (h : ∀ e ∈ es, e.Spelled ∧ e.isPrefix = true)
    (hRest : Lacks (fun kind => kind.startsSuffix || kind = .comma) rest) :
    Spells (Layout.words ((exprLayouts es).flatMap (.token .comma :: ·)) ++ rest)
      [.phrase (.targets (bareExprs es))] rest := by
  induction es with
  | nil =>
    exact .only .noTargets (Lacks.absent
      (hRest.mono fun kind hKind => (Bool.or_eq_false_iff.1 hKind).2) (.nil _))
  | cons e es ih =>
    have hOthers := ih fun e' he' => h e' (by simp [he'])
    simp only [exprLayouts, flatMap_cons, cons_append, words_cons, words_append, append_assoc]
    refine .only .consTarget (.token (((h e (by simp)).1.suffixed (h e (by simp)).2 ?_).append
      hOthers))
    cases es with
    | nil => exact hRest.mono fun kind hKind => (Bool.or_eq_false_iff.1 hKind).1
    | cons e' es => exact lacks_cons.2 rfl

/-- How the words of an entry are read. -/
def Field.Spelled (f : Field) : Prop := ∀ rest, Stops 0 rest → Lacks (· = .assign) rest →
  Spells (f.layout.words ++ rest) [.phrase (.field f.bare)] rest

theorem spells_fields {fs : List Field} (h : ∀ f ∈ fs, f.Spelled) (rest : List Word) :
    Spells ((Layout.commas (fieldLayouts fs)).words ++ .ofKind .rightBrace :: rest)
      [.phrase (.fields (bareFields fs))] rest := by
  induction fs with
  | nil => exact .only .noFields (.token (.nil _))
  | cons f fs ih =>
    cases fs with
    | nil =>
      have hField := h f (by simp) (.ofKind .rightBrace :: rest) (lacks_cons.2 rfl) (by simp)
      simp only [fieldLayouts, Layout.commas_singleton]
      refine .only .lastField (Lacks.absent (hField.lacks fun kind hKind => ?_)
        (hField.append (.token (.nil _))))
      cases kind <;> first | rfl | cases hKind
    | cons f' fs =>
      have hOthers := ih fun f'' hf'' => h f'' (by simp [hf''])
      simp only [fieldLayouts] at hOthers ⊢
      rw [Layout.commas_cons (by simp), words_append, append_assoc]
      have hField := fun rest' =>
        h f (by simp) (.ofKind .comma :: rest') (lacks_cons.2 rfl) (by simp)
      refine .only (.consField (.inl rfl)) (Lacks.absent ((hField _).lacks fun kind hKind => ?_)
        ((hField _).append (.token hOthers)))
      cases kind <;> first | rfl | cases hKind

theorem spells_params {names : List String} {isVararg : Bool} (hSome : names ≠ [] ∨ isVararg = true)
    (hRest : Lacks (· = .comma) rest) : Spells ((Layout.params names isVararg).words ++ rest)
      [.phrase (.params names isVararg)] rest := by
  induction names with
  | nil =>
    obtain rfl : isVararg = true := by simpa using hSome
    exact .only .varargParam (.token (.nil _))
  | cons name names ih =>
    by_cases hMore : names ≠ [] ∨ isVararg = true
    · rw [Layout.params_cons hMore]
      exact .only (.consParam hMore) (.name (.token (ih hMore)))
    · simp only [not_or, ne_eq, not_not, Bool.not_eq_true] at hMore
      obtain ⟨rfl, rfl⟩ := hMore
      exact .only .lastParam (.name (hRest.absent (.nil _)))

theorem spells_signature (names : List String) (isVararg : Bool) (rest : List Word) :
    Spells (.ofKind .leftParen :: ((Layout.params names isVararg).words ++ .ofKind .rightParen :: rest))
      [.phrase (.signature names isVararg)] rest := by
  by_cases hSome : names ≠ [] ∨ isVararg = true
  · have hParams : Spells (_ ++ .ofKind .rightParen :: rest) _ _ := spells_params hSome (by simp)
    refine .only .someParams (.token (Lacks.absent (hParams.lacks fun kind hKind => ?_)
      (hParams.append (.token (.nil _)))))
    cases kind <;> first | rfl | cases hKind
  · simp only [not_or, ne_eq, not_not, Bool.not_eq_true] at hSome
    obtain ⟨rfl, rfl⟩ := hSome
    exact .only .noParams (.token (.token (.nil _)))

theorem spells_names {kind : Token.Kind} (names : List String) (hRest : Lacks (· = kind) rest) :
    Spells (Layout.words (names.flatMap fun name => [.token kind, .name name]) ++ rest)
      [.phrase (.names kind names)] rest := by
  induction names with
  | nil => exact .only .noNames (hRest.absent (.nil _))
  | cons name names ih => exact .only .consName (.token (.name ih))

theorem spells_qualifier (hRest : Lacks (· = .less) rest) : Spells rest [.phrase .qualifier] rest := by
  refine .only .noAttribute (.absent (fun ts hts => ?_) (.nil _))
  subst hts
  cases ts with
  | nil => rfl
  | cons t ts =>
    have hNot : t.kind ≠ .less := by simpa [Token.word] using hRest
    simp [Token.startWith, hNot]

theorem spells_locals {names : List String} (hNonempty : names ≠ [])
    (hRest : Lacks (fun kind => kind = .comma || kind = .less) rest) :
    Spells ((Layout.names names [.localAttribute]).words ++ rest) [.phrase (.locals names)] rest := by
  induction names with
  | nil => exact absurd rfl hNonempty
  | cons name names ih =>
    cases names with
    | nil =>
      refine .only .lastLocal (.name ((spells_qualifier ?_).append (Lacks.absent ?_ (.nil _))))
      · exact hRest.mono fun kind hKind => (Bool.or_eq_false_iff.1 hKind).2
      · exact hRest.mono fun kind hKind => (Bool.or_eq_false_iff.1 hKind).1
    | cons name' names =>
      rw [Layout.names, map_cons, Layout.commas_cons (by simp)]
      exact .only (.consLocal (by simp)) (.name ((spells_qualifier (by simp)).append
        (.token (ih (by simp)))))

theorem spells_functionName (name : FunctionName)
    (hRest : Lacks (fun kind => kind = .dot || kind = .colon) rest) :
    Spells (name.layout.words ++ rest) [.phrase (.functionName name.bare)] rest := by
  obtain ⟨root, members, method, span⟩ := name
  cases method with
  | none =>
    simp only [FunctionName.layout, Option.elim, append_nil]
    refine .only .functionName (.name ((spells_names members (hRest.mono fun kind hKind =>
      (Bool.or_eq_false_iff.1 hKind).1)).append (.only .noMethod (Lacks.absent (hRest.mono
        fun kind hKind => (Bool.or_eq_false_iff.1 hKind).2) (.nil _)))))
  | some text =>
    simp only [FunctionName.layout, Option.elim, words_cons, words_append, append_assoc]
    exact .only .functionName (.name ((spells_names members (by simp)).append
      (.only .someMethod (.token (.name (.nil _))))))

end Lists

/-! ## Trees -/

/-- The first words of an expression are no name before `=`. -/
theorem Expr.notNamed : (e : Expr) → {rest : List Word} → Lacks (· = .assign) rest → {ts : List Token} →
    ts.map Token.word = e.layout.words ++ rest →
    Token.startWith [(· = .ident), (· = .assign)] ts = false
  | .name _ _, rest, hRest, ts, hts => by
      obtain ⟨t, ts, rfl, -, hTail⟩ := map_eq_cons_iff.1 hts
      cases ts with
      | nil => simp [Token.startWith]
      | cons u ts =>
        cases hTail
        simp_all [Token.startWith, Token.word]
  | .member _ object _, _, _, _, hts | .index _ object _, _, _, _, hts
  | .methodCall _ object _ _, _, _, _, hts => by
      rw [Expr.layout, words_append, append_assoc] at hts
      exact object.notNamed (lacks_cons.2 rfl) hts
  | .call _ callee _, _, _, _, hts => by
      rw [Expr.layout, words_append, Layout.words_arguments, append_assoc] at hts
      exact callee.notNamed (lacks_cons.2 rfl) hts
  | .binary _ op left _, _, _, _, hts => by
      rw [Expr.layout, words_append, append_assoc] at hts
      exact left.notNamed (lacks_cons.2 (by cases op <;> rfl)) hts
  | .nil _, _, _, _, hts | .boolean _ true, _, _, _, hts | .boolean _ false, _, _, _, hts
  | .number _ _, _, _, _, hts | .string _ _, _, _, _, hts | .vararg _, _, _, _, hts
  | .function _ _, _, _, _, hts | .table _ _, _, _, _, hts | .paren _ _, _, _, _, hts => by
      obtain ⟨t, ts, rfl, hWord, -⟩ := map_eq_cons_iff.1 hts
      have hKind : t.kind = _ := congrArg Word.kind hWord
      simp [Token.startWith, hKind]
  | .unary _ op _, _, _, _, hts => by
      obtain ⟨t, ts, rfl, hWord, -⟩ := map_eq_cons_iff.1 hts
      have hKind : t.kind = op.token := congrArg Word.kind hWord
      cases op <;> simp [Token.startWith, hKind, UnaryOp.token]

namespace Expr

variable {e : Expr}

/-- A prefix and what comes behind it. -/
theorem spells_suffixed {symbols : List Symbol} {ws rest : List Word}
    (h : ∀ rest, Spells (e.layout.words ++ rest) [.phrase (.chain e.bare)] rest)
    (hLacks : Lacks Token.Kind.startsSuffix ws) (hRest : Spells ws symbols rest) :
    Spells (e.layout.words ++ ws)
      (.absent [fun kind => !kind.startsPrefix] :: .phrase (.suffixed e.bare) :: symbols) rest := by
  refine Lacks.absent ((h ws).lacks fun kind hKind => ?_)
    (.phrase .suffixed ((h ws).append (hLacks.absent (.nil _))) hRest)
  cases kind <;> first | rfl | cases hKind

/-- What is read as a prefix is read as an expression. -/
theorem Spelled.of_chain (hShaped : Node.Shaped e.parts)
    (h : ∀ rest, Spells (e.layout.words ++ rest) [.phrase (.chain e.bare)] rest) : e.Spelled where
  shaped := hShaped
  chain _ := h
  spine {power rest} _ hRest := by
    have hSimple : Spells (e.layout.words ++ rest) [.phrase (.simple e.bare)] rest :=
      .only .ofSuffixed (spells_suffixed h (hRest.mono fun kind hKind =>
        (Bool.or_eq_false_iff.1 hKind).1) (.nil _))
    refine .only .ofSimple (Lacks.absent (hSimple.lacks fun kind hKind => ?_) hSimple)
    cases kind <;> first | rfl | cases hKind

/-- An expression that is neither a prefix nor has an operator at its top. -/
theorem Spelled.of_simple (hShaped : Node.Shaped e.parts) (hPrefix : e.isPrefix = false)
    (h : ∀ rest, Spells (e.layout.words ++ rest) [.phrase (.simple e.bare)] rest) : e.Spelled where
  shaped := hShaped
  chain hTrue := by
    rw [hPrefix] at hTrue
    cases hTrue
  spine {power rest} _ _ := by
    refine .only .ofSimple (Lacks.absent ((h rest).lacks fun kind hKind => ?_) (h rest))
    cases kind <;> first | rfl | cases hKind

theorem spelled_unary {m : Mark} {op : UnaryOp} (hShaped : Node.Shaped (Expr.unary m op e).parts)
    (h : e.Spelled) : (Expr.unary m op e).Spelled where
  shaped := hShaped
  chain hTrue := by cases hTrue
  spine {power rest} _ hRest := by
    simp only [Expr.parts, Node.shaped_append, Node.shaped_cons, Node.isShaped_iff,
      Node.operatorsNest] at hShaped
    have hProduction := @Production.unary default default power 0 op e.bare
    rw [e.span_bare] at hProduction
    refine .only hProduction (.token ((h.exprAbove hShaped.2.1.2.2.1 (by decide) (hRest.stops
      fun op' hOp => ?_)).append (.mint (.nil _))))
    simp only [yieldsTo, Bool.and_eq_true, decide_eq_true_eq] at hOp
    exact hOp.1

theorem spelled_binary {m : Mark} {op : BinaryOp} {left right : Expr}
    (hShaped : Node.Shaped (Expr.binary m op left right).parts) (hLeft : left.Spelled)
    (hRight : right.Spelled) : (Expr.binary m op left right).Spelled where
  shaped := hShaped
  chain hTrue := by cases hTrue
  spine {power rest} hAbove hRest := by
    simp only [Expr.parts, Node.shaped_append, Node.shaped_cons, Node.isShaped_iff,
      Node.operatorsNest, Bool.and_eq_true] at hShaped
    obtain ⟨hYields, hTight⟩ := hShaped.2.2.1.2.2.1
    simp only [bindsAbove, decide_eq_true_eq] at hAbove
    simp only [Expr.layout, words_append, words_cons, append_assoc]
    have hProduction := @Production.binary default default power 0 op left.bare right.bare hAbove
    rw [left.span_bare, right.span_bare] at hProduction
    refine .only hProduction ((hLeft.spine (bindsAbove_left hAbove hYields) (lacks_cons.2 ?_)).append
      (.token ((hRight.exprAbove hTight ?_ (hRest.stops fun op' hOp => ?_)).append
        (.mint (.nil _)))))
    · have hToken := BinaryOp.ofToken?_eq_some_iff.2 (rfl : op.token = op.token)
      simp only [Token.Word.kind_ofKind, hToken, Option.any_some, hYields]
      cases op <;> rfl
    · cases op <;> simp [BinaryOp.rightPower, BinaryOp.leftPower]
    · simp only [yieldsTo, Bool.and_eq_true, decide_eq_true_eq] at hOp
      exact hOp.1

end Expr

/-- How the words of a function behind its name are read. -/
def FunctionBody.Spelled (body : FunctionBody) : Prop :=
  ∀ {symbols : List Symbol} {ws rest : List Word}, Spells ws symbols rest →
    Spells (body.layout.words ++ ws) (body.bare.symbols ++ symbols) rest

/-- What comes next ends a block. -/
def EndsBlock : List Word → Prop := Lacks fun kind => !kind.endsBlock

/-- How the words of a block are read. -/
def Block.Spelled (body : Block) : Prop := ∀ {rest : List Word}, EndsBlock rest →
  Spells (body.layout.words ++ rest) [.phrase (.block body.bare)] rest

theorem FunctionBody.spelled_mk {id : Nat} {names : List String} {isVararg : Bool} {body : Block}
    {span : Span} (h : body.Spelled) : (FunctionBody.mk id names isVararg body span).Spelled := by
  intro symbols ws rest hRest
  simp only [FunctionBody.layout, words_cons, words_append, append_assoc]
  exact .mint ((spells_signature names isVararg _).append ((h (lacks_cons.2 rfl)).append (.token hRest)))

/-- How the words of a statement are read; a semicolon comes behind them. -/
def Stmt.Spelled : Stmt → Prop
  | .returnValues _ values => ∀ e ∈ values, e.Spelled
  | s => ∀ rest, Spells (s.layout.words ++ .ofKind .semicolon :: rest) [.phrase (.statement s.bare)]
      (.ofKind .semicolon :: rest)

theorem Stmt.Spelled.statement {s : Stmt} (h : s.Spelled) (hReturn : s.isReturn = false)
    (rest : List Word) : Spells (s.layout.words ++ .ofKind .semicolon :: rest)
      [.phrase (.statement s.bare)] (.ofKind .semicolon :: rest) := by
  cases s <;> first | exact h rest | cases hReturn

/-- How the words of a guarded block are read. -/
def Clause.Spelled : Clause → Prop
  | .mk condition body => condition.Spelled ∧ body.Spelled

section Pieces

variable {rest : List Word}

theorem spells_elseParts {clauses : List Clause} {otherwise : Option Block}
    (h : ∀ clause ∈ clauses, clause.Spelled) (hOtherwise : ∀ body ∈ otherwise, body.Spelled)
    (rest : List Word) :
    Spells (Layout.words ((clauseLayouts clauses).flatMap (.token .kwElseif :: ·)) ++
      ((otherwiseLayout otherwise).words ++ .ofKind .kwEnd :: rest))
      [.phrase (.elseParts (bareClauses clauses) (bareOtherwise otherwise))] rest ∧
    EndsBlock (Layout.words ((clauseLayouts clauses).flatMap (.token .kwElseif :: ·)) ++
      ((otherwiseLayout otherwise).words ++ .ofKind .kwEnd :: rest)) := by
  induction clauses with
  | nil =>
    cases otherwise with
    | none => exact ⟨.only .noElse (.token (.nil _)), lacks_cons.2 rfl⟩
    | some body =>
      refine ⟨.only .otherwise (.token ((hOtherwise body rfl (lacks_cons.2 rfl)).append
        (.token (.nil _)))), lacks_cons.2 rfl⟩
  | cons clause clauses ih =>
    obtain ⟨condition, body⟩ := clause
    obtain ⟨hCondition, hBody⟩ := h (.mk condition body) (by simp)
    obtain ⟨hOthers, hEnds⟩ := ih fun clause hClause => h clause (by simp [hClause])
    refine ⟨?_, lacks_cons.2 rfl⟩
    simp only [clauseLayouts, Clause.layout, flatMap_cons, cons_append, words_cons,
      words_append, append_assoc]
    exact .only .elseIf (.token ((hCondition.expr (lacks_cons.2 rfl)).append
      (.token ((hBody hEnds).append hOthers))))

theorem spells_step {step : Option Expr} (h : ∀ e ∈ step, e.Spelled) (hRest : Closes rest) :
    Spells ((stepLayout step).words ++ rest) [.phrase (.step (bareStep step))] rest := by
  cases step with
  | none =>
    exact .only .noStep (Lacks.absent (hRest.mono fun kind hKind =>
      (Bool.or_eq_false_iff.1 hKind).2) (.nil _))
  | some e => exact .only .someStep (.token ((h e rfl).expr (hRest.stops 0)))

theorem closes_step {step : Option Expr} (hRest : Stops 0 rest) :
    Stops 0 ((stepLayout step).words ++ rest) := by
  cases step with
  | none => exact hRest
  | some e => exact lacks_cons.2 rfl

theorem spells_initializers {es : List Expr} (h : ∀ e ∈ es, e.Spelled) (rest : List Word) :
    Spells ((Layout.initializers (exprLayouts es)).words ++ .ofKind .semicolon :: rest)
      [.phrase (.initializers (bareExprs es))] (.ofKind .semicolon :: rest) := by
  cases es with
  | nil => exact .only .noInitializers (Lacks.absent (lacks_cons.2 rfl) (.nil _))
  | cons e es =>
    exact .only (.someInitializers (by simp [bareExprs])) (.token (spells_exprs h (by simp)
      (lacks_cons.2 rfl)))

theorem spells_results {es : List Expr} (h : ∀ e ∈ es, e.Spelled) (rest : List Word) :
    Spells ((Layout.commas (exprLayouts es)).words ++ .ofKind .semicolon :: rest)
      [.phrase (.results (bareExprs es))] (.ofKind .semicolon :: rest) := by
  cases es with
  | nil => exact .only .noResults (Lacks.absent (lacks_cons.2 rfl) (.nil _))
  | cons e es =>
    have hList : Spells (_ ++ .ofKind .semicolon :: rest) _ _ :=
      spells_exprs h (by simp) (lacks_cons.2 rfl)
    refine .only .someResults (Lacks.absent (hList.lacks fun kind hKind => ?_) hList)
    cases kind <;> first | rfl | cases hKind

end Pieces

theorem Expr.isPrefix_of_isAssignable {e : Expr} (h : e.isAssignable = true) : e.isPrefix = true := by
  cases e with
  | name | member | index => rfl
  | _ => cases h

theorem Expr.isPrefix_of_isCall {e : Expr} (h : e.isCall = true) : e.isPrefix = true := by
  cases e with
  | call | methodCall => rfl
  | _ => cases h

variable {span : Span}

theorem Stmt.spelled_assign {targets values : List Expr}
    (hShaped : (Node.statement (.assign span targets values)).isShaped = true)
    (hTargets : ∀ e ∈ targets, e.Spelled) (hValues : ∀ e ∈ values, e.Spelled) :
    (Stmt.assign span targets values).Spelled := by
  intro rest
  simp only [Node.isShaped_iff, Node.isRegular, Node.assignsPlaces, Node.listsFilled,
    Bool.and_eq_true, all_eq_true, Bool.not_eq_true', isEmpty_eq_false_iff] at hShaped
  obtain ⟨⟨⟨-, hAssignable⟩, -⟩, -, -, hNonempty, hSome⟩ := hShaped
  obtain ⟨first, others, rfl⟩ := exists_cons_of_ne_nil hNonempty
  obtain ⟨hFirst, hOthers⟩ := forall_mem_cons.1 fun e he =>
    And.intro (hTargets e he) (Expr.isPrefix_of_isAssignable (hAssignable e he))
  simp only [Stmt.layout, exprLayouts, Layout.commas_eq_append, words_cons, words_append, append_assoc]
  refine .only (.assign fun target hTarget => ?_) (Expr.spells_suffixed (hFirst.1.chain hFirst.2) ?_
    ((spells_targets hOthers (lacks_cons.2 rfl)).append (.token (spells_exprs hValues hSome
      (lacks_cons.2 rfl)))))
  · rw [bareExprs_eq_map, ← map_cons] at hTarget
    obtain ⟨e, he, rfl⟩ := mem_map.1 hTarget
    rw [e.isAssignable_bare]
    exact hAssignable e he
  · cases others <;> exact lacks_cons.2 rfl

theorem Stmt.spelled_call {e : Expr} (hCall : e.isCall = true) (h : e.Spelled) :
    (Stmt.call span e).Spelled := fun _ =>
  .only (.callStatement (e.isCall_bare.trans hCall)) (Expr.spells_suffixed (h.chain
    (Expr.isPrefix_of_isCall hCall)) (lacks_cons.2 rfl) (Lacks.absent (lacks_cons.2 rfl) (.nil _)))

theorem Stmt.spelled_localVars {names : List String} {values : List Expr} (hNames : names ≠ [])
    (hValues : ∀ e ∈ values, e.Spelled) : (Stmt.localVars span names values).Spelled := by
  intro rest
  simp only [Stmt.layout, words_cons, words_append, append_assoc]
  have hBehind : Lacks (fun kind => kind = .comma || kind = .less)
      ((Layout.initializers (exprLayouts values)).words ++ .ofKind .semicolon :: rest) := by
    cases values <;> exact lacks_cons.2 rfl
  have hLocals := spells_locals hNames hBehind
  refine .only .localVars (.token (Lacks.absent (hLocals.lacks fun kind hKind => ?_)
    (hLocals.append (spells_initializers hValues rest))))
  cases kind <;> first | rfl | cases hKind

theorem spells_statements {ss : List Stmt} (h : ∀ s ∈ ss, s.Spelled)
    (hLast : (ss.dropLast.all fun s => !s.isReturn) = true) {rest : List Word}
    (hRest : EndsBlock rest) :
    Spells ((stmtsLayout ss).words ++ rest) [.phrase (.statements (bareStmts ss))] rest := by
  induction ss with
  | nil => exact .only .noStatements (hRest.absent (.nil _))
  | cons s ss ih =>
    have hEnding : s.ending.words = [.ofKind .semicolon] := by
      unfold Stmt.ending
      split <;> rfl
    simp only [stmtsLayout, words_append, words_cons, hEnding, append_assoc]
    cases hReturn : s.isReturn with
    | true =>
      -- a `return` is the last statement
      obtain rfl : ss = [] := by
        cases ss with
        | nil => rfl
        | cons => simp [hReturn] at hLast
      cases s with
      | returnValues span values =>
        exact .only .returnsClosed (.token ((spells_results (h (.returnValues span values) (by simp)) rest).append
          (.token (.nil _))))
      | _ => cases hReturn
    | false =>
      have hOthers := ih (fun s' hs' => h s' (by simp [hs'])) (by
        cases ss with
        | nil => rfl
        | cons => simpa [hReturn] using hLast)
      have hFirst := (h s (by simp)).statement hReturn ((stmtsLayout ss).words ++ rest)
      refine .only (.consStatement (s.isReturn_bare.trans hReturn)) (Lacks.absent (hFirst.lacks
        fun kind hKind => ?_) (hFirst.append (.only .semicolon (.token hOthers))))
      cases kind <;> first | rfl | cases hKind

section Trees

open Node (shaped_append shaped_cons isShaped_iff)

mutual

theorem Expr.spelled : (e : Expr) → Node.Shaped e.parts → e.Spelled
  | .nil _, h => .of_simple h rfl fun rest => .only .nil (.token (.mint (.nil _)))
  | .boolean _ value, h => .of_simple h rfl fun rest => .only .boolean (.token (.mint (.nil _)))
  | .vararg _, h => .of_simple h rfl fun rest => .only .vararg (.token (.mint (.nil _)))
  | .number _ _, h => .of_simple h rfl fun rest => .only .number (.number (.mint (.nil _)))
  | .string _ _, h => .of_simple h rfl fun rest => .only .string (.string (.mint (.nil _)))
  | .function _ body, h => by
      refine .of_simple h rfl fun rest => .only (.function (by cases body; rfl)) (.token
        (body.spelled ?_ (.mint (.nil _))))
      exact (Node.shaped_append.1 h).1
  | .table _ fields, h => by
      refine .of_simple h rfl fun rest => ?_
      simp only [Expr.layout, words_cons, words_append, Layout.words_entries, append_assoc]
      exact .only .table (.token ((spells_fields (spelled_fields fields (Node.shaped_append.1 h).1)
        rest).append (.mint (.nil _))))
  | .name _ text, h => .of_chain h fun rest => .only .name (.name (.mint (.nil _)))
  | .paren _ inner, h => by
      refine .of_chain h fun rest => ?_
      simp only [Expr.layout, words_cons, words_append, append_assoc]
      exact .only .paren (.token (((inner.spelled (Node.shaped_append.1 h).1).expr
        (lacks_cons.2 rfl)).append (.token (.mint (.nil _)))))
  | .member _ object text, h => by
      refine .of_chain h fun rest => ?_
      simp only [Expr.parts, shaped_append, shaped_cons, isShaped_iff, Expr.layout, words_cons,
        words_append, append_assoc] at h ⊢
      exact .only .member (((object.spelled h.1).chain h.2.1.2.1 _).append (.token (.name
        (.mint (.nil _)))))
  | .index _ object key, h => by
      refine .of_chain h fun rest => ?_
      simp only [Expr.parts, shaped_append, shaped_cons, isShaped_iff, Expr.layout, words_cons,
        words_append, append_assoc] at h ⊢
      exact .only .index (((object.spelled h.1).chain h.2.2.1.2.1 _).append (.token
        (((key.spelled h.2.1).expr (lacks_cons.2 rfl)).append (.token (.mint (.nil _))))))
  | .call _ callee args, h => by
      refine .of_chain h fun rest => ?_
      simp only [Expr.parts, shaped_append, shaped_cons, isShaped_iff, Expr.layout,
        words_append, append_assoc] at h ⊢
      exact .only .call (((callee.spelled h.1).chain h.2.2.1.2.1 _).append
        ((spells_args (spelled_exprs args h.2.1) rest).append (.mint (.nil _))))
  | .methodCall _ object method args, h => by
      refine .of_chain h fun rest => ?_
      simp only [Expr.parts, shaped_append, shaped_cons, isShaped_iff, Expr.layout, words_cons,
        words_append, append_assoc] at h ⊢
      exact .only .methodCall (((object.spelled h.1).chain h.2.2.1.2.1 _).append (.token (.name
        ((spells_args (spelled_exprs args h.2.1) rest).append (.mint (.nil _))))))
  | .binary _ op left right, h =>
    Expr.spelled_binary h (left.spelled (Node.shaped_append.1 h).1)
      (right.spelled (Node.shaped_append.1 (Node.shaped_append.1 h).2).1)
  | .unary _ op operand, h => Expr.spelled_unary h (operand.spelled (Node.shaped_append.1 h).1)

theorem spelled_exprs : (es : List Expr) → Node.Shaped (exprParts es) → ∀ e ∈ es, e.Spelled
  | [], _ => by simp
  | e :: es, h => forall_mem_cons.2 ⟨e.spelled (Node.shaped_append.1 h).1,
      spelled_exprs es (Node.shaped_append.1 h).2⟩

theorem Field.spelled : (f : Field) → Node.Shaped f.parts → f.Spelled
  | .named name value, h => fun rest hRest _ =>
    .only .named (.name (.token ((value.spelled (Node.shaped_append.1 h).1).expr hRest)))
  | .keyed key value, h => fun rest hRest _ => by
      simp only [Field.parts, shaped_append, Field.layout, words_cons, words_append, append_assoc] at h ⊢
      exact .only .keyed (.token (((key.spelled h.1).expr (lacks_cons.2 rfl)).append (.token (.token
        ((value.spelled h.2.1).expr hRest)))))
  | .positional value, h => fun rest hRest hAssign => by
      have hValue := (value.spelled (Node.shaped_append.1 h).1).expr hRest
      refine .only .positional (Lacks.absent (hValue.lacks fun kind hKind => ?_)
        (.absent (fun ts hts => value.notNamed hAssign hts) hValue))
      cases kind <;> first | rfl | cases hKind

theorem spelled_fields : (fs : List Field) → Node.Shaped (fieldParts fs) → ∀ f ∈ fs, f.Spelled
  | [], _ => by simp
  | f :: fs, h => forall_mem_cons.2 ⟨f.spelled (Node.shaped_append.1 h).1,
      spelled_fields fs (Node.shaped_append.1 h).2⟩

theorem FunctionBody.spelled : (body : FunctionBody) → Node.Shaped body.parts → body.Spelled
  | .mk _ _ _ body _, h => FunctionBody.spelled_mk (body.spelled (Node.shaped_cons.1 h).2)

theorem Block.spelled : (body : Block) → Node.Shaped body.parts → body.Spelled
  | .mk ss _, h => fun hRest => by
      simp only [Block.parts, shaped_append, shaped_cons, isShaped_iff, Node.isRegular,
        Bool.and_eq_true] at h
      exact .only .block (spells_statements (spelled_stmts ss h.1) h.2.1.1.1.1 hRest)

theorem spelled_stmts : (ss : List Stmt) → Node.Shaped (stmtParts ss) → ∀ s ∈ ss, s.Spelled
  | [], _ => by simp
  | s :: ss, h => forall_mem_cons.2 ⟨s.spelled (Node.shaped_append.1 h).1,
      spelled_stmts ss (Node.shaped_append.1 h).2⟩

theorem Stmt.spelled : (s : Stmt) → Node.Shaped s.parts → s.Spelled
  | .localVars _ names values, h => by
      simp only [Stmt.parts, shaped_append, shaped_cons, isShaped_iff] at h
      exact Stmt.spelled_localVars (by simpa [Node.listsFilled] using h.2.1.2.2.2)
        (spelled_exprs values h.1)
  | .assign _ targets values, h => by
      simp only [Stmt.parts, shaped_append, shaped_cons] at h
      exact Stmt.spelled_assign h.2.2.1 (spelled_exprs targets h.1) (spelled_exprs values h.2.1)
  | .call _ e, h => by
      simp only [Stmt.parts, shaped_append, shaped_cons, isShaped_iff, Node.isRegular,
        Bool.and_eq_true] at h
      exact Stmt.spelled_call h.2.1.1.2 (e.spelled h.1)
  | .doBlock _ body, h => fun rest => by
      simp only [Stmt.layout, words_cons, words_append, append_assoc]
      exact .only .doBlock (.token ((body.spelled (Node.shaped_append.1 h).1 (lacks_cons.2 rfl)).append
        (.token (.nil _))))
  | .whileLoop _ condition body, h => fun rest => by
      simp only [Stmt.parts, shaped_append, Stmt.layout, words_cons, words_append, append_assoc] at h ⊢
      exact .only .whileLoop (.token (((condition.spelled h.1).expr (lacks_cons.2 rfl)).append (.token
        ((body.spelled h.2.1 (lacks_cons.2 rfl)).append (.token (.nil _))))))
  | .repeatLoop _ body condition, h => fun rest => by
      simp only [Stmt.parts, shaped_append, Stmt.layout, words_cons, words_append, append_assoc] at h ⊢
      exact .only .repeatLoop (.token ((body.spelled h.1 (lacks_cons.2 rfl)).append (.token
        ((condition.spelled h.2.1).expr (lacks_cons.2 rfl)))))
  | .ifElse span [] otherwise, h => by
      cases h (.statement (.ifElse span [] otherwise)) (by simp [Stmt.parts])
  | .ifElse _ (.mk condition body :: clauses) otherwise, h => fun rest => by
      simp only [Stmt.parts, clauseParts, Clause.parts, shaped_append] at h
      obtain ⟨hElse, hEnds⟩ := spells_elseParts (spelled_clauses clauses h.1.2)
        (spelled_otherwise otherwise h.2.1) (.ofKind .semicolon :: rest)
      simp only [Stmt.layout, clauseLayouts, Layout.joined, Clause.layout, words_cons, words_append,
        append_assoc]
      exact .only .ifElse (.token (((condition.spelled h.1.1.1).expr (lacks_cons.2 rfl)).append (.token
        ((body.spelled h.1.1.2 hEnds).append hElse))))
  | .numericFor _ var first limit step body, h => fun rest => by
      simp only [Stmt.parts, shaped_append, Stmt.layout, words_cons, words_append, append_assoc] at h ⊢
      exact .only .numericFor (.token (.name (.token (((first.spelled h.1).expr (lacks_cons.2 rfl)).append
        (.token (((limit.spelled h.2.1).expr (closes_step (lacks_cons.2 rfl))).append
          ((spells_step (spelled_step step h.2.2.1) (lacks_cons.2 rfl)).append (.token
            ((body.spelled h.2.2.2.1 (lacks_cons.2 rfl)).append (.token (.nil _)))))))))))
  | .genericFor span [] iterators body, h => by
      cases h (.statement (.genericFor span [] iterators body)) (by simp [Stmt.parts])
  | .genericFor _ (first :: others) iterators body, h => fun rest => by
      simp only [Stmt.parts, shaped_append, shaped_cons, isShaped_iff] at h
      have hIterators : iterators ≠ [] := by simpa [Node.listsFilled] using h.2.2.1.2.2.2
      simp only [Stmt.layout, Layout.names, map_cons, Layout.commas_eq_append, flatMap_map,
        words_cons, words_append, append_assoc]
      refine .only .genericFor (.token (.name (Lacks.absent ?_ ((spells_names others (by simp)).append
        (.token ((spells_exprs (spelled_exprs iterators h.1) hIterators (lacks_cons.2 rfl)).append
          (.token ((body.spelled h.2.1 (lacks_cons.2 rfl)).append (.token (.nil _))))))))))
      cases others <;> exact lacks_cons.2 rfl
  | .function _ name body, h => fun rest => by
      simp only [Stmt.layout, words_cons, words_append, append_assoc]
      have hBody := body.spelled (Node.shaped_append.1 h).1 (.nil (.ofKind .semicolon :: rest))
      rw [append_nil] at hBody
      refine .only (.functionStatement (by cases body; rfl)) (.token ((spells_functionName name ?_).append
        hBody))
      cases body
      exact lacks_cons.2 rfl
  | .localFunction _ name body, h => fun rest => by
      have hBody := body.spelled (Node.shaped_append.1 h).1 (.nil (.ofKind .semicolon :: rest))
      rw [append_nil] at hBody
      exact .only (.localFunction (by cases body; rfl)) (.token (.token (.name hBody)))
  | .returnValues _ values, h => spelled_exprs values (Node.shaped_append.1 h).1
  | .breakLoop _, _ => fun rest => .only .breakLoop (.token (.nil _))
  | .goto _ _, _ => fun rest => .only .goto (.token (.name (.nil _)))
  | .label _ _, _ => fun rest => .only .label (.token (.name (.token (.nil _))))

theorem spelled_clauses : (clauses : List Clause) → Node.Shaped (clauseParts clauses) →
    ∀ clause ∈ clauses, clause.Spelled
  | [], _ => by simp
  | .mk condition body :: clauses, h => by
      simp only [clauseParts, Clause.parts, shaped_append] at h
      exact forall_mem_cons.2 ⟨⟨condition.spelled h.1.1, body.spelled h.1.2⟩,
        spelled_clauses clauses h.2⟩

theorem spelled_otherwise : (otherwise : Option Block) → Node.Shaped (otherwiseParts otherwise) →
    ∀ body ∈ otherwise, body.Spelled
  | none, _ => by simp
  | some body, h => by
      rintro _ ⟨⟩
      exact body.spelled h

theorem spelled_step : (step : Option Expr) → Node.Shaped (stepParts step) → ∀ e ∈ step, e.Spelled
  | none, _ => by simp
  | some e, h => by
      rintro _ ⟨⟩
      exact e.spelled h

end

end Trees

/-! ## Chunks -/

/-- Some place where given words come next and nothing behind them. -/
theorem exists_cursor (ws : List Word) : ∃ c : Cursor, c.words = ws := by
  refine ⟨{ Cursor.ofSource "" with rest := ws.map fun w => ⟨w.kind, 0, w.text⟩ }, ?_⟩
  simp [Cursor.words, Token.word, Function.comp_def]

namespace Chunk

/-- **Parsing undoes printing**: the text of a well-formed chunk is accepted, and the tree
that is returned is that of the chunk, up to numbers and places. -/
theorem parse_print {chunk : Chunk} (h : ∀ n ∈ chunk.parts, n.isWellFormed = true) :
    ∃ parsed, parse chunk.print = .ok parsed ∧ parsed.block.bare = chunk.block.bare := by
  have hWords : (Cursor.ofSource chunk.print).words = chunk.block.layout.words ++ [] :=
    (words_stream_print h).trans (append_nil _).symm
  have hSpells := chunk.block.spelled (fun n hn => Node.isShaped_of_isWellFormed (h n hn)) lacks_nil
  obtain ⟨_, c', hDerives, hNil, hBare⟩ := hSpells.derives hWords
  generalize hBlock : chunk.block.bare = block at hBare ⊢
  obtain _ | ⟨⟨⟩, ⟨⟩⟩ := hBare
  have hRun := Parser.blockWith_of_derives hDerives (Nat.le_refl _)
  have hEnd : c'.kind? = none := by simpa [Cursor.kind?, Cursor.words] using hNil
  refine ⟨⟨_, (Cursor.ofSource chunk.print).span.merge c'.span, c'.nextId⟩, ?_, rfl⟩
  show Except.map Prod.fst (Parser.chunk (Cursor.ofSource chunk.print)) = _
  rw [Parser.chunk, Parser.bind_run, Parser.get_run, Parser.ok_bind, Parser.bind_run,
    Parser.atAnyDepth, hRun, Parser.ok_bind, Parser.bind_run, Parser.get_run, Parser.ok_bind, hEnd]
  rfl

/-- A chunk with entries of each kind, operators on both sides of `^`, and a string that needs
escapes: `local t = \x7bx = -a ^ 2 .. "…", f(...), [1] = x\x7d`, then `return t:m("")`. -/
def entries : Chunk where
  block := .mk
    [.localVars default ["t"] [.table default
      [.named "x" (.binary default .concat
        (.unary default .neg (.binary default .pow (.name default "a") (.number default "2")))
        (.string default "\x22\n\\")),
      .positional (.call default (.name default "f") [.vararg default]),
      .keyed (.number default "1") (.name default "x")]],
    .returnValues default
      [.methodCall default (.name default "t") "m" [.string default ""]]] default
  span := default
  nodeCount := 0

theorem parse_print_entries : (∀ n ∈ entries.parts, n.isWellFormed = true) ∧
    ∃ parsed, parse entries.print = .ok parsed ∧ parsed.block.bare = entries.block.bare := by
  have hNodes : ∀ n ∈ entries.parts, n.isWellFormed = true :=
    all_eq_true.mp (by decide +kernel)
  exact ⟨hNodes, parse_print hNodes⟩

end Chunk

end LuaShape
