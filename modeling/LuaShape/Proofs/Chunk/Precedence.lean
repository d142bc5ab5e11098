import LuaShape.Proofs.Chunk.Numbering
import LuaShape.Proofs.Chunk.Restored
import LuaShape.Proofs.Chunk.Standard

/-!
# The tree of an operator expression

Operators along the left end of an expression (`leftSpine`) and along its right end
(`rightSpine`) compete for operands with the operators around the expression.  `NestsAbove` says
that each of them wins or loses as the powers demand.  Parsing returns a tree that nests in this
way, and no other tree of the grammar that does has the same words: given the words, both trees
are what the parser makes of them.

Tokens determine the words as long as no function is among them.  Inside a function they do not:
a statement that starts with a parenthesis could as well go on with the call before it.
-/

namespace LuaShape

open List

open Token (Word)

namespace Expr

/-- The binary operators met on the way from an expression to its leftmost operand. -/
def leftSpine : Expr → List BinaryOp
  | .binary _ op left _ => op :: left.leftSpine
  | _ => []

/-- The powers with which the operators met on the way from an expression to its rightmost
operand hold on to what is right of them. -/
def rightSpine : Expr → List Nat
  | .binary _ op _ right => op.rightPower :: right.rightSpine
  | .unary _ _ operand => UnaryOp.power :: operand.rightSpine
  | _ => []

/-- The operators of a tree nest as their powers say, and those at its left end bind tighter
than `limit`. -/
structure NestsAbove (limit : Nat) (e : Expr) : Prop where
  right {m : Mark} {op : BinaryOp} {left right : Expr}
    (h : .expr (.binary m op left right) ∈ e.parts) :
    ∀ op' ∈ right.leftSpine, op.rightPower < op'.leftPower
  left {m : Mark} {op : BinaryOp} {left right : Expr}
    (h : .expr (.binary m op left right) ∈ e.parts) :
    ∀ power ∈ left.rightSpine, op.leftPower ≤ power
  operand {m : Mark} {op : UnaryOp} {operand : Expr}
    (h : .expr (.unary m op operand) ∈ e.parts) :
    ∀ op' ∈ operand.leftSpine, UnaryOp.power < op'.leftPower
  above : ∀ op ∈ e.leftSpine, limit < op.leftPower

/-! ## Spines -/

theorem yieldsTo_iff {power : Nat} : (e : Expr) →
    (e.yieldsTo power = true ↔ ∀ p ∈ e.rightSpine, power ≤ p)
  | .binary _ op _ right => by
      simp only [yieldsTo, rightSpine, Bool.and_eq_true, decide_eq_true_eq, forall_mem_cons,
        yieldsTo_iff right]
  | .unary _ _ operand => by
      simp only [yieldsTo, rightSpine, Bool.and_eq_true, decide_eq_true_eq, forall_mem_cons,
        yieldsTo_iff operand]
  | .nil _ | .boolean _ _ | .number _ _ | .string _ _ | .vararg _ | .function _ _ | .table _ _
  | .name _ _ | .member _ _ _ | .index _ _ _ | .call _ _ _ | .methodCall _ _ _ _ | .paren _ _ => by
      simp [yieldsTo, rightSpine]

/-- The operator at the top is the weakest at the left end. -/
theorem lt_of_mem_leftSpine {power : Nat} : (e : Expr) →
    (∀ n ∈ e.parts, n.operatorsNest = true) → e.bindsAbove power = true →
    ∀ op ∈ e.leftSpine, power < op.leftPower
  | .binary m op left right, hNest, hAbove => by
      simp only [bindsAbove, decide_eq_true_eq] at hAbove
      have hTop := hNest (.expr (.binary m op left right)) (by simp [parts])
      simp only [Node.operatorsNest, Bool.and_eq_true] at hTop
      have hLeft := lt_of_mem_leftSpine left (fun n hn => hNest n (by simp [parts, hn]))
        (bindsAbove_left hAbove hTop.1)
      simpa [leftSpine, hAbove] using hLeft
  | .unary _ _ _, _, _ | .nil _, _, _ | .boolean _ _, _, _ | .number _ _, _, _ | .string _ _, _, _
  | .vararg _, _, _ | .function _ _, _, _ | .table _ _, _, _ | .name _ _, _, _
  | .member _ _ _, _, _ | .index _ _ _, _, _ | .call _ _ _, _, _ | .methodCall _ _ _ _, _, _
  | .paren _ _, _, _ => by simp [leftSpine]

theorem bindsAbove_of_leftSpine {e : Expr} {power : Nat}
    (h : ∀ op ∈ e.leftSpine, power < op.leftPower) : e.bindsAbove power = true := by
  cases e with
  | binary m op left right =>
    have hOp : power < op.leftPower := h op (by simp [leftSpine])
    simpa [bindsAbove] using hOp
  | _ => rfl

/-- The parts of a part are parts. -/
theorem parts_subset {e e' : Expr} (h : .expr e' ∈ e.parts) : ∀ n ∈ e'.parts, n ∈ e.parts :=
  fun _ hn => (e.together_parts _ h).subset hn

theorem nestsAbove_of_operatorsNest {e : Expr} {limit : Nat}
    (h : ∀ n ∈ e.parts, n.operatorsNest = true) (hAbove : e.bindsAbove limit = true) :
    e.NestsAbove limit where
  right {m op left right} hNode := by
    have hNest := h _ hNode
    simp only [Node.operatorsNest, Bool.and_eq_true] at hNest
    refine lt_of_mem_leftSpine right (fun n hn => h n ?_) hNest.2
    exact parts_subset hNode n (by simp [parts, hn])
  left {m op left right} hNode := by
    have hNest := h _ hNode
    simp only [Node.operatorsNest, Bool.and_eq_true] at hNest
    exact left.yieldsTo_iff.mp hNest.1
  operand {m op operand} hNode := by
    refine lt_of_mem_leftSpine operand (fun n hn => h n ?_) (h _ hNode)
    exact parts_subset hNode n (by simp [parts, hn])
  above := lt_of_mem_leftSpine e h hAbove

theorem NestsAbove.operatorsNest {e : Expr} {limit : Nat} (h : e.NestsAbove limit) :
    ∀ n ∈ e.parts, n.operatorsNest = true := by
  intro n hn
  cases n with
  | expr e' =>
    cases e' with
    | binary m op left right =>
      rw [Node.operatorsNest, left.yieldsTo_iff.mpr (h.left hn),
        bindsAbove_of_leftSpine (h.right hn), Bool.and_self]
    | unary m op operand => exact bindsAbove_of_leftSpine (h.operand hn)
    | _ => rfl
  | _ => rfl

/-! ## One tree for the words -/

/-- Trees that can be read are equal up to numbers and places if they have the same words: the
parser takes these words and returns both. -/
theorem bare_eq_of_words {e e' : Expr} (h : Node.Shaped e.parts) (h' : Node.Shaped e'.parts)
    (hWords : e'.layout.words = e.layout.words) : e'.bare = e.bare := by
  obtain ⟨c, hc⟩ := exists_cursor (e.layout.words ++ [])
  have hTakes : ∀ e'' : Expr, Node.Shaped e''.parts → e''.layout.words = e.layout.words →
      ∃ a c', Parser.expr c = .ok (a, c') ∧ a.bare = e''.bare := by
    intro e'' hShaped hSame
    obtain ⟨_, c', hDerives, -, hBare⟩ := ((e''.spelled hShaped).expr lacks_nil).derives
      (hc.trans (by rw [hSame]))
    generalize e''.bare = bare at hBare ⊢
    obtain _ | ⟨⟨⟩, ⟨⟩⟩ := hBare
    exact ⟨_, c', Parser.operation_of_derives hDerives (Nat.le_refl _), rfl⟩
  obtain ⟨a, c₁, hRun, ha⟩ := hTakes e h rfl
  obtain ⟨a', c₂, hRun', ha'⟩ := hTakes e' h' hWords
  obtain ⟨rfl, -⟩ := Prod.mk.inj (Except.ok.inj (hRun.symm.trans hRun'))
  rw [← ha, ← ha']

/-- The number of statements in the body of a function. -/
def bodyLength : Expr → Nat
  | .function _ (.mk _ _ _ (.mk statements _) _) => statements.length
  | _ => 0

theorem bodyLength_bare (e : Expr) : e.bare.bodyLength = e.bodyLength := by
  cases e with
  | function m body =>
    obtain ⟨_, _, _, ⟨statements, _⟩, _⟩ := body
    show (bareStmts statements).length = statements.length
    induction statements with
    | nil => rfl
    | cons s statements ih => rw [bareStmts, length_cons, ih, length_cons]
  | _ => rfl

end Expr

namespace Parser

/-- An expression that is parsed above a limit has read the tokens of its layout.  It is a tree of
the grammar, its operators nest above the limit, and none above the limit comes behind it. -/
theorem nestsAbove_of_expr {levels limit : Nat} {c c' : Cursor} {e : Expr}
    (h : (inner levels).expr limit c = .ok (e, c')) :
    ∃ ts, c.rest = ts ++ c'.rest ∧ e.layout.Fits ts ∧ Node.Shaped e.parts ∧ e.NestsAbove limit ∧
      ∀ op, c'.operator? = some op → op.leftPower ≤ limit := by
  have hDerives := ((inner_derives levels).expr limit (S := False) False.elim).of_ok h
  have hShaped : Node.Shaped e.parts := by simpa [Symbol.nodes, Phrase.nodes] using hDerives.shaped
  obtain ⟨_, hNested, rfl⟩ := hDerives.nests
  obtain ⟨ts, hRest, hFits⟩ : ∃ ts, c.rest = ts ++ _ ∧ e.layout.Fits ts := by
    simpa [Symbol.layout, Phrase.layout] using hDerives.fits
  have hNest : ∀ n ∈ e.parts, n.operatorsNest = true :=
    fun n hn => (Bool.and_eq_true_iff.mp (hShaped n hn)).2
  exact ⟨ts, hRest, hFits, hShaped, Expr.nestsAbove_of_operatorsNest hNest hNested.above,
    hNested.stops⟩

/-- **Operators nest by their powers, in one way only**.  Whatever comes next, an expression that
is parsed above a limit has read just the tokens of its layout; it is a tree of the grammar whose
operators nest above the limit, and no operator above the limit comes behind it.  Another tree of
the grammar whose operators nest above the limit is the same tree, up to numbers and places, if it
has the same words, or the same tokens without a function among them. -/
theorem operators_nest_uniquely {levels limit : Nat} {c c' : Cursor} {e : Expr}
    (h : (inner levels).expr limit c = .ok (e, c')) :
    ∃ ts, c.rest = ts ++ c'.rest ∧ e.layout.Fits ts ∧
      (∀ n ∈ e.parts, n.isGrammatical = true) ∧ e.NestsAbove limit ∧
      (∀ op, c'.operator? = some op → op.leftPower ≤ limit) ∧
      ∀ e' : Expr, (∀ n ∈ e'.parts, n.isGrammatical = true) → e'.NestsAbove limit →
        e'.layout.words = e.layout.words ∨ e'.layout.Fits ts ∧ Token.NoFunction ts →
        e'.bare = e.bare := by
  obtain ⟨ts, hRest, hFits, hShaped, hNest, hStops⟩ := nestsAbove_of_expr h
  refine ⟨ts, hRest, hFits, fun n hn => (Bool.and_eq_true_iff.mp (hShaped n hn)).1, hNest, hStops,
    fun e' hGrammar hNest' hSame => ?_⟩
  refine Expr.bare_eq_of_words hShaped (Node.shaped_of hGrammar hNest'.operatorsNest) ?_
  rcases hSame with hWords | ⟨hFits', hNone⟩
  · exact hWords
  · exact Expr.words_eq_of_fits hNone hFits hFits'

/-- A text with operators that group to the left and to the right, and with unary operators inside
their operands. -/
def textOfOperators : String := "a .. -b + c ^ 2 ^ -d * e == f or not g"

set_option maxRecDepth 100000 in
theorem operators_nest_uniquely_mixed : ∃ e c' ts,
    (inner 12).expr 0 (Cursor.ofSource textOfOperators) = .ok (e, c') ∧
      Token.stream textOfOperators = ts ++ c'.rest ∧ e.NestsAbove 0 ∧
      ∀ e' : Expr, (∀ n ∈ e'.parts, n.isGrammatical = true) → e'.NestsAbove 0 →
        e'.layout.Fits ts → e'.bare = e.bare := by
  have hOk : ((inner 12).expr 0 (Cursor.ofSource textOfOperators)).isOk = true := by decide +kernel
  have hNone : Token.NoFunction (Token.stream textOfOperators) := by
    unfold Token.NoFunction
    decide +kernel
  cases hRun : (inner 12).expr 0 (Cursor.ofSource textOfOperators) with
  | error error =>
      rw [hRun] at hOk
      cases hOk
  | ok r =>
      obtain ⟨ts, hRest, -, -, hNest, -, hUnique⟩ := operators_nest_uniquely hRun
      replace hRest : Token.stream textOfOperators = ts ++ r.2.rest := hRest
      refine ⟨r.1, r.2, ts, rfl, hRest, hNest, fun e' hGrammar hNest' hFits => ?_⟩
      refine hUnique e' hGrammar hNest' (.inr ⟨hFits, ?_⟩)
      rw [hRest, Token.noFunction_append] at hNone
      exact hNone.1

/-- A function that could call `g` with the result of calling `f`, or call `f` and then `g`. -/
def textOfCalls : String := "function() f() (g)() end"

/-- The tree of two statements for these tokens. -/
def twoCalls : Expr :=
  .function default (.mk 0 [] false (.mk
    [.call default (.call default (.name default "f") []),
      .call default (.call default (.paren default (.name default "g")) [])] default) default)

theorem fits_twoCalls : twoCalls.layout.Fits (Token.stream textOfCalls) := by
  have hTokens : Token.stream textOfCalls = [⟨.kwFunction, 0, "function"⟩, ⟨.leftParen, 8, "("⟩,
      ⟨.rightParen, 9, ")"⟩, ⟨.ident, 11, "f"⟩, ⟨.leftParen, 12, "("⟩, ⟨.rightParen, 13, ")"⟩,
      ⟨.leftParen, 15, "("⟩, ⟨.ident, 16, "g"⟩, ⟨.rightParen, 17, ")"⟩, ⟨.leftParen, 18, "("⟩,
      ⟨.rightParen, 19, ")"⟩, ⟨.kwEnd, 21, "end"⟩] := by decide +kernel
  have hToken {kind : Token.Kind} {start : Nat} {text : String} {layout : Layout} {rest : List Token}
      (h : layout.Fits rest) : Layout.Fits (.token kind :: layout) (⟨kind, start, text⟩ :: rest) :=
    .cons (.token ⟨kind, start, text⟩) h
  have hName {start : Nat} {text : String} {layout : Layout} {rest : List Token}
      (h : layout.Fits rest) : Layout.Fits (.name text :: layout) (⟨.ident, start, text⟩ :: rest) :=
    .cons (.name (t := ⟨.ident, start, text⟩) rfl) h
  have hLeading : Slot.Fits .leading [] := .leading (by simp)
  have hSeparators : Slot.Fits .separators [] := .separators (by simp)
  have hLayout : twoCalls.layout = [.token .kwFunction, .token .leftParen, .token .rightParen,
      .leading, .name "f", .token .leftParen, .token .rightParen, .separators, .token .leftParen,
      .name "g", .token .rightParen, .token .leftParen, .token .rightParen, .separators,
      .token .kwEnd] := rfl
  rw [hLayout, hTokens]
  refine hToken (hToken (hToken (.cons hLeading ?_)))
  refine hName (hToken (hToken (.cons hSeparators ?_)))
  refine hToken (hName (hToken (hToken (hToken (.cons hSeparators ?_)))))
  exact hToken .nil

/-- Inside a function the tokens allow two trees of the grammar with all that is asked of their
operators.  The parser returns the one that goes on with the call. -/
theorem calls_join_inside_function : ∃ e c',
    (inner 12).expr 0 (Cursor.ofSource textOfCalls) = .ok (e, c') ∧ c'.rest = [] ∧
      (∀ e' ∈ [e, twoCalls], (∀ n ∈ e'.parts, n.isGrammatical = true) ∧ e'.NestsAbove 0 ∧
        e'.layout.Fits (Token.stream textOfCalls)) ∧ twoCalls.bare ≠ e.bare := by
  have hOne : ((inner 12).expr 0 (Cursor.ofSource textOfCalls)).toOption.map
      (fun r => (r.1.bodyLength, r.2.rest)) = some (1, []) := by decide +kernel
  have hTwo : ∀ n ∈ twoCalls.parts, n.isGrammatical = true ∧ n.operatorsNest = true := by
    decide +kernel
  cases hRun : (inner 12).expr 0 (Cursor.ofSource textOfCalls) with
  | error error =>
      rw [hRun] at hOne
      cases hOne
  | ok r =>
      obtain ⟨e, c'⟩ := r
      obtain ⟨hLength, hEnd⟩ : e.bodyLength = 1 ∧ c'.rest = [] := by
        simpa [hRun, Except.toOption] using hOne
      obtain ⟨ts, hRest, hFits, hShaped, hNest, -⟩ := nestsAbove_of_expr hRun
      replace hRest : Token.stream textOfCalls = ts := by
        rw [← append_nil ts, ← hEnd]
        exact hRest
      refine ⟨e, c', rfl, hEnd, ?_, fun h => ?_⟩
      · simp only [forall_mem_cons, not_mem_nil, false_imp_iff, implies_true, and_true]
        refine ⟨⟨fun n hn => (Bool.and_eq_true_iff.mp (hShaped n hn)).1, hNest, hRest ▸ hFits⟩,
          fun n hn => (hTwo n hn).1,
          Expr.nestsAbove_of_operatorsNest (fun n hn => (hTwo n hn).2) rfl, fits_twoCalls⟩
      · have hSame := congrArg Expr.bodyLength h
        rw [Expr.bodyLength_bare, Expr.bodyLength_bare, hLength] at hSame
        cases hSame

end Parser

end LuaShape
