import LuaShape.Proofs.Chunk.Completing
import LuaShape.Proofs.Chunk.Printing
import Mathlib.Data.List.Forall2

/-!
# Words that spell a tree

`Spells` follows productions through words instead of tokens.  Words have no places, so the trees
are bare and all numbers are 0.  Wherever the words come next in a stream, the same productions
apply, with the numbers and places of the stream in the trees (`Spells.derives`).
-/

namespace LuaShape

open Token (Word)

/-- The words left to read. -/
def Cursor.words (c : Cursor) : List Word := c.rest.map Token.word

@[simp]
theorem Token.Word.kind_ofKind (kind : Token.Kind) : (Word.ofKind kind).kind = kind := rfl

/-- Words are read as symbols one after the other, and some words are left. -/
inductive Spells : List Word → List Symbol → List Word → Prop
  | nil (ws : List Word) : Spells ws [] ws
  | slot {w : Word} {ws rest : List Word} {slot : Slot} {symbols : List Symbol}
      (hSlot : ∀ t : Token, t.word = w → slot.Fits [t]) (h : Spells ws symbols rest) :
      Spells (w :: ws) (.slot slot :: symbols) rest
  | mint {ws rest : List Word} {symbols : List Symbol} (h : Spells ws symbols rest) :
      Spells ws (.mint 0 :: symbols) rest
  | absent {ws rest : List Word} {tests : List (Token.Kind → Bool)} {symbols : List Symbol}
      (hTests : ∀ ts : List Token, ts.map Token.word = ws → Token.startWith tests ts = false)
      (h : Spells ws symbols rest) : Spells ws (.absent tests :: symbols) rest
  | phrase {ws ws' rest : List Word} {p : Phrase} {inside symbols : List Symbol}
      (hProduction : Production default default p inside) (hInside : Spells ws inside ws')
      (h : Spells ws' symbols rest) : Spells ws (.phrase p :: symbols) rest

/-! ## Numbers and places -/

/-- A phrase without numbers and places. -/
def Phrase.bare : Phrase → Phrase
  | .expr power e => .expr power e.bare
  | .spine power e => .spine power e.bare
  | .simple e => .simple e.bare
  | .suffixed e => .suffixed e.bare
  | .chain e => .chain e.bare
  | .args es => .args (bareExprs es)
  | .exprs es => .exprs (bareExprs es)
  | .field f => .field f.bare
  | .fields fs => .fields (bareFields fs)
  | .block body => .block body.bare
  | .statements body => .statements (bareStmts body)
  | .statement s => .statement s.bare
  | .results es => .results (bareExprs es)
  | .elseParts clauses otherwise => .elseParts (bareClauses clauses) (bareOtherwise otherwise)
  | .step e => .step (bareStep e)
  | .initializers es => .initializers (bareExprs es)
  | .functionName name => .functionName name.bare
  | .targets es => .targets (bareExprs es)
  | p => p

/-- A symbol and one that is the same but for numbers and places, of which the first has none. -/
inductive Symbol.Bare : Symbol → Symbol → Prop
  | slot (slot : Slot) : Bare (.slot slot) (.slot slot)
  | mint (id : Nat) : Bare (.mint 0) (.mint id)
  | absent (tests : List (Token.Kind → Bool)) : Bare (.absent tests) (.absent tests)
  | expr (power : Nat) (e : Expr) : Bare (.phrase (.expr power e.bare)) (.phrase (.expr power e))
  | spine (power : Nat) (e : Expr) : Bare (.phrase (.spine power e.bare)) (.phrase (.spine power e))
  | simple (e : Expr) : Bare (.phrase (.simple e.bare)) (.phrase (.simple e))
  | suffixed (e : Expr) : Bare (.phrase (.suffixed e.bare)) (.phrase (.suffixed e))
  | chain (e : Expr) : Bare (.phrase (.chain e.bare)) (.phrase (.chain e))
  | args (es : List Expr) : Bare (.phrase (.args (bareExprs es))) (.phrase (.args es))
  | exprs (es : List Expr) : Bare (.phrase (.exprs (bareExprs es))) (.phrase (.exprs es))
  | field (f : Field) : Bare (.phrase (.field f.bare)) (.phrase (.field f))
  | fields (fs : List Field) : Bare (.phrase (.fields (bareFields fs))) (.phrase (.fields fs))
  | params (names : List String) (isVararg : Bool) :
      Bare (.phrase (.params names isVararg)) (.phrase (.params names isVararg))
  | signature (names : List String) (isVararg : Bool) :
      Bare (.phrase (.signature names isVararg)) (.phrase (.signature names isVararg))
  | block (body : Block) : Bare (.phrase (.block body.bare)) (.phrase (.block body))
  | statements (body : List Stmt) :
      Bare (.phrase (.statements (bareStmts body))) (.phrase (.statements body))
  | statement (s : Stmt) : Bare (.phrase (.statement s.bare)) (.phrase (.statement s))
  | results (es : List Expr) : Bare (.phrase (.results (bareExprs es))) (.phrase (.results es))
  | elseParts (clauses : List Clause) (otherwise : Option Block) :
      Bare (.phrase (.elseParts (bareClauses clauses) (bareOtherwise otherwise)))
        (.phrase (.elseParts clauses otherwise))
  | step (e : Option Expr) : Bare (.phrase (.step (bareStep e))) (.phrase (.step e))
  | names (kind : Token.Kind) (names : List String) :
      Bare (.phrase (.names kind names)) (.phrase (.names kind names))
  | locals (names : List String) : Bare (.phrase (.locals names)) (.phrase (.locals names))
  | qualifier : Bare (.phrase .qualifier) (.phrase .qualifier)
  | initializers (es : List Expr) :
      Bare (.phrase (.initializers (bareExprs es))) (.phrase (.initializers es))
  | method (name : Option String) : Bare (.phrase (.method name)) (.phrase (.method name))
  | functionName (name : FunctionName) :
      Bare (.phrase (.functionName name.bare)) (.phrase (.functionName name))
  | targets (es : List Expr) : Bare (.phrase (.targets (bareExprs es))) (.phrase (.targets es))

theorem bareExprs_eq_map (es : List Expr) : bareExprs es = es.map Expr.bare := by
  induction es with
  | nil => rfl
  | cons e es ih => rw [bareExprs, ih, List.map_cons]

theorem Expr.isAssignable_bare (e : Expr) : e.bare.isAssignable = e.isAssignable := by
  cases e <;> rfl

theorem Expr.isCall_bare (e : Expr) : e.bare.isCall = e.isCall := by
  cases e <;> rfl

theorem Stmt.isReturn_bare (s : Stmt) : s.bare.isReturn = s.isReturn := by
  cases s <;> rfl

theorem Expr.span_bare (e : Expr) : e.bare.span = default := by
  cases e <;> rfl

/-- A production applies as well to phrases with numbers and places, whatever they are. -/
theorem Production.exists_marked {p : Phrase} {inside inside' : List Symbol}
    (h : Production default default p inside) (hInside : List.Forall₂ Symbol.Bare inside inside')
    (start last : Span) : ∃ p', Production start last p' inside' ∧ p'.bare = p := by
  cases h
  case' function body hSpan | functionStatement body hSpan | localFunction body hSpan =>
    obtain ⟨_, params, isVararg, body, _⟩ := body
    cases hSpan
  all_goals
    repeat (obtain _ | ⟨hFirst, hInside⟩ := hInside; cases hFirst)
    cases hInside
  case function => exact ⟨.simple (.function _ (.mk _ _ _ _ _)), .function rfl, rfl⟩
  case functionStatement => exact ⟨.statement (.function _ _ (.mk _ _ _ _ _)), .functionStatement rfl, rfl⟩
  case localFunction => exact ⟨.statement (.localFunction _ _ (.mk _ _ _ _ _)), .localFunction rfl, rfl⟩
  case bareString => exact ⟨_, .bareString, rfl⟩
  case bareTable => exact ⟨_, .bareTable, rfl⟩
  case consExpr hNe => exact ⟨_, .consExpr fun hNil => hNe (by rw [hNil]; rfl), rfl⟩
  case ofSimple => exact ⟨_, .ofSimple, rfl⟩
  case unary power op e _ =>
    refine ⟨.spine power _, .unary, ?_⟩
    rw [e.span_bare]
    rfl
  case binary power op hLt left right _ =>
    refine ⟨.spine power _, .binary hLt, ?_⟩
    rw [left.span_bare, right.span_bare]
    rfl
  case consField hKind _ _ => exact ⟨_, .consField hKind, rfl⟩
  case consParam hMore => exact ⟨_, .consParam hMore, rfl⟩
  case noParams => exact ⟨_, .noParams, rfl⟩
  case consStatement s hReturn _ => exact ⟨_, .consStatement (s.isReturn_bare ▸ hReturn), rfl⟩
  case noMethod => exact ⟨_, .noMethod, rfl⟩
  case consLocal hMore => exact ⟨_, .consLocal hMore, rfl⟩
  case noInitializers => exact ⟨_, .noInitializers, rfl⟩
  case someInitializers hNe => exact ⟨_, .someInitializers fun hNil => hNe (by rw [hNil]; rfl), rfl⟩
  case assign first others hTargets _ =>
    refine ⟨_, .assign fun target hTarget => ?_, rfl⟩
    rw [← target.isAssignable_bare]
    exact hTargets _ (by simpa [bareExprs_eq_map] using List.mem_map_of_mem (f := Expr.bare) hTarget)
  case noTargets => exact ⟨_, .noTargets, rfl⟩
  case callStatement e hCall => exact ⟨_, .callStatement (e.isCall_bare ▸ hCall), rfl⟩
  all_goals exact ⟨_, by constructor, rfl⟩

theorem Phrase.symbol_bare (p : Phrase) : Symbol.Bare (.phrase p.bare) (.phrase p) := by
  cases p <;> constructor

namespace Spells

variable {ws ws' rest : List Word} {symbols symbols' : List Symbol}

theorem append (h : Spells ws symbols ws') (h' : Spells ws' symbols' rest) :
    Spells ws (symbols ++ symbols') rest := by
  induction h with
  | nil => exact h'
  | slot hSlot _ ih => exact .slot hSlot (ih h')
  | mint _ ih => exact .mint (ih h')
  | absent hTests _ ih => exact .absent hTests (ih h')
  | phrase hProduction hInside _ _ ih => exact .phrase hProduction hInside (ih h')

/-- A phrase and nothing behind it. -/
theorem only {p : Phrase} (h : Production default default p symbols)
    (hInside : Spells ws symbols rest) : Spells ws [.phrase p] rest :=
  .phrase h hInside (.nil rest)

variable (h : Spells ws symbols rest)
include h

theorem token {kind : Token.Kind} : Spells (.ofKind kind :: ws) (.token kind :: symbols) rest := by
  refine .slot (fun t ht => ?_) h
  obtain rfl : t.kind = kind := congrArg Word.kind ht
  exact .token t

theorem name {text : String} : Spells (⟨.ident, text⟩ :: ws) (.name text :: symbols) rest := by
  refine .slot (fun t ht => ?_) h
  obtain rfl : t.text = text := congrArg Word.text ht
  exact .name (congrArg Word.kind ht)

theorem number {text : String} :
    Spells (⟨.number, text⟩ :: ws) (.slot (.number text) :: symbols) rest := by
  refine .slot (fun t ht => ?_) h
  obtain rfl : t.text = text := congrArg Word.text ht
  exact .number (congrArg Word.kind ht)

theorem string {value : String} :
    Spells (⟨.string, Escape.quoted value⟩ :: ws) (.slot (.string value) :: symbols) rest := by
  refine .slot (fun t ht => .string ?_) h
  have hKind : t.kind = .string := congrArg Word.kind ht
  have hText : t.text = Escape.quoted value := congrArg Word.text ht
  simp only [Token.stringValue?, hKind, hText, Escape.shortValue?_quoted]

/-- What words spell is derived where the words come next. -/
theorem derives {c : Cursor} (hWords : c.words = ws) :
    ∃ symbols' c', c.Derives symbols' c' ∧ c'.words = rest ∧
      List.Forall₂ Symbol.Bare symbols symbols' := by
  induction h generalizing c with
  | nil => exact ⟨[], c, .nil c, hWords, .nil⟩
  | @slot w ws _ slot _ hSlot _ ih =>
    obtain ⟨t, ts, hRest, rfl, hTail⟩ := List.map_eq_cons_iff.1 hWords
    obtain ⟨symbols', c', hDerives, hEnd, hBare⟩ := @ih c.advance (by
      simpa [Cursor.words, Cursor.advance_of_rest hRest] using hTail)
    exact ⟨_, c', .slot ⟨t, ts, hRest, hSlot t rfl⟩ hDerives, hEnd, .cons (.slot _) hBare⟩
  | mint _ ih =>
    obtain ⟨symbols', c', hDerives, hEnd, hBare⟩ := @ih c.minted hWords
    exact ⟨_, c', .mint hDerives, hEnd, .cons (.mint _) hBare⟩
  | absent hTests _ ih =>
    obtain ⟨symbols', c', hDerives, hEnd, hBare⟩ := ih hWords
    exact ⟨_, c', .absent (hTests _ hWords) hDerives, hEnd, .cons (.absent _) hBare⟩
  | phrase hProduction _ _ ihInside ih =>
    obtain ⟨inside, c₁, hInside, hMid, hBare⟩ := ihInside hWords
    obtain ⟨symbols', c', hDerives, hEnd, hBare'⟩ := ih hMid
    obtain ⟨p, hMarked, rfl⟩ := hProduction.exists_marked hBare c.span c₁.previous
    exact ⟨_, c', .phrase hMarked hInside hDerives, hEnd, .cons p.symbol_bare hBare'⟩

/-- What words spell starts with the first word. -/
theorem starts {w : Word} (hFirst : ws.head? = some w) : Symbol.starts w.kind symbols = true := by
  induction h with
  | nil => rfl
  | @slot _ _ _ _ _ hSlot _ _ =>
    cases hFirst
    exact (hSlot ⟨w.kind, 0, w.text⟩ rfl).starts
  | mint _ ih | absent _ _ ih => exact ih hFirst
  | phrase hProduction _ _ ihInside _ => exact hProduction.starts (ihInside hFirst)

end Spells

/-! ## What comes next -/

/-- The first word, if there is one, does not pass a test. -/
def Lacks (test : Token.Kind → Bool) (ws : List Word) : Prop := ∀ w ∈ ws.head?, test w.kind = false

section Lacks

variable {test : Token.Kind → Bool} {ws rest : List Word} {symbols : List Symbol}

@[simp]
theorem lacks_nil : Lacks test [] := by simp [Lacks]

@[simp]
theorem lacks_cons {w : Word} : Lacks test (w :: ws) ↔ test w.kind = false := by simp [Lacks]

theorem Lacks.mono {test' : Token.Kind → Bool} (h : Lacks test ws)
    (hTest : ∀ kind, test kind = false → test' kind = false) : Lacks test' ws :=
  fun w hw => hTest _ (h w hw)

theorem Lacks.absent (hLacks : Lacks test ws) (h : Spells ws symbols rest) :
    Spells ws (.absent [test] :: symbols) rest := by
  refine .absent (fun ts hts => ?_) h
  subst hts
  cases ts with
  | nil => rfl
  | cons t ts => simpa [Token.startWith, Token.word] using hLacks

/-- What starts with other kinds of words. -/
theorem Spells.lacks (h : Spells ws symbols rest)
    (hTest : ∀ kind, Symbol.starts kind symbols = true → test kind = false) : Lacks test ws :=
  fun _ hw => hTest _ (h.starts hw)

/-- Nothing comes next that an expression could take in whose operators bind tighter than
`power`. -/
def Stops (power : Nat) : List Word → Prop := Lacks fun kind => kind.startsSuffix || kind.bindsAbove power

/-- Neither an expression nor a list of expressions goes on. -/
def Closes : List Word → Prop :=
  Lacks fun kind => kind.startsSuffix || (BinaryOp.ofToken? kind).isSome || kind = .comma

/-- Nothing comes next that an expression could take in. -/
def Continues (e : Expr) : List Word → Prop := Lacks fun kind =>
  kind.startsSuffix || (BinaryOp.ofToken? kind).any fun op => !e.yieldsTo op.leftPower

theorem Closes.stops (h : Closes rest) (power : Nat) : Stops power rest := by
  refine h.mono fun kind hKind => ?_
  simp only [Bool.or_eq_false_iff, Option.isSome_eq_false_iff, Option.isNone_iff_eq_none] at hKind
  simp [hKind, Token.Kind.bindsAbove]

theorem Continues.stops {e : Expr} {power : Nat} (h : Continues e rest)
    (hYields : ∀ op : BinaryOp, e.yieldsTo op.leftPower = true → op.leftPower ≤ power) :
    Stops power rest := by
  refine h.mono fun kind hKind => ?_
  simp only [Bool.or_eq_false_iff, Token.Kind.bindsAbove, Option.any_eq_false] at hKind ⊢
  refine ⟨hKind.1, fun op hOp => decide_eq_false (Nat.not_lt.2 (hYields op ?_))⟩
  simpa using hKind.2 op hOp

end Lacks

namespace Expr

/-- An expression whose operators bind tighter than `power` leaves an operator that does not
to what is further out. -/
theorem yieldsTo_of_bindsAbove : (e : Expr) → {power : Nat} → Node.Shaped e.parts →
    e.bindsAbove power = true → power ≤ 13 → {op : BinaryOp} → op.leftPower ≤ power →
    e.yieldsTo op.leftPower = true
  | .binary _ op' left right, power, h, hAbove, _, op, hLe => by
      simp only [Expr.parts, Node.shaped_append, Node.shaped_cons, Node.isShaped_iff,
        Node.operatorsNest, Bool.and_eq_true] at h
      obtain ⟨-, hRight, ⟨-, -, hNest, -⟩, -⟩ := h
      have hPower : power ≤ op'.rightPower := by
        simp only [bindsAbove, decide_eq_true_eq] at hAbove
        cases op' <;> simp only [BinaryOp.leftPower, BinaryOp.rightPower] at hAbove ⊢ <;> omega
      have hBound : op'.rightPower ≤ 13 := by
        cases op' <;> simp [BinaryOp.leftPower, BinaryOp.rightPower]
      have hInner := yieldsTo_of_bindsAbove right hRight hNest.2 hBound (hLe.trans hPower)
      simp [yieldsTo, hInner, hLe.trans hPower]
  | .unary _ op' operand, power, h, _, hPower, op, hLe => by
      simp only [Expr.parts, Node.shaped_append, Node.shaped_cons, Node.isShaped_iff,
        Node.operatorsNest] at h
      obtain ⟨hOperand, ⟨-, -, hNest, -⟩, -⟩ := h
      have hUnary : op.leftPower ≤ UnaryOp.power := by
        have hLe' := hLe.trans hPower
        cases op <;> simp only [BinaryOp.leftPower, UnaryOp.power] at hLe' ⊢ <;> omega
      have hInner := yieldsTo_of_bindsAbove operand hOperand hNest (by decide) hUnary
      simp [yieldsTo, hInner, hUnary]
  | .nil _, _, _, _, _, _, _ | .boolean _ _, _, _, _, _, _, _ | .number _ _, _, _, _, _, _, _
  | .string _ _, _, _, _, _, _, _ | .vararg _, _, _, _, _, _, _ | .function _ _, _, _, _, _, _, _
  | .table _ _, _, _, _, _, _, _ | .name _ _, _, _, _, _, _, _ | .member _ _ _, _, _, _, _, _, _
  | .index _ _ _, _, _, _, _, _, _ | .call _ _ _, _, _, _, _, _, _
  | .methodCall _ _ _ _, _, _, _, _, _, _ | .paren _ _, _, _, _, _, _, _ => rfl

theorem bindsAbove_zero (e : Expr) : e.bindsAbove 0 = true := by
  cases e with
  | binary m op left right => cases op <;> rfl
  | _ => rfl

/-- The left operand binds tighter than what the operator binds tighter than. -/
theorem bindsAbove_left {left : Expr} {op : BinaryOp} {power : Nat} (h : power < op.leftPower)
    (hYields : left.yieldsTo op.leftPower = true) : left.bindsAbove power = true := by
  cases left with
  | binary m op' l r =>
    simp only [yieldsTo, Bool.and_eq_true, decide_eq_true_eq] at hYields
    have hLe : op'.rightPower ≤ op'.leftPower := by
      cases op' <;> simp [BinaryOp.leftPower, BinaryOp.rightPower]
    simp only [bindsAbove, decide_eq_true_eq]
    omega
  | _ => rfl

/-- How the words of an expression are read: as a prefix to which more may be applied, and as an
operand behind which more operators may come. -/
structure Spelled (e : Expr) : Prop where
  shaped : Node.Shaped e.parts
  chain (h : e.isPrefix = true) (rest : List Word) :
    Spells (e.layout.words ++ rest) [.phrase (.chain e.bare)] rest
  spine {power : Nat} {rest : List Word} (h : e.bindsAbove power = true) (hRest : Continues e rest) :
    Spells (e.layout.words ++ rest) [.phrase (.spine power e.bare)] rest

namespace Spelled

variable {e : Expr} {rest : List Word}

theorem exprAbove (h : e.Spelled) {power : Nat} (hAbove : e.bindsAbove power = true)
    (hPower : power ≤ 13) (hRest : Stops power rest) :
    Spells (e.layout.words ++ rest) [.phrase (.expr power e.bare)] rest := by
  refine .only .expr ((h.spine hAbove (hRest.mono fun kind hKind => ?_)).append
    ((hRest.mono fun kind hKind => (Bool.or_eq_false_iff.1 hKind).2).absent (.nil _)))
  simp only [Bool.or_eq_false_iff, Token.Kind.bindsAbove, Option.any_eq_false, decide_eq_false_iff_not,
    Nat.not_lt, Bool.not_eq_false'] at hKind ⊢
  exact ⟨hKind.1, fun op hOp => yieldsTo_of_bindsAbove e h.shaped hAbove hPower (hKind.2 op hOp)⟩

theorem expr (h : e.Spelled) (hRest : Stops 0 rest) :
    Spells (e.layout.words ++ rest) [.phrase (.expr 0 e.bare)] rest :=
  h.exprAbove e.bindsAbove_zero (Nat.zero_le _) hRest

theorem suffixed (h : e.Spelled) (hPrefix : e.isPrefix = true)
    (hRest : Lacks Token.Kind.startsSuffix rest) :
    Spells (e.layout.words ++ rest) [.phrase (.suffixed e.bare)] rest :=
  .only .suffixed ((h.chain hPrefix rest).append (hRest.absent (.nil _)))

end Spelled

end Expr

end LuaShape
