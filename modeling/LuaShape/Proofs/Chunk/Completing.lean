import LuaShape.Proofs.Chunk.Consumed

/-!
# The parser reads all that is derived
-/

namespace LuaShape

open List

namespace Cursor

variable {c c' : Cursor}

theorem HasSlot.length {slot : Slot} (h : c.HasSlot slot) :
    c.advance.rest.length + 1 = c.rest.length :=
  length_advance h.rest_ne_nil

@[simp]
theorem previous_minted (c : Cursor) : c.minted.previous = c.previous := rfl

theorem hasSlot_token {kind : Token.Kind} : c.HasSlot (.token kind) ↔ c.kind? = some kind := by
  constructor
  · rintro ⟨t, rest, hRest, hFits⟩
    obtain ⟨_, _, hSame, hKind, -⟩ := (Layout.Fits.single hFits).of_token
    obtain ⟨rfl, -⟩ := List.cons.inj hSame
    simp [kind?, hRest, hKind]
  · intro h
    obtain ⟨t, rest, hRest, rfl⟩ := exists_of_kind? h
    exact ⟨t, rest, hRest, .token t⟩

theorem hasSlot_name {text : String} : c.HasSlot (.name text) ↔
    c.kind? = some .ident ∧ Parser.identifier c = .ok (text, c.advance) := by
  constructor
  · rintro ⟨t, rest, hRest, hFits⟩
    cases hFits with
    | name hKind => simp [kind?, Parser.identifier, hRest, hKind]
  · rintro ⟨hKind, hRun⟩
    obtain ⟨t, rest, hRest, hKind⟩ := exists_of_kind? hKind
    obtain rfl : t.text = text := by simpa [Parser.identifier, hRest, hKind] using hRun
    exact ⟨t, rest, hRest, .name hKind⟩

theorem absent_kind {kind : Token.Kind} :
    Token.startWith [(· = kind)] c.rest = false ↔ ¬ c.kind? = some kind := by
  rw [startWith_single, any_kind?, isAt, decide_eq_false_iff_not]

end Cursor

open Cursor (Passes hasSlot_token hasSlot_name absent_kind length_of_kind?)

namespace Parser

variable {α β : Type} {c c' : Cursor}

theorem bind_run (p : Parser α) (f : α → Parser β) (c : Cursor) :
    (p >>= f) c = (p c).bind fun r => f r.1 r.2 := rfl

theorem get_run (c : Cursor) : (get : Parser Cursor) c = .ok (c, c) := rfl

theorem pure_run (a : α) (c : Cursor) : (pure a : Parser α) c = .ok (a, c) := rfl

theorem skip_run (c : Cursor) : skip c = .ok ((), c.advance) := rfl

theorem spanFrom_run (start : Span) (c : Cursor) :
    spanFrom start c = .ok (start.merge c.previous, c) := rfl

theorem node_run (span : Span) (build : Mark → Expr) (c : Cursor) :
    node span build c = .ok (build ⟨c.nextId, span⟩, c.minted) := rfl

theorem map_run (g : α → β) (p : Parser α) (c : Cursor) :
    (g <$> p) c = (p c).bind fun r => .ok (g r.1, r.2) := by
  rw [map_eq_pure_bind]
  rfl

theorem ok_bind (a : α) (f : α → Except ParseError β) : (Except.ok a).bind f = f a := rfl

section Runs

attribute [local simp] bind_run get_run pure_run skip_run spanFrom_run node_run map_run ok_bind

theorem consume_run {kind : Token.Kind} (h : c.kind? = some kind) :
    consume kind c = .ok ((), c.advance) := by
  simp [consume, Cursor.isAt, h]

end Runs

theorem eat_run (kind : Token.Kind) (c : Cursor) : eat kind c =
    if c.kind? = some kind then .ok (true, c.advance) else .ok (false, c) := by
  simp only [eat, bind_run, Cursor.isAt, get_run, ok_bind, decide_eq_true_eq]
  split <;> rfl

theorem stringValue_run {value : String} (h : c.HasSlot (.string value)) :
    (c.kind? = some .string ∨ c.kind? = some .longString) ∧
      stringValue c = .ok (value, c.advance) := by
  obtain ⟨t, rest, hRest, hFits⟩ := h
  cases hFits with
  | string hValue =>
    have hKind := Token.kind_of_stringValue? hValue
    refine ⟨by simpa [Cursor.kind?, hRest] using hKind, ?_⟩
    rw [stringValue_of_rest hRest hKind, hValue]
    rfl

end Parser

/-- Phrases that are read by the parsers for what is nested, right from their start. -/
def Phrase.isNested : Phrase → Bool
  | .expr _ _ | .exprs _ | .field _ | .fields _ | .block _ | .results _ | .elseParts _ _
  | .step _ | .initializers _ => true
  | _ => false

/-- How a phrase is read with parsers for what is nested at most `m` levels deep. -/
def Phrase.Runs (m : Nat) : Phrase → Cursor → Cursor → Prop
  | .expr power e, c, c' => (Parser.inner m).expr power c = .ok (e, c')
  | .spine power e, c, c' => ∃ rounds, c'.rest.length < rounds ∧
      Parser.operation (Parser.inner m) power c =
        Parser.operators (Parser.inner m) power rounds e c'
  | .simple e, c, c' => Parser.simpleExpr (Parser.inner m) c = .ok (e, c')
  | .suffixed e, c, c' => Parser.suffixedExpr (Parser.inner m) c = .ok (e, c')
  | .chain e, c, c' => ∃ rounds, c'.rest.length < rounds ∧
      Parser.suffixedExpr (Parser.inner m) c = Parser.suffixes (Parser.inner m) c.span rounds e c'
  | .args es, c, c' => (c.kind? = some .leftParen ∨ c.kind? = some .string ∨
      c.kind? = some .longString ∨ c.kind? = some .leftBrace) ∧
        Parser.callArgs (Parser.inner m) c = .ok (es, c')
  | .exprs es, c, c' => ∀ rounds, c.rest.length < rounds →
      Parser.commaList ((Parser.inner m).expr 0) rounds c = .ok (es, c')
  | .field f, c, c' => Parser.field (Parser.inner m) c = .ok (f, c')
  | .fields fs, c, c' => ∃ c₁, (∀ rounds, c.rest.length < rounds →
      Parser.fields (Parser.inner m) rounds c = .ok (fs, c₁)) ∧
        Parser.consume .rightBrace c₁ = .ok ((), c')
  | .params texts isVararg, c, c' => ∀ rounds, c.rest.length < rounds →
      Parser.params rounds c = .ok ((texts, isVararg), c')
  | .signature texts isVararg, c, c' => c.kind? = some .leftParen ∧ ∃ c₁,
      (if c.advance.isAt .rightParen then pure ([], false) else Parser.looping Parser.params)
        c.advance = .ok ((texts, isVararg), c₁) ∧ Parser.consume .rightParen c₁ = .ok ((), c')
  | .block body, c, c' => (Parser.inner m).block c = .ok (body, c')
  | .statements body, c, c' => ∀ rounds, c.rest.length < rounds →
      Parser.statements (Parser.inner m) rounds c = .ok (body, c')
  | .statement s, c, c' => Parser.statement (Parser.inner m) c = .ok (s, c')
  | .results es, c, c' =>
    (if c.atBlockEnd || c.isAt .semicolon then pure [] else Parser.exprList (Parser.inner m)) c =
      .ok (es, c')
  | .elseParts clauses otherwise, c, c' => ∀ rounds, c.rest.length < rounds →
      Parser.elseParts (Parser.inner m) rounds c = .ok ((clauses, otherwise), c')
  | .step none, c, c' => ¬ c.kind? = some .comma ∧ c' = c
  | .step (some e), c, c' =>
    c.kind? = some .comma ∧ (Parser.inner m).expr 0 c.advance = .ok (e, c')
  | .names kind texts, c, c' => ∀ rounds, c.rest.length < rounds →
      Parser.listBehind kind Parser.identifier rounds c = .ok (texts, c')
  | .locals texts, c, c' => ∀ rounds, c.rest.length < rounds →
      Parser.commaList Parser.localName rounds c = .ok (texts, c')
  | .qualifier, c, c' =>
    (if c.isAt .less && c.kindAhead? 1 = some .ident && c.kindAhead? 2 = some .greater then
      c.advance.advance.advance else c) = c'
  | .initializers es, c, c' => (¬ c.kind? = some .assign ∧ es = [] ∧ c' = c) ∨
      (c.kind? = some .assign ∧ Parser.exprList (Parser.inner m) c.advance = .ok (es, c'))
  | .method none, c, c' => ¬ c.kind? = some .colon ∧ c' = c
  | .method (some text), c, c' =>
    c.kind? = some .colon ∧ Parser.identifier c.advance = .ok (text, c')
  | .functionName name, c, c' => Parser.functionName c = .ok (name, c')
  | .targets es, c, c' => (c.kind? = some .comma ∨ c' = c) ∧ ∀ rounds, c.rest.length < rounds →
      Parser.listBehind .comma (Parser.suffixedExpr (Parser.inner m)) rounds c = .ok (es, c')

namespace Cursor

/-- At least as many tokens are read between two places as a phrase must have. -/
def Spends (p : Phrase) (c c' : Cursor) : Prop :=
  c'.rest.length + p.isFilled.toNat ≤ c.rest.length

variable {c c' : Cursor} {symbols : List Symbol}

theorem Derives.spends {p : Phrase} (h : c.Derives [.phrase p] c') : Spends p c c' := by
  obtain ⟨hLe, hLt⟩ := h.length
  cases hFilled : p.isFilled with
  | false => simpa [Spends, hFilled] using hLe
  | true =>
    rw [Spends, hFilled]
    exact hLt (by simp [Symbol.isFilled, hFilled])

end Cursor

open Cursor (Spends)

/-- Whether what is nested is behind a token, or may be nested right from the start. -/
def Symbol.placed (nested : Bool) : List Symbol → Bool
  | [] | .slot _ :: _ => true
  | .mint _ :: symbols | .absent _ :: symbols => placed nested symbols
  | .phrase p :: symbols => (!p.isNested || nested) && (p.isFilled || placed nested symbols)

theorem Production.placed {start last : Span} {p : Phrase} {inside : List Symbol}
    (h : Production start last p inside) :
    Symbol.placed p.isNested inside = true := by
  cases h <;> rfl

namespace Parser

variable {c c' : Cursor} {m : Nat} {inside : List Symbol}

/-- A phrase is read at every level that has room for the tokens that are left. -/
structure Ready (p : Phrase) (c c' : Cursor) : Prop where
  spends : Cursor.Spends p c c'
  runs {m : Nat} (hm : c.rest.length + p.isNested.toNat ≤ m) : p.Runs m c c'

/-- A phrase is read, and takes up tokens. -/
def Step (m : Nat) (p : Phrase) (c c' : Cursor) : Prop := p.Runs m c c' ∧ Cursor.Spends p c c'

theorem passes_step {b : Bool} (h : Cursor.Passes Ready inside c c')
    (hPlaced : Symbol.placed b inside = true) (hm : c.rest.length + b.toNat ≤ m) :
    Cursor.Passes (Step m) inside c c' := by
  -- behind a token there is room for what is nested
  have hBehind : ∀ {symbols : List Symbol}, Symbol.placed true symbols = true := by
    intro symbols
    induction symbols with
    | nil => rfl
    | cons symbol symbols ih => cases symbol <;> simp [Symbol.placed, ih]
  have hToNat := b.toNat_le
  induction inside generalizing c b with
  | nil => exact h
  | cons symbol symbols ih =>
    cases symbol with
    | slot s =>
      have hLength := h.1.length
      refine ⟨h.1, ih h.2 (b := true) hBehind ?_ (by simp)⟩
      simp only [Bool.toNat_true]
      omega
    | mint | absent => exact ⟨h.1, ih h.2 hPlaced hm hToNat⟩
    | phrase p =>
      obtain ⟨c₁, hReady, hRest⟩ := h
      have hSpends := hReady.spends
      simp only [Symbol.placed, Bool.and_eq_true, Bool.or_eq_true, Bool.not_eq_true'] at hPlaced
      simp only [Cursor.Spends] at hSpends
      refine ⟨c₁, ⟨hReady.runs ?_, hReady.spends⟩, ?_⟩
      · rcases hPlaced.1 with hNested | rfl
        · simp only [hNested, Bool.toNat_false]
          omega
        · have hLe := p.isNested.toNat_le
          simp only [Bool.toNat_true] at hm
          omega
      · rcases hPlaced.2 with hFilled | hPlaced
        · refine ih hRest (b := true) hBehind ?_ (by simp)
          simp only [hFilled, Bool.toNat_true] at hSpends ⊢
          omega
        · exact ih hRest hPlaced (by omega) hToNat

theorem exists_kind (h : c'.rest.length + 1 ≤ c.rest.length) : ∃ kind, c.kind? = some kind := by
  cases hRest : c.rest with
  | nil => simp [hRest] at h
  | cons t rest => exact ⟨t.kind, by simp [Cursor.kind?, hRest]⟩

theorem kind_prefix (hNot : Token.startWith [fun kind => !kind.startsPrefix] c.rest = false)
    (h : c'.rest.length + 1 ≤ c.rest.length) :
    c.kind? = some .ident ∨ c.kind? = some .leftParen := by
  obtain ⟨kind, hKind⟩ := exists_kind h
  rw [Cursor.startWith_single, hKind] at hNot
  cases kind <;> simp_all [Token.Kind.startsPrefix]

section Levels

attribute [local simp] bind_run get_run pure_run skip_run spanFrom_run node_run map_run ok_bind

variable (h : Cursor.Passes (Step m) inside c c')
include h
variable {e : Expr} {es : List Expr} {texts : List String}

theorem runs_chain (hp : Production c.span c'.previous (.chain e) inside) :
    Phrase.Runs m (.chain e) c c' := by
  cases hp <;> simp only [Passes, Step, Phrase.Runs, hasSlot_token, hasSlot_name, Spends,
      Phrase.isFilled, Bool.toNat_true] at h ⊢
  case name =>
    obtain ⟨⟨hKind, hName⟩, rfl, rfl⟩ := h
    exact ⟨_, Nat.lt_succ_self _, by
      simp [suffixedExpr, primaryExpr, looping, hKind, hName]⟩
  case paren =>
    obtain ⟨hLeft, c₁, ⟨hExpr, -⟩, hRight, rfl, rfl⟩ := h
    exact ⟨_, Nat.lt_succ_self _, by
      simp [suffixedExpr, primaryExpr, looping, hLeft, hExpr, consume_run hRight]⟩
  case member =>
    obtain ⟨c₁, ⟨⟨_ | rounds, hLt, hRun⟩, -⟩, hDot, ⟨hKind, hName⟩, rfl, rfl⟩ := h
    · omega
    have hLength := length_of_kind? hDot
    have hLength' := length_of_kind? hKind
    refine ⟨rounds, by simp only [Cursor.rest_minted]; omega, ?_⟩
    simp [hRun, suffixes, hDot, hName]
  case index =>
    obtain ⟨c₁, ⟨⟨_ | rounds, hLt, hRun⟩, -⟩, hLeft, c₂, ⟨hKey, hSpends⟩, hRight, rfl, rfl⟩ := h
    · omega
    have hLength := length_of_kind? hLeft
    have hLength' := length_of_kind? hRight
    refine ⟨rounds, by simp only [Cursor.rest_minted]; omega, ?_⟩
    simp [hRun, suffixes, hLeft, hKey, consume_run hRight]
  case call =>
    obtain ⟨c₁, ⟨⟨_ | rounds, hLt, hRun⟩, -⟩, c₂, ⟨⟨hKind, hArgs⟩, hSpends⟩, rfl, rfl⟩ := h
    · omega
    refine ⟨rounds, by simp only [Cursor.rest_minted]; omega, ?_⟩
    rcases hKind with hKind | hKind | hKind | hKind <;>
      simp [hRun, suffixes, hKind, hArgs]
  case methodCall =>
    obtain ⟨c₁, ⟨⟨_ | rounds, hLt, hRun⟩, -⟩, hColon, ⟨hKind, hName⟩, c₂, ⟨⟨-, hArgs⟩, hSpends⟩, rfl, rfl⟩ := h
    · omega
    have hLength := length_of_kind? hColon
    have hLength' := length_of_kind? hKind
    refine ⟨rounds, by simp only [Cursor.rest_minted]; omega, ?_⟩
    simp [hRun, suffixes, hColon, hName, hArgs]

theorem runs_suffixed (hp : Production c.span c'.previous (.suffixed e) inside) :
    Phrase.Runs m (.suffixed e) c c' := by
  cases hp
  obtain ⟨_, ⟨⟨_ | rounds, hLt, hRun⟩, -⟩, hNot, rfl⟩ := h
  · omega
  rw [Cursor.startWith_single] at hNot
  simp only [Phrase.Runs, hRun, suffixes, bind_run, get_run, ok_bind]
  cases hKind : c'.kind? with
  | none => rfl
  | some kind =>
    rw [hKind] at hNot
    cases kind <;> first | rfl | cases hNot

theorem runs_args (hp : Production c.span c'.previous (.args es) inside) :
    Phrase.Runs m (.args es) c c' := by
  cases hp <;> simp only [Passes, Step, Phrase.Runs, hasSlot_token, absent_kind] at h ⊢
  case noArgs =>
    obtain ⟨hLeft, hRight, rfl⟩ := h
    exact ⟨.inl hLeft, by simp [callArgs, hLeft, Cursor.isAt, hRight, consume_run hRight]⟩
  case someArgs =>
    obtain ⟨hLeft, hNot, c₁, ⟨hExprs, -⟩, hRight, rfl⟩ := h
    exact ⟨.inl hLeft, by
      simp [callArgs, hLeft, Cursor.isAt, hNot, exprList, looping, hExprs, consume_run hRight]⟩
  case bareString =>
    obtain ⟨hValue, rfl, rfl⟩ := h
    obtain ⟨hKind, hRun⟩ := stringValue_run hValue
    refine ⟨hKind.elim (.inr ∘ .inl) (.inr ∘ .inr ∘ .inl), ?_⟩
    rcases hKind with hKind | hKind <;> simp [callArgs, hKind, hRun]
  case bareTable =>
    obtain ⟨hLeft, c₁, ⟨⟨c₂, hFields, hRight⟩, -⟩, rfl, rfl⟩ := h
    refine ⟨.inr (.inr (.inr hLeft)), ?_⟩
    simp [callArgs, tableFields, looping, hLeft, consume_run hLeft, hFields, hRight]

omit h in
/-- A function, and what is read behind it. -/
theorem exists_functionBody {body : FunctionBody} {symbols : List Symbol} (start : Span)
    (hAll : Passes (Step m) (body.symbols ++ symbols) c c') : ∃ c₁,
      (body.span = start.merge c₁.previous → functionBody (inner m) start c = .ok (body, c₁)) ∧
        Passes (Step m) symbols c₁ c' := by
  simp only [FunctionBody.symbols, cons_append, nil_append, Passes, Step, Phrase.Runs, hasSlot_token] at hAll
  obtain ⟨hId, c₁, ⟨⟨hLeft, c₂, hParams, hRight⟩, -⟩, c₃, ⟨hBody, -⟩, hEnd, hRest⟩ := hAll
  refine ⟨_, fun hSpan => ?_, hRest⟩
  obtain ⟨id, params, isVararg, block, span⟩ := body
  simp only [FunctionBody.id, FunctionBody.params, FunctionBody.isVararg, FunctionBody.body,
    FunctionBody.span] at hId hParams hBody hSpan
  subst hId hSpan
  have hMint : mint c = .ok (c.nextId, c.minted) := rfl
  split at hParams <;>
    simp_all [functionBody, consume_run hLeft, consume_run hEnd]

theorem runs_simple (hp : Production c.span c'.previous (.simple e) inside) :
    Phrase.Runs m (.simple e) c c' := by
  cases hp <;> simp only [Passes, Step, Phrase.Runs, hasSlot_token] at h ⊢
  case nil | vararg =>
    obtain ⟨hKind, rfl, rfl⟩ := h
    simp [simpleExpr, hKind]
  case boolean value =>
    obtain ⟨hKind, rfl, rfl⟩ := h
    cases value <;> simp [simpleExpr, hKind]
  case number text =>
    obtain ⟨⟨t, rest, hRest, hFits⟩, rfl, rfl⟩ := h
    cases hFits with
    | number hKind => simp [simpleExpr, Cursor.kind?, hRest, hKind]
  case string =>
    obtain ⟨hValue, rfl, rfl⟩ := h
    obtain ⟨hKind, hRun⟩ := stringValue_run hValue
    rcases hKind with hKind | hKind <;> simp [simpleExpr, hKind, hRun]
  case table =>
    obtain ⟨hLeft, c₁, ⟨⟨c₂, hFields, hRight⟩, -⟩, rfl, rfl⟩ := h
    simp [simpleExpr, tableFields, looping, hLeft, consume_run hLeft, hFields, hRight]
  case function hSpan =>
    obtain ⟨hKind, h⟩ := h
    obtain ⟨c₁, hBody, rfl, rfl⟩ := exists_functionBody c.span h
    simp [simpleExpr, hKind, hBody hSpan]
  case ofSuffixed =>
    obtain ⟨hFirst, _, ⟨hRun, hSpends⟩, rfl⟩ := h
    rcases kind_prefix hFirst hSpends with hKind | hKind <;> simpa [simpleExpr, hKind] using hRun

theorem runs_spine {power : Nat} (hp : Production c.span c'.previous (.spine power e) inside) :
    Phrase.Runs m (.spine power e) c c' := by
  cases hp <;> simp only [Passes, Step, Phrase.Runs, hasSlot_token, Spends,
      Phrase.isFilled, Bool.toNat_true] at h ⊢
  case ofSimple =>
    obtain ⟨hNot, _, ⟨hRun, -⟩, rfl⟩ := h
    refine ⟨_, Nat.lt_succ_self _, ?_⟩
    rw [Cursor.startWith_single] at hNot
    cases hKind : c.kind? with
    | none => simp [operation, operand, hKind, hRun, looping]
    | some kind =>
      have hNone : UnaryOp.ofToken? kind = none := by simpa [hKind] using hNot
      simp [operation, operand, hKind, hNone, hRun, looping]
  case unary op e =>
    obtain ⟨hOp, c₁, ⟨hRun, -⟩, rfl, rfl⟩ := h
    refine ⟨_, Nat.lt_succ_self _, ?_⟩
    have hToken := UnaryOp.ofToken?_eq_some_iff.2 (rfl : op.token = op.token)
    simp [operation, operand, hOp, hToken, hRun, looping]
  case binary op left right hLt =>
    obtain ⟨c₁, ⟨⟨_ | rounds, hRounds, hRun⟩, -⟩, hOp, c₂, ⟨hRight, hSpends⟩, rfl, rfl⟩ := h
    · omega
    have hLength := length_of_kind? hOp
    have hToken := BinaryOp.ofToken?_eq_some_iff.2 (rfl : op.token = op.token)
    refine ⟨rounds, by simp only [Cursor.rest_minted]; omega, ?_⟩
    simp [hRun, operators, hOp, hToken, Nat.not_le.2 hLt, hRight]

theorem runs_exprs (hp : Production c.span c'.previous (.exprs es) inside) :
    Phrase.Runs m (.exprs es) c c' := by
  cases hp <;> simp only [Passes, Step, Phrase.Runs, hasSlot_token, absent_kind, Spends,
      Phrase.isFilled, Bool.toNat_true] at h ⊢ <;> rintro (_ | rounds) hRounds
  case lastExpr.zero | consExpr.zero => omega
  case lastExpr.succ =>
    obtain ⟨_, ⟨hRun, -⟩, hNot, rfl⟩ := h
    simp [commaList, hRun, eat_run, hNot]
  case consExpr.succ =>
    obtain ⟨c₁, ⟨hRun, hSpends⟩, hComma, c₂, ⟨hOthers, -⟩, rfl⟩ := h
    have hLength := length_of_kind? hComma
    simp [commaList, hRun, eat_run, hComma, hOthers rounds (by omega)]

theorem runs_expr {power : Nat} (hp : Production c.span c'.previous (.expr power e) inside) :
    Phrase.Runs (m + 1) (.expr power e) c c' := by
  cases hp
  obtain ⟨_, ⟨⟨_ | rounds, hLt, hRun⟩, -⟩, hNot, rfl⟩ := h
  · omega
  refine hRun.trans ?_
  have hStops := Cursor.stops_of_absent hNot
  simp only [operators, bind_run, get_run, ok_bind]
  cases hOp : c'.operator? with
  | none => rw [show c'.kind?.bind BinaryOp.ofToken? = none from hOp]; rfl
  | some op =>
    rw [show c'.kind?.bind BinaryOp.ofToken? = some op from hOp]
    simp [hStops op hOp]

theorem runs_field {f : Field} (hp : Production c.span c'.previous (.field f) inside) :
    Phrase.Runs m (.field f) c c' := by
  cases hp <;> simp only [Passes, Step, Phrase.Runs, hasSlot_token, hasSlot_name, absent_kind] at h ⊢
  case named =>
    obtain ⟨⟨hKind, hName⟩, hAssign, _, ⟨hRun, -⟩, rfl⟩ := h
    simp [field, Cursor.isAt, Cursor.kindAhead?_succ, Cursor.kindAhead?_zero, hKind, hAssign, hName, hRun]
  case keyed =>
    obtain ⟨hLeft, c₁, ⟨hKey, -⟩, hRight, hAssign, _, ⟨hRun, -⟩, rfl⟩ := h
    simp [field, Cursor.isAt, hLeft, hKey, consume_run hRight, consume_run hAssign, hRun]
  case positional =>
    obtain ⟨hBracket, hNamed, _, ⟨hRun, -⟩, rfl⟩ := h
    rw [Cursor.startWith_eq, Cursor.startWith_single, Cursor.any_kind?, Cursor.any_kind?] at hNamed
    have hAhead : ¬ (c.kind? = some .ident ∧ c.kindAhead? 1 = some .assign) := by
      simpa [Cursor.kindAhead?_succ, Cursor.kindAhead?_zero, Cursor.isAt] using hNamed
    simp [field, Cursor.isAt, hBracket, hAhead, hRun]

theorem runs_fields {fs : List Field} (hp : Production c.span c'.previous (.fields fs) inside) :
    Phrase.Runs m (.fields fs) c c' := by
  cases hp <;> simp only [Passes, Step, Phrase.Runs, hasSlot_token, absent_kind, Spends,
      Phrase.isFilled, Bool.toNat_true] at h ⊢
  case noFields =>
    obtain ⟨hRight, rfl⟩ := h
    refine ⟨c, ?_, consume_run hRight⟩
    rintro (_ | rounds) hRounds
    · omega
    · simp [fields, Cursor.isAt, hRight]
  case lastField =>
    obtain ⟨hNot, c₁, ⟨hField, -⟩, hRight, rfl⟩ := h
    refine ⟨c₁, ?_, consume_run hRight⟩
    rintro (_ | rounds) hRounds
    · omega
    · simp [fields, Cursor.isAt, hNot, hField, eat_run, hRight]
  case consField hSeparator =>
    obtain ⟨hNot, c₁, ⟨hField, hSpends⟩, hKind, _, ⟨⟨c₂, hFields, hRight⟩, -⟩, rfl⟩ := h
    refine ⟨c₂, ?_, hRight⟩
    have hLength := length_of_kind? hKind
    rintro (_ | rounds) hRounds
    · omega
    · rcases hSeparator with rfl | rfl <;>
        simp [fields, Cursor.isAt, hNot, hField, eat_run, hKind, hFields rounds (by omega)]

theorem runs_params {isVararg : Bool}
    (hp : Production c.span c'.previous (.params texts isVararg) inside) :
    Phrase.Runs m (.params texts isVararg) c c' := by
  cases hp <;> simp only [Passes, Step, Phrase.Runs, hasSlot_token, hasSlot_name, absent_kind] at h ⊢ <;> rintro (_ | rounds) hRounds
  case varargParam.zero | lastParam.zero | consParam.zero => omega
  case varargParam.succ =>
    obtain ⟨hKind, rfl⟩ := h
    simp [params, eat_run, hKind]
  case lastParam.succ =>
    obtain ⟨⟨hKind, hName⟩, hNot, rfl⟩ := h
    simp [params, eat_run, hKind, hName, hNot]
  case consParam.succ =>
    obtain ⟨⟨hKind, hName⟩, hComma, _, ⟨hOthers, -⟩, rfl⟩ := h
    have hLength := length_of_kind? hKind
    have hLength' := length_of_kind? hComma
    simp [params, eat_run, hKind, hName, hComma, hOthers rounds (by omega)]

theorem runs_signature {isVararg : Bool}
    (hp : Production c.span c'.previous (.signature texts isVararg) inside) :
    Phrase.Runs m (.signature texts isVararg) c c' := by
  cases hp <;> simp only [Passes, Step, Phrase.Runs, hasSlot_token, absent_kind] at h ⊢
  case noParams =>
    obtain ⟨hLeft, hRight, rfl⟩ := h
    exact ⟨hLeft, c.advance, by simp [Cursor.isAt, hRight], consume_run hRight⟩
  case someParams =>
    obtain ⟨hLeft, hNot, c₁, ⟨hParams, -⟩, hRight, rfl⟩ := h
    exact ⟨hLeft, c₁, by simp [Cursor.isAt, hNot, looping, hParams], consume_run hRight⟩

theorem runs_block {body : Block} (hp : Production c.span c'.previous (.block body) inside) :
    Phrase.Runs (m + 1) (.block body) c c' := by
  cases hp
  obtain ⟨_, ⟨hRun, -⟩, rfl⟩ := h
  have hRun := hRun _ (Nat.lt_succ_self _)
  show blockWith (inner m) c = _
  simp [blockWith, looping, hRun]

theorem runs_results (hp : Production c.span c'.previous (.results es) inside) :
    Phrase.Runs m (.results es) c c' := by
  cases hp <;> simp only [Passes, Step, Phrase.Runs, Cursor.startWith_single] at h ⊢
  case noResults =>
    obtain ⟨hEnd, rfl⟩ := h
    simp [Cursor.atResultsEnd_eq, hEnd]
  case someResults =>
    obtain ⟨hNot, _, ⟨hRun, hSpends⟩, rfl⟩ := h
    rw [Cursor.atResultsEnd_eq, if_neg]
    · exact hRun _ (Nat.lt_succ_self _)
    · obtain ⟨kind, hKind⟩ := exists_kind hSpends
      simpa [hKind] using hNot

omit h in
theorem returnStatement_run {c₁ c₂ : Cursor} {es : List Expr} {found : Bool}
    (hKind : c.kind? = some .kwReturn) (hResults : Phrase.Runs m (.results es) c.advance c₁)
    (hEat : eat .semicolon c₁ = .ok (found, c₂)) : returnStatement (inner m) c =
      .ok (.returnValues (c.span.merge c₂.previous) es, c₂) := by
  simp only [Phrase.Runs] at hResults
  split at hResults <;> simp_all [returnStatement, consume_run hKind]

theorem runs_statements {body : List Stmt}
    (hp : Production c.span c'.previous (.statements body) inside) :
    Phrase.Runs m (.statements body) c c' := by
  cases hp <;> simp only [Passes, Step, Phrase.Runs, hasSlot_token, absent_kind, Spends,
      Phrase.isFilled, Bool.toNat_true] at h ⊢ <;> rintro (_ | rounds) hRounds
  case noStatements.zero | semicolon.zero | consStatement.zero | returns.zero | returnsClosed.zero =>
    omega
  case noStatements.succ =>
    obtain ⟨hEnd, rfl⟩ := h
    rw [Cursor.startWith_single] at hEnd
    simp [statements, Cursor.atBlockEnd_eq, hEnd]
  case semicolon.succ =>
    obtain ⟨hKind, _, ⟨hBody, -⟩, rfl⟩ := h
    have hLength := length_of_kind? hKind
    simp [statements, Cursor.atBlockEnd, Cursor.isAt, hKind, hBody rounds (by omega)]
  case consStatement.succ =>
    obtain ⟨hStart, c₁, ⟨hFirst, hSpends⟩, _, ⟨hBody, -⟩, rfl⟩ := h
    obtain ⟨kind, hKind⟩ := exists_kind hSpends
    rw [Cursor.startWith_single, hKind] at hStart
    simp only [Option.any_some, Token.Kind.endsStatements, Bool.or_eq_false_iff, decide_eq_false_iff_not] at hStart
    simp [statements, Cursor.atBlockEnd_eq, Cursor.isAt, hKind, hStart, hFirst, hBody rounds (by omega)]
  case returns.succ =>
    obtain ⟨hKind, _, ⟨hResults, -⟩, hNot, rfl⟩ := h
    have hReturn : returnStatement (inner m) c = .ok (_, c') := returnStatement_run hKind hResults
      (by simp [eat_run, hNot]; rfl)
    simp [statements, Cursor.atBlockEnd, Cursor.isAt, hKind, hReturn]
  case returnsClosed.succ =>
    obtain ⟨hKind, c₁, ⟨hResults, -⟩, hSemicolon, rfl⟩ := h
    have hReturn : returnStatement (inner m) c = .ok (_, c₁.advance) :=
      returnStatement_run hKind hResults (by simp [eat_run, hSemicolon]; rfl)
    simp [statements, Cursor.atBlockEnd, Cursor.isAt, hKind, hReturn]

theorem runs_elseParts {clauses : List Clause} {otherwise : Option Block}
    (hp : Production c.span c'.previous (.elseParts clauses otherwise) inside) :
    Phrase.Runs m (.elseParts clauses otherwise) c c' := by
  cases hp <;> simp only [Passes, Step, Phrase.Runs, hasSlot_token, Spends,
      Phrase.isFilled, Bool.toNat_true] at h ⊢ <;> rintro (_ | rounds) hRounds
  case elseIf.zero | otherwise.zero | noElse.zero => omega
  case elseIf.succ =>
    obtain ⟨hKind, c₁, ⟨hCondition, hSpends⟩, hThen, c₂, ⟨hBody, hSpends'⟩, _, ⟨hRest, -⟩, rfl⟩ := h
    have hLength := length_of_kind? hKind
    have hLength' := length_of_kind? hThen
    simp only [Bool.toNat_false] at hSpends'
    simp [elseParts, hKind, hCondition, consume_run hThen, hBody, hRest rounds (by omega)]
  case otherwise.succ =>
    obtain ⟨hKind, c₁, ⟨hBody, -⟩, hEnd, rfl⟩ := h
    simp [elseParts, hKind, hBody, consume_run hEnd]
  case noElse.succ =>
    obtain ⟨hEnd, rfl⟩ := h
    simp [elseParts, hEnd, consume_run hEnd]

theorem runs_step {e : Option Expr} (hp : Production c.span c'.previous (.step e) inside) :
    Phrase.Runs m (.step e) c c' := by
  cases hp <;> simp only [Passes, Step, Phrase.Runs, hasSlot_token, absent_kind] at h ⊢
  case noStep => exact h
  case someStep =>
    obtain ⟨hComma, _, ⟨hRun, -⟩, rfl⟩ := h
    exact ⟨hComma, hRun⟩

theorem runs_names {kind : Token.Kind}
    (hp : Production c.span c'.previous (.names kind texts) inside) :
    Phrase.Runs m (.names kind texts) c c' := by
  cases hp <;> simp only [Passes, Step, Phrase.Runs, hasSlot_token, hasSlot_name, absent_kind] at h ⊢ <;> rintro (_ | rounds) hRounds
  case noNames.zero | consName.zero => omega
  case noNames.succ =>
    obtain ⟨hNot, rfl⟩ := h
    simp [listBehind, eat_run, hNot]
  case consName.succ =>
    obtain ⟨hKind, ⟨hIdent, hName⟩, _, ⟨hOthers, -⟩, rfl⟩ := h
    have hLength := length_of_kind? hKind
    have hLength' := length_of_kind? hIdent
    simp [listBehind, eat_run, hKind, hName, hOthers rounds (by omega)]

theorem runs_qualifier (hp : Production c.span c'.previous .qualifier inside) :
    Phrase.Runs m .qualifier c c' := by
  cases hp <;> simp only [Passes, Phrase.Runs, hasSlot_token] at h ⊢
  case noAttribute =>
    obtain ⟨hNot, rfl⟩ := h
    rw [Cursor.startWith_eq, Cursor.startWith_eq, Cursor.startWith_single, Cursor.any_kind?,
      Cursor.any_kind?, Cursor.any_kind?] at hNot
    rw [if_neg]
    simpa [Cursor.kindAhead?_succ, Cursor.kindAhead?_zero, Cursor.isAt] using hNot
  case someAttribute =>
    obtain ⟨hLess, hIdent, hGreater, rfl⟩ := h
    rw [if_pos]
    simp [Cursor.kindAhead?_succ, Cursor.kindAhead?_zero, Cursor.isAt, hLess, hIdent, hGreater]

omit h in
theorem localName_run {c₁ c₂ : Cursor} {text : String}
    (hName : identifier c = .ok (text, c₁)) (hRest : Phrase.Runs m .qualifier c₁ c₂) :
    localName c = .ok (text, c₂) := by
  simp only [Phrase.Runs] at hRest
  subst hRest
  simp only [localName, bind_run, hName, ok_bind, get_run]
  split <;> rfl

theorem runs_locals (hp : Production c.span c'.previous (.locals texts) inside) :
    Phrase.Runs m (.locals texts) c c' := by
  cases hp <;> rintro (_ | rounds) hRounds
  case lastLocal.zero | consLocal.zero => omega
  case lastLocal.succ =>
    obtain ⟨hName, _, ⟨hAttribute, -⟩, hNot, rfl⟩ := h
    simp [commaList, localName_run (hasSlot_name.1 hName).2 hAttribute, eat_run, absent_kind.1 hNot]
  case consLocal.succ =>
    obtain ⟨hName, c₁, ⟨hAttribute, hSpends⟩, hComma, _, ⟨hOthers, -⟩, rfl⟩ := h
    have hLength := hName.length
    have hLength' := hComma.length
    have hOthers := hOthers rounds (by simp only [Spends] at hSpends; omega)
    simp [commaList, localName_run (hasSlot_name.1 hName).2 hAttribute, eat_run,
      hasSlot_token.1 hComma, hOthers]

theorem runs_initializers (hp : Production c.span c'.previous (.initializers es) inside) :
    Phrase.Runs m (.initializers es) c c' := by
  cases hp <;> simp only [Passes, Step, Phrase.Runs, hasSlot_token, absent_kind] at h ⊢
  case noInitializers => exact .inl ⟨h.1, trivial, h.2⟩
  case someInitializers =>
    obtain ⟨hAssign, _, ⟨hRun, -⟩, rfl⟩ := h
    exact .inr ⟨hAssign, hRun _ (Nat.lt_succ_self _)⟩

theorem runs_method {text : Option String} (hp : Production c.span c'.previous (.method text) inside) :
    Phrase.Runs m (.method text) c c' := by
  cases hp <;> simp only [Passes, Phrase.Runs, hasSlot_token, hasSlot_name, absent_kind] at h ⊢
  case noMethod => exact h
  case someMethod =>
    obtain ⟨hColon, ⟨-, hName⟩, rfl⟩ := h
    exact ⟨hColon, hName⟩

theorem runs_functionName {name : FunctionName}
    (hp : Production c.span c'.previous (.functionName name) inside) :
    Phrase.Runs m (.functionName name) c c' := by
  cases hp
  case functionName root members method =>
    cases method <;> simp only [Passes, Step, Phrase.Runs, hasSlot_name] at h ⊢
    case none =>
      obtain ⟨⟨-, hRoot⟩, c₁, ⟨hMembers, -⟩, _, ⟨⟨hNot, rfl⟩, -⟩, rfl⟩ := h
      simp [functionName, hRoot, looping, hMembers, eat_run, hNot]
    case some text =>
      obtain ⟨⟨-, hRoot⟩, c₁, ⟨hMembers, -⟩, _, ⟨⟨hColon, hName⟩, -⟩, rfl⟩ := h
      simp [functionName, hRoot, looping, hMembers, eat_run, hColon, hName]

theorem runs_targets (hp : Production c.span c'.previous (.targets es) inside) :
    Phrase.Runs m (.targets es) c c' := by
  cases hp <;> simp only [Passes, Step, Phrase.Runs, hasSlot_token, absent_kind, Spends,
      Phrase.isFilled, Bool.toNat_true] at h ⊢
  case noTargets =>
    obtain ⟨hNot, rfl⟩ := h
    refine ⟨.inr rfl, ?_⟩
    rintro (_ | rounds) hRounds
    · omega
    · simp [listBehind, eat_run, hNot]
  case consTarget =>
    obtain ⟨hComma, c₁, ⟨hTarget, hSpends⟩, _, ⟨⟨-, hOthers⟩, -⟩, rfl⟩ := h
    have hLength := length_of_kind? hComma
    refine ⟨.inl hComma, ?_⟩
    rintro (_ | rounds) hRounds
    · omega
    · simp [listBehind, eat_run, hComma, hTarget, hOthers rounds (by omega)]

theorem runs_statement {s : Stmt} (hp : Production c.span c'.previous (.statement s) inside) :
    Phrase.Runs m (.statement s) c c' := by
  cases hp <;> simp only [Passes, Step, Phrase.Runs, hasSlot_token, hasSlot_name, absent_kind] at h ⊢
  case ifElse =>
    obtain ⟨hKind, c₁, ⟨hCondition, -⟩, hThen, c₂, ⟨hBody, -⟩, _, ⟨hRest, -⟩, rfl⟩ := h
    simp [statement, statementShape, hKind, hCondition, consume_run hThen, hBody, looping, hRest]
  case whileLoop =>
    obtain ⟨hKind, c₁, ⟨hCondition, -⟩, hDo, c₂, ⟨hBody, -⟩, hEnd, rfl⟩ := h
    simp [statement, statementShape, hKind, hCondition, consume_run hDo, hBody, consume_run hEnd]
  case doBlock =>
    obtain ⟨hKind, c₁, ⟨hBody, -⟩, hEnd, rfl⟩ := h
    simp [statement, statementShape, hKind, hBody, consume_run hEnd]
  case repeatLoop =>
    obtain ⟨hKind, c₁, ⟨hBody, -⟩, hUntil, _, ⟨hCondition, -⟩, rfl⟩ := h
    simp [statement, statementShape, hKind, hBody, consume_run hUntil, hCondition]
  case numericFor step _ =>
    cases step <;> simp only at h
    case none =>
      obtain ⟨hKind, ⟨-, hVar⟩, hAssign, c₁, ⟨hFirst, -⟩, hComma, c₂, ⟨hLimit, -⟩, _,
        ⟨⟨hNot, rfl⟩, -⟩, hDo, c₃, ⟨hBody, -⟩, hEnd, rfl⟩ := h
      simp [statement, statementShape, forLoop, hKind, hVar, eat_run, hAssign, hFirst,
        consume_run hComma, hLimit, hNot, consume_run hDo, hBody, consume_run hEnd]
    case some =>
      obtain ⟨hKind, ⟨-, hVar⟩, hAssign, c₁, ⟨hFirst, -⟩, hComma, c₂, ⟨hLimit, -⟩, _,
        ⟨⟨hAnother, hStep⟩, -⟩, hDo, c₃, ⟨hBody, -⟩, hEnd, rfl⟩ := h
      simp [statement, statementShape, forLoop, hKind, hVar, eat_run, hAssign, hFirst,
        consume_run hComma, hLimit, hAnother, hStep, consume_run hDo, hBody, consume_run hEnd]
  case genericFor =>
    obtain ⟨hKind, ⟨-, hFirst⟩, hNot, c₁, ⟨hOthers, -⟩, hIn, c₂, ⟨hIterators, -⟩, hDo, c₃,
      ⟨hBody, -⟩, hEnd, rfl⟩ := h
    simp [statement, statementShape, forLoop, hKind, hFirst, eat_run, hNot, looping, hOthers,
      consume_run hIn, exprList, hIterators, consume_run hDo, hBody, consume_run hEnd]
  case functionStatement hSpan =>
    obtain ⟨hKind, c₁, ⟨hName, -⟩, h⟩ := h
    rw [← append_nil (FunctionBody.symbols _)] at h
    obtain ⟨_, hBody, rfl⟩ := exists_functionBody c.span h
    simp [statement, statementShape, hKind, hName, hBody hSpan]
  case localFunction hSpan =>
    obtain ⟨hKind, hFunction, ⟨-, hName⟩, h⟩ := h
    rw [← append_nil (FunctionBody.symbols _)] at h
    obtain ⟨_, hBody, rfl⟩ := exists_functionBody c.span h
    simp [statement, statementShape, hKind, eat_run, hFunction, hName, hBody hSpan]
  case localVars =>
    obtain ⟨hKind, hNot, c₁, ⟨hNames, -⟩, _, ⟨⟨hAssign, rfl, rfl⟩ | ⟨hAssign, hValues⟩, -⟩, rfl⟩ := h
    · simp [statement, statementShape, hKind, eat_run, hNot, looping, hNames, hAssign]
    · simp [statement, statementShape, hKind, eat_run, hNot, looping, hNames, hAssign, hValues]
  case assign first others values hTargets =>
    obtain ⟨hStart, c₁, ⟨hFirst, hSpends⟩, c₂, ⟨⟨hNext, hOthers⟩, -⟩, hAssign, _, ⟨hValues, -⟩,
      rfl⟩ := h
    have hMore : c₁.isAt .assign = true ∨ c₁.isAt .comma = true := by
      rcases hNext with hNext | rfl
      · simp [Cursor.isAt, hNext]
      · simp [Cursor.isAt, hAssign]
    have hNone : (first :: others).find? (fun target => !target.isAssignable) = none :=
      find?_eq_none.2 (by simpa using hTargets)
    have hRun : exprStatement (inner m) c = .ok ((.assign · (first :: others) values), c') := by
      simp [exprStatement, hFirst, hMore, looping, hOthers, hNone, consume_run hAssign, exprList,
        hValues]
    rcases kind_prefix hStart hSpends with hKind | hKind <;>
      simp [statement, statementShape, hKind, hRun]
  case callStatement e hCall =>
    obtain ⟨hStart, _, ⟨hFirst, hSpends⟩, hNot, rfl⟩ := h
    have hLast : ¬ (c'.isAt .assign = true ∨ c'.isAt .comma = true) := by
      rw [Cursor.startWith_single] at hNot
      cases hKind : c'.kind? <;> simp_all [Cursor.isAt]
    have hRun : exprStatement (inner m) c = .ok ((.call · e), c') := by
      simp [exprStatement, hFirst, hLast, hCall]
    rcases kind_prefix hStart hSpends with hKind | hKind <;>
      simp [statement, statementShape, hKind, hRun]
  case label =>
    obtain ⟨hKind, ⟨-, hName⟩, hEnd, rfl⟩ := h
    simp [statement, statementShape, hKind, hName, consume_run hEnd]
  case breakLoop =>
    obtain ⟨hKind, rfl⟩ := h
    simp [statement, statementShape, hKind]
  case goto =>
    obtain ⟨hKind, ⟨hIdent, hName⟩, rfl⟩ := h
    simp [statement, statementShape, hKind, Cursor.kindAhead?_succ, Cursor.kindAhead?_zero, hIdent,
      hName]

end Levels

/-- **What is derived is what the parser reads.** -/
theorem passes_ready {symbols : List Symbol} (h : c.Derives symbols c') :
    Passes Ready symbols c c' := by
  refine h.passes fun {p inside c c'} hProduction hDerives hInside => ?_
  refine ⟨(hProduction.derives hDerives).spends, fun {m} hm => ?_⟩
  have hSteps := passes_step hInside hProduction.placed hm
  cases p with
  | expr | block =>
    -- here the parsers for what is nested take over, with one level less
    obtain ⟨m, rfl⟩ : ∃ n, m = n + 1 := ⟨m - 1, by simp only [Phrase.isNested, Bool.toNat_true] at hm; omega⟩
    have hLess := passes_step (b := false) (m := m) hInside (by cases hProduction; rfl)
      (Nat.le_of_succ_le_succ hm)
    first | exact runs_expr hLess hProduction | exact runs_block hLess hProduction
  | spine => exact runs_spine hSteps hProduction
  | simple => exact runs_simple hSteps hProduction
  | suffixed => exact runs_suffixed hSteps hProduction
  | chain => exact runs_chain hSteps hProduction
  | args => exact runs_args hSteps hProduction
  | exprs => exact runs_exprs hSteps hProduction
  | field => exact runs_field hSteps hProduction
  | fields => exact runs_fields hSteps hProduction
  | params => exact runs_params hSteps hProduction
  | signature => exact runs_signature hSteps hProduction
  | statements => exact runs_statements hSteps hProduction
  | statement => exact runs_statement hSteps hProduction
  | results => exact runs_results hSteps hProduction
  | elseParts => exact runs_elseParts hSteps hProduction
  | step => exact runs_step hSteps hProduction
  | names => exact runs_names hSteps hProduction
  | locals => exact runs_locals hSteps hProduction
  | qualifier => exact runs_qualifier hSteps hProduction
  | initializers => exact runs_initializers hSteps hProduction
  | method => exact runs_method hSteps hProduction
  | functionName => exact runs_functionName hSteps hProduction
  | targets => exact runs_targets hSteps hProduction

/-- A derived expression is read at every level that has room for the tokens that are left. -/
theorem operation_of_derives {power : Nat} {e : Expr}
    (h : c.Derives [.phrase (.expr power e)] c') (hm : c.rest.length ≤ m) :
    operation (inner m) power c = .ok (e, c') := by
  obtain ⟨_, hReady, rfl⟩ := passes_ready h
  exact hReady.runs (m := m + 1) (Nat.succ_le_succ hm)

theorem blockWith_of_derives {body : Block}
    (h : c.Derives [.phrase (.block body)] c') (hm : c.rest.length ≤ m) :
    blockWith (inner m) c = .ok (body, c') := by
  obtain ⟨_, hReady, rfl⟩ := passes_ready h
  exact hReady.runs (m := m + 1) (Nat.succ_le_succ hm)

end Parser

end LuaShape
