import LuaShape.Proofs.Chunk.Deriving

/-!
# Parsing loses no token and invents none

What is derived has the tokens and the numbers of its symbols (`Cursor.Derives.fits`,
`Cursor.Derives.numbers`), and its parts stand where they may (`Cursor.Derives.sound`).  Each of
these is checked production by production.

For operators the place where an expression ends matters: an operator that comes next there is
one that the expression leaves to what is further out (`Leaves`).
-/

namespace LuaShape

open List

open Layout (commas)

/-! ## Tokens -/

namespace Phrase

/-- The tokens of a phrase. -/
def layout : Phrase → Layout
  | .expr _ e | .spine _ e | .simple e | .suffixed e | .chain e => e.layout
  | .args es => Layout.arguments es (commas (exprLayouts es))
  | .exprs es | .results es => commas (exprLayouts es)
  | .field f => f.layout
  | .fields fs => Layout.entries (fieldLayouts fs) ++ [.token .rightBrace]
  | .params texts isVararg => Layout.params texts isVararg
  | .signature texts isVararg =>
    .token .leftParen :: (Layout.params texts isVararg ++ [.token .rightParen])
  | .block body => body.layout
  | .statements body => .leading :: stmtsLayout body
  | .statement s => s.layout
  | .elseParts clauses otherwise =>
    (clauseLayouts clauses).flatMap (.token .kwElseif :: ·) ++
      (otherwiseLayout otherwise ++ [.token .kwEnd])
  | .step e => stepLayout e
  | .names kind texts => texts.flatMap fun text => [.token kind, .name text]
  | .locals texts => Layout.names texts [.localAttribute]
  | .qualifier => [.localAttribute]
  | .initializers es => Layout.initializers (exprLayouts es)
  | .method name => name.elim [] fun name => [.token .colon, .name name]
  | .functionName name => name.layout
  | .targets es => (exprLayouts es).flatMap (.token .comma :: ·)

/-- The parts that are complete with a phrase. -/
def nodes : Phrase → List Node
  | .expr _ e | .spine _ e | .simple e | .suffixed e | .chain e => e.parts
  | .args es | .exprs es | .results es | .initializers es | .targets es => exprParts es
  | .field f => f.parts
  | .fields fs => fieldParts fs
  | .block body => body.parts
  | .statements body => stmtParts body
  | .statement s => s.parts
  | .elseParts clauses otherwise => clauseParts clauses ++ otherwiseParts otherwise
  | .step e => stepParts e
  | _ => []

end Phrase

namespace Symbol

/-- The tokens of a symbol. -/
def layout : Symbol → Layout
  | .slot s => [s]
  | .phrase p => p.layout
  | .mint _ | .absent _ => []

/-- The numbers given out for a symbol. -/
def numbers : Symbol → List Nat
  | .mint id => [id]
  | .phrase p => Node.numbers p.nodes
  | .slot _ | .absent _ => []

end Symbol

theorem FunctionBody.layout_symbols (body : FunctionBody) :
    body.symbols.flatMap Symbol.layout = body.layout := by
  cases body
  simp [symbols, Symbol.layout, Phrase.layout, FunctionBody.layout, params, isVararg,
    FunctionBody.body]

theorem exprLayouts_ne_nil {es : List Expr} (h : es ≠ []) : exprLayouts es ≠ [] := by
  simpa [exprLayouts_eq_map] using h

namespace Layout

variable {layout : Layout} {ts : List Token}

/-- A slot that may stay empty. -/
theorem Fits.skip {slot : Slot} (hSlot : slot.Fits []) (h : Fits layout ts) :
    Fits (slot :: layout) ts := .cons hSlot h

/-- A token fills each slot that such a token may fill. -/
theorem Fits.to_slot {kind : Token.Kind} {slot : Slot} (h : Fits (.token kind :: layout) ts)
    (hSlot : ∀ t : Token, t.kind = kind → slot.Fits [t]) : Fits (slot :: layout) ts := by
  obtain ⟨t, rest, rfl, hKind, hRest⟩ := h.of_token
  exact .cons (hSlot t hKind) hRest

/-- Arguments in parentheses, where these may be needed or not. -/
theorem Fits.enclosed {args : List Expr}
    (h : Fits (.token .leftParen :: (layout ++ [.token .rightParen])) ts) :
    Fits (arguments args layout) ts := by
  unfold arguments
  split
  next =>
    obtain ⟨left, rest, rfl, hLeft, hRest⟩ := h.of_token
    obtain ⟨inside, last, rfl, hInside, hLast⟩ := hRest.of_append
    obtain ⟨right, nothing, rfl, hRight, hNil⟩ := hLast.of_token
    cases hNil
    exact .single (.enclosed hLeft hInside hRight)
  next => exact h

/-- An entry of a table in front of the others, with a separator behind it. -/
theorem Fits.entries_cons {first : Layout} {others : List Layout} {kind : Token.Kind}
    (hKind : kind = .comma ∨ kind = .semicolon)
    (h : Fits (first ++ .token kind :: (entries others ++ layout)) ts) :
    Fits (entries (first :: others) ++ layout) ts := by
  cases others with
  | nil =>
    -- the separator stands behind the last entry
    simpa [entries] using h.append_mono fun ts hRest =>
      hRest.to_slot fun t ht => .lastFieldSeparator (ht ▸ hKind)
  | cons second rest =>
    have hBetween := h.append_mono fun ts hRest =>
      hRest.to_slot fun t ht => .fieldSeparator (ht ▸ hKind)
    simpa [entries, joined_cons] using hBetween

end Layout

theorem Production.fits {start last : Span} {p : Phrase} {inside : List Symbol}
    (h : Production start last p inside) {ts : List Token}
    (hFits : Layout.Fits (inside.flatMap Symbol.layout) ts) : p.layout.Fits ts := by
  cases h
  case someArgs => exact .enclosed (by simpa [Symbol.layout, Phrase.layout] using hFits)
  case bareString | bareTable =>
    refine .single (.bare ?_)
    simpa [Symbol.layout, Phrase.layout, exprLayouts, Expr.layout] using hFits
  case consExpr hSome =>
    simpa [Symbol.layout, Phrase.layout, exprLayouts, Layout.commas_cons (exprLayouts_ne_nil hSome)]
      using hFits
  case lastField f =>
    replace hFits : Layout.Fits (f.layout ++ [.token .rightBrace]) ts := by
      simpa [Symbol.layout, Phrase.layout] using hFits
    simpa [Phrase.layout, fieldLayouts, Layout.entries] using
      hFits.append_mono fun ts => .skip .noLastFieldSeparator
  case consField hKind =>
    exact .entries_cons hKind (by simpa [Symbol.layout, Phrase.layout] using hFits)
  case consParam hSome =>
    simpa [Symbol.layout, Phrase.layout, Layout.params_cons hSome] using hFits
  case noStatements =>
    exact .skip (.leading (by simp)) (by simpa [Symbol.layout, stmtsLayout] using hFits)
  case semicolon =>
    exact Layout.Fits.leading_of_semicolon (by simpa [Symbol.layout, Phrase.layout] using hFits)
  case consStatement s body hReturn =>
    -- what leads the other statements stands behind this one
    replace hFits : Layout.Fits (s.layout ++ .leading :: stmtsLayout body) ts := by
      simpa [Symbol.layout, Phrase.layout] using hFits
    refine .skip (.leading (by simp)) ?_
    simpa [stmtsLayout, Stmt.ending, hReturn] using
      hFits.append_mono fun ts => .separators_of_leading
  case returns es =>
    replace hFits : Layout.Fits ((.token .kwReturn :: commas (exprLayouts es)) ++ []) ts := by
      simpa [Symbol.layout, Phrase.layout] using hFits
    refine .skip (.leading (by simp)) ?_
    simpa [stmtsLayout, Stmt.layout, Stmt.ending, Stmt.isReturn] using
      hFits.append_mono fun ts => .skip .noLastSeparator
  case returnsClosed es =>
    replace hFits :
        Layout.Fits ((.token .kwReturn :: commas (exprLayouts es)) ++ [.token .semicolon]) ts := by
      simpa [Symbol.layout, Phrase.layout] using hFits
    refine .skip (.leading (by simp)) ?_
    simpa [stmtsLayout, Stmt.layout, Stmt.ending, Stmt.isReturn] using
      hFits.append_mono fun ts hLast => hLast.to_slot fun t => .lastSeparator
  case consLocal hSome =>
    simpa [Symbol.layout, Phrase.layout, Layout.names, Layout.commas_cons, hSome] using hFits
  case noAttribute =>
    exact .skip .noLocalAttribute (by simpa [Symbol.layout] using hFits)
  case someAttribute =>
    obtain ⟨less, rest, rfl, hLess, hRest⟩ := hFits.of_token
    obtain ⟨name, rest, rfl, hName, hRest⟩ := hRest.of_token
    obtain ⟨greater, rest, rfl, hGreater, hNil⟩ := hRest.of_token
    cases hNil
    exact .single (.localAttribute hLess hName hGreater)
  case someInitializers hSome =>
    simpa [Symbol.layout, Phrase.layout, Layout.initializers, exprLayouts_ne_nil hSome] using hFits
  all_goals
    simpa [Symbol.layout, Phrase.layout, Expr.layout, Field.layout, Block.layout, Stmt.layout,
      exprLayouts, fieldLayouts, stmtsLayout, FunctionBody.layout_symbols, clauseLayouts,
      Clause.layout, otherwiseLayout, stepLayout, FunctionName.layout, Layout.commas,
      Layout.joined, Layout.entries, Layout.params, Layout.names, Layout.arguments,
      Layout.initializers, Expr.standAlone, flatMap_map] using hFits

/-- What is derived has been read: its tokens fill its layout. -/
theorem Cursor.Derives.fits {c c' : Cursor} {symbols : List Symbol} (h : c.Derives symbols c') :
    ∃ ts, c.rest = ts ++ c'.rest ∧ Layout.Fits (symbols.flatMap Symbol.layout) ts := by
  induction h with
  | nil c => exact ⟨[], rfl, .nil⟩
  | slot hSlot _ ih =>
    obtain ⟨t, rest, hRest, hFits⟩ := hSlot
    obtain ⟨ts, hBehind, hts⟩ := ih
    simp only [advance_of_rest hRest] at hBehind
    exact ⟨t :: ts, by rw [hRest, hBehind, cons_append], .cons hFits hts⟩
  | mint _ ih => exact ih
  | absent _ _ ih => exact ih
  | phrase hProduction _ _ ihInside ih =>
    obtain ⟨ts, hRest, hts⟩ := ihInside
    obtain ⟨ts', hRest', hts'⟩ := ih
    exact ⟨ts ++ ts', by rw [hRest, hRest', append_assoc], (hProduction.fits hts).append hts'⟩

/-! ## Numbers -/

theorem FunctionBody.numbers_symbols (body : FunctionBody) :
    body.symbols.flatMap Symbol.numbers = Node.numbers body.parts := by
  cases body
  simp [symbols, Symbol.numbers, Phrase.nodes, FunctionBody.parts, FunctionBody.id,
    FunctionBody.body, Node.numbers, Node.number?]

theorem Production.numbers {start last : Span} {p : Phrase} {inside : List Symbol}
    (h : Production start last p inside) :
    Node.numbers p.nodes = inside.flatMap Symbol.numbers := by
  cases h
  all_goals
    simp [Phrase.nodes, Symbol.numbers, Expr.numbers_parts, Expr.inside, Expr.mark, Field.parts,
      Block.parts, Stmt.parts, Clause.parts, exprParts, fieldParts, stmtParts, clauseParts,
      otherwiseParts, stepParts, FunctionBody.numbers_symbols]

/-- Numbers are given out one after the other. -/
theorem Cursor.Derives.numbers {c c' : Cursor} {symbols : List Symbol} (h : c.Derives symbols c') :
    symbols.flatMap Symbol.numbers =
        List.range' c.nextId (symbols.flatMap Symbol.numbers).length ∧
      c'.nextId = c.nextId + (symbols.flatMap Symbol.numbers).length := by
  induction h with
  | nil c => exact ⟨rfl, rfl⟩
  | @slot c _ _ _ _ _ ih =>
    have hSame : c.advance.nextId = c.nextId := by
      unfold advance
      split <;> rfl
    rwa [hSame] at ih
  | @mint c _ symbols _ ih =>
    obtain ⟨hNumbers, hNext⟩ := ih
    simp only [flatMap_cons, Symbol.numbers, singleton_append, length_cons]
    refine ⟨?_, by rw [hNext]; simp only [minted]; omega⟩
    rw [range'_succ, ← show c.minted.nextId = c.nextId + 1 from rfl, ← hNumbers]
  | absent _ _ ih => exact ih
  | phrase hProduction _ _ ihInside ih =>
    obtain ⟨hNumbers, hNext⟩ := ihInside
    obtain ⟨hNumbers', hNext'⟩ := ih
    rw [← hProduction.numbers] at hNumbers hNext
    rw [hNext] at hNumbers' hNext'
    simp only [flatMap_cons, Symbol.numbers, length_append]
    refine ⟨?_, by rw [hNext', Nat.add_assoc]⟩
    rw [← range'_append_1, ← hNumbers, ← hNumbers']

/-! ## Parts -/

theorem FunctionBody.parts_eq (body : FunctionBody) :
    body.parts = .function body :: body.body.parts := by
  cases body
  rfl

namespace Expr

/-- Whether no operator stands at the top. -/
def isSimple : Expr → Bool
  | .binary .. | .unary .. => false
  | _ => true

theorem isSimple_of_isPrefix {e : Expr} (h : e.isPrefix = true) : e.isSimple = true := by
  cases e with
  | binary | unary => cases h
  | _ => rfl

theorem bindsAbove_of_isSimple {e : Expr} (h : e.isSimple = true) (power : Nat) :
    e.bindsAbove power = true := by
  cases e with
  | binary | unary => cases h
  | _ => rfl

theorem yieldsTo_of_isSimple {e : Expr} (h : e.isSimple = true) (power : Nat) :
    e.yieldsTo power = true := by
  cases e with
  | binary | unary => cases h
  | _ => rfl

end Expr

/-- The binary operator that comes next. -/
def Cursor.operator? (c : Cursor) : Option BinaryOp := c.kind?.bind BinaryOp.ofToken?

namespace Parser

/-- An expression leaves the operator that comes next to what is further out. -/
def Leaves (e : Expr) (c : Cursor) : Prop := ∀ op ∈ c.operator?, e.yieldsTo op.leftPower = true

/-- What is known at its end of an expression whose operators bind tighter than `power`. -/
structure Nested (power : Nat) (e : Expr) (c : Cursor) : Prop where
  above : e.bindsAbove power = true
  leaves : Leaves e c
  stops : ∀ op ∈ c.operator?, op.leftPower ≤ power

end Parser

open LuaShape.Parser (Leaves Nested)

/-- What is known of a phrase whatever stands around it. -/
def Phrase.stands : Phrase → Bool
  | .simple e => e.isSimple
  | .suffixed e | .chain e => e.isPrefix
  | .exprs es => !es.isEmpty
  | .locals texts => !texts.isEmpty
  | .statements body => body.dropLast.all fun s => !s.isReturn
  | _ => true

/-- What is known of an expression where it ends. -/
def Phrase.Nests (c : Cursor) : Phrase → Prop
  | .expr power e => Nested power e c
  | .spine power e =>
    e.bindsAbove power = true ∧ Leaves e c ∧ (Node.expr e).operatorsNest = true
  | .simple e | .suffixed e | .chain e => e.isSimple = true
  | _ => True

namespace Symbol

def stands : Symbol → Bool
  | .phrase p => p.stands
  | _ => true

def nodes : Symbol → List Node
  | .phrase p => p.nodes
  | _ => []

end Symbol

theorem Production.stands {start last : Span} {p : Phrase} {inside : List Symbol}
    (h : Production start last p inside) (hInside : inside.all Symbol.stands = true) :
    p.stands = true := by
  cases h
  case ofSuffixed =>
    exact Expr.isSimple_of_isPrefix (by simpa [Symbol.stands, Phrase.stands] using hInside)
  case consStatement s body hReturn =>
    cases body with
    | nil => rfl
    | cons s' body => simpa [Symbol.stands, Phrase.stands, hReturn] using hInside
  all_goals first | rfl | simpa [Symbol.stands, Phrase.stands] using hInside

namespace Cursor

variable {c c' : Cursor} {symbols : List Symbol}

theorem Derives.stands (h : c.Derives symbols c') : symbols.all Symbol.stands = true := by
  induction h with
  | nil => rfl
  | slot _ _ ih | mint _ ih | absent _ _ ih => exact ih
  | phrase hProduction _ _ ihInside ih =>
    exact Bool.and_eq_true_iff.2 ⟨hProduction.stands ihInside, ih⟩

theorem stops_of_absent {power : Nat}
    (h : Token.startWith [Token.Kind.bindsAbove power] c.rest = false) :
    ∀ op ∈ c.operator?, op.leftPower ≤ power := by
  rw [startWith_single] at h
  intro op hOp
  obtain ⟨kind, hKind, hToken⟩ := Option.bind_eq_some_iff.1 hOp
  simpa [hKind, Token.Kind.bindsAbove, hToken] using h

theorem operator?_of_hasSlot {op : BinaryOp} (h : c.HasSlot (.token op.token)) :
    op ∈ c.operator? := by
  obtain ⟨t, rest, hRest, hFits⟩ := h
  obtain ⟨_, _, hSame, hKind, -⟩ := (Layout.Fits.single hFits).of_token
  obtain ⟨rfl, -⟩ := List.cons.inj hSame
  simpa [operator?, kind?, hRest, hKind] using BinaryOp.ofToken?_eq_some_iff.2 rfl

/-- Operators nest as their powers say. -/
theorem Derives.nests (h : c.Derives symbols c') :
    Passes (fun p _ c' => p.Nests c') symbols c c' := by
  refine h.passes fun {p inside c c'} hProduction hDerives hInside => ?_
  cases hProduction
  case ofSuffixed | suffixed =>
    exact Expr.isSimple_of_isPrefix (by simpa [Symbol.stands, Phrase.stands] using hDerives.stands)
  case ofSimple e =>
    obtain ⟨-, c₁, hSimple, rfl⟩ := hInside
    refine ⟨Expr.bindsAbove_of_isSimple hSimple _, fun op _ => Expr.yieldsTo_of_isSimple hSimple _, ?_⟩
    cases e with
    | binary | unary => cases hSimple
    | _ => rfl
  case unary =>
    obtain ⟨-, c₁, hNested, -, rfl⟩ := hInside
    refine ⟨rfl, fun op hOp => ?_, hNested.above⟩
    simp [Expr.yieldsTo, hNested.stops op hOp, hNested.leaves op hOp]
  case binary hLt =>
    obtain ⟨c₁, hLeft, hToken, c₂, hNested, -, rfl⟩ := hInside
    refine ⟨by simpa [Expr.bindsAbove] using hLt, fun op hOp => ?_, ?_⟩
    · simp [Expr.yieldsTo, hNested.stops op hOp, hNested.leaves op hOp]
    · exact Bool.and_eq_true_iff.2 ⟨hLeft.2.1 _ (operator?_of_hasSlot hToken), hNested.above⟩
  case expr =>
    obtain ⟨c₁, hSpine, hAbsent, rfl⟩ := hInside
    exact ⟨hSpine.1, hSpine.2.1, stops_of_absent hAbsent⟩
  all_goals first | rfl | trivial

end Cursor

/-- The parts that an expression is: itself, and the function if it is one. -/
def Expr.tops : Expr → List Node
  | .function m body => [.function body, .expr (.function m body)]
  | e => [.expr e]

/-- The parts that a statement is. -/
def Stmt.tops : Stmt → List Node
  | .function s name body => [.function body, .statement (.function s name body)]
  | .localFunction s name body => [.function body, .statement (.localFunction s name body)]
  | s => [.statement s]

/-- Parts of a phrase that need not be inside a phrase inside it. -/
def Phrase.tops : Phrase → List Node
  | .spine _ e | .simple e | .chain e => e.tops
  | .args [.string m value] => [.expr (.string m value)]
  | .args [.table m entries] => [.expr (.table m entries)]
  | .field f => [.field f]
  | .block body => [.block body]
  | .statement s => s.tops
  | .statements [.returnValues s values] => [.statement (.returnValues s values)]
  | _ => []

namespace Production

variable {start last : Span} {p : Phrase} {inside : List Symbol}

/-- A part of a phrase is a part of a phrase inside it, or one that the phrase itself is. -/
theorem mem_nodes (h : Production start last p inside) {n : Node} (hn : n ∈ p.nodes) :
    n ∈ inside.flatMap Symbol.nodes ∨ n ∈ p.tops := by
  rw [← mem_append]
  revert n
  show p.nodes ⊆ _
  cases h <;> simp [Symbol.nodes, Phrase.nodes, Phrase.tops, Expr.tops, Stmt.tops, Expr.parts,
    exprParts, Field.parts, fieldParts, FunctionBody.symbols, FunctionBody.parts_eq, Block.parts,
    stmtParts, Stmt.parts, Clause.parts, clauseParts, otherwiseParts, stepParts]

theorem shaped (h : Production start last p inside)
    (hInside : Node.Shaped (inside.flatMap Symbol.nodes))
    (hStands : inside.all Symbol.stands = true)
    (hNest : ∀ power e, p = .spine power e → (Node.expr e).operatorsNest = true) :
    Node.Shaped p.nodes := by
  intro n hn
  obtain hIn | hTop := h.mem_nodes hn
  · exact hInside n hIn
  rw [Node.isShaped_iff]
  cases h
  -- the phrase is the tree of a phrase inside it, or a list of such trees
  case ofSuffixed | ofSimple | someArgs | semicolon | consStatement =>
    refine Node.isShaped_iff.1 (hInside n ?_)
    simpa [Symbol.nodes, Phrase.nodes, stmtParts] using hn
  case member | index | call | methodCall =>
    obtain rfl := mem_singleton.1 hTop
    exact ⟨rfl, (Bool.and_eq_true_iff.1 hStands).1, rfl, rfl⟩
  case unary | binary =>
    obtain rfl := mem_singleton.1 hTop
    exact ⟨rfl, rfl, hNest _ _ rfl, rfl⟩
  case function | functionStatement | localFunction =>
    obtain rfl | rfl : n = _ ∨ n = _ := by simpa [Phrase.tops, Expr.tops, Stmt.tops] using hTop
    all_goals exact ⟨rfl, rfl, rfl, rfl⟩
  case block body =>
    obtain rfl := mem_singleton.1 hTop
    refine ⟨?_, rfl, rfl, rfl⟩
    simpa [Node.isRegular, Node.returnsLast, Node.assignsPlaces, Node.callsAlone, Block.statements,
      Symbol.stands, Phrase.stands] using hStands
  case genericFor | localVars =>
    obtain rfl := mem_singleton.1 hTop
    refine ⟨rfl, rfl, rfl, ?_⟩
    simpa [Node.listsFilled, Symbol.stands, Phrase.stands] using hStands
  case assign hTargets =>
    obtain rfl := mem_singleton.1 hTop
    refine ⟨?_, rfl, rfl, ?_⟩
    · simpa [Node.isRegular, Node.returnsLast, Node.assignsPlaces, Node.callsAlone] using hTargets
    · simp only [all_cons, Bool.and_eq_true] at hStands
      exact hStands.2.2.2.2.1
  case callStatement hCall =>
    obtain rfl := mem_singleton.1 hTop
    exact ⟨by simpa [Node.isRegular, Node.returnsLast, Node.assignsPlaces, Node.callsAlone] using hCall,
      rfl, rfl, rfl⟩
  all_goals first
    | cases hTop
      done
    | obtain rfl := mem_singleton.1 hTop
      exact ⟨rfl, rfl, rfl, rfl⟩

end Production

namespace Cursor

variable {c c' : Cursor} {symbols : List Symbol}

/-- The parts of what is derived stand where they may. -/
theorem Derives.shaped (h : c.Derives symbols c') : Node.Shaped (symbols.flatMap Symbol.nodes) := by
  induction h with
  | nil => simp
  | slot _ _ ih | mint _ ih | absent _ _ ih => exact ih
  | @phrase c c₁ _ p inside _ hProduction hInside _ ihInside ih =>
    refine Node.shaped_append.2 ⟨hProduction.shaped ihInside hInside.stands ?_, ih⟩
    rintro power e rfl
    obtain ⟨c₂, hNests, -⟩ := (hProduction.derives hInside).nests
    exact hNests.2.2

end Cursor

namespace Chunk

variable {source : String} {chunk : Chunk}

/-- A text that is accepted is derived from its start to its end. -/
theorem derives_of_parse (h : parse source = .ok chunk) :
    ∃ c', (Cursor.ofSource source).Derives [.phrase (.block chunk.block)] c' ∧ c'.rest = [] ∧
      chunk.nodeCount = c'.nextId ∧ chunk.span = (Cursor.ofSource source).span.merge c'.span := by
  unfold parse at h
  cases hRun : Parser.chunk.run (Cursor.ofSource source) with
  | error e =>
    rw [hRun] at h
    cases h
  | ok r =>
    rw [hRun] at h
    cases h
    exact ⟨r.2, (Parser.ends_chunk _).of_ok hRun⟩

theorem fits_of_parse (h : parse source = .ok chunk) : chunk.layout.Fits (Token.stream source) := by
  obtain ⟨c', hDerives, hEnd, -⟩ := derives_of_parse h
  obtain ⟨ts, hRest, hFits⟩ := hDerives.fits
  rw [hEnd, append_nil] at hRest
  rw [← hRest, flatMap_cons, flatMap_nil, append_nil] at hFits
  exact hFits

theorem isRegular_of_parse (h : parse source = .ok chunk) : ∀ n ∈ chunk.parts, n.isRegular = true := by
  obtain ⟨c', hDerives, -⟩ := derives_of_parse h
  exact fun n hn => (Node.isShaped_iff.1 (hDerives.shaped n (mem_append_left _ hn))).1

/-- The numbers of the parts are the first ones, each once and in order. -/
theorem numbers_of_parse (h : parse source = .ok chunk) :
    Node.numbers chunk.parts = List.range chunk.nodeCount := by
  obtain ⟨c', hDerives, -, hCount, -⟩ := derives_of_parse h
  obtain ⟨hNumbers, hNext⟩ := hDerives.numbers
  simp only [flatMap_cons, flatMap_nil, append_nil, Symbol.numbers, Phrase.nodes]
    at hNumbers hNext
  have hLength : chunk.nodeCount = (Node.numbers chunk.parts).length := by
    rw [hCount, hNext]
    exact Nat.zero_add _
  rw [hLength, range_eq_range']
  exact hNumbers

/-- **Parsing neither invents nor drops a token**: the tokens of an accepted text fill the
layout of the chunk that is returned, from the first to the last, and in no block does a
statement follow a `return`. -/
theorem parse_neither_invents_nor_drops (h : parse source = .ok chunk) :
    chunk.layout.Fits (Token.stream source) ∧ ∀ n ∈ chunk.parts, n.returnsLast = true := by
  refine ⟨fits_of_parse h, fun n hn => ?_⟩
  have hRegular := isRegular_of_parse h n hn
  simp only [Node.isRegular, Bool.and_eq_true] at hRegular
  exact hRegular.1.1

/-- A text with each choice that a layout leaves. -/
def textOfChoices : String :=
  ";local x<const> = \x7b1; 'a',\x7d;; f[[b]] g(\x7b\x7d) return x;"

set_option maxRecDepth 100000 in
theorem parse_neither_invents_nor_drops_choices :
    ∃ chunk, parse textOfChoices = .ok chunk ∧
      chunk.layout.Fits (Token.stream textOfChoices) ∧ ∀ n ∈ chunk.parts, n.returnsLast = true := by
  have hOk : (parse textOfChoices).isOk = true := by decide +kernel
  cases hParse : parse textOfChoices with
  | error e =>
      rw [hParse] at hOk
      cases hOk
  | ok chunk => exact ⟨chunk, rfl, parse_neither_invents_nor_drops hParse⟩

end Chunk

end LuaShape
