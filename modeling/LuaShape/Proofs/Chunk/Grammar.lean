import LuaShape.Chunk.Parser
import LuaShape.Proofs.Chunk.Layout

/-!
# The grammar of Lua

A `Phrase` is a piece of the grammar together with the tree it stands for, and a `Production`
says of which symbols it is put together: tokens, numbers of nodes, other phrases, and tokens
that must not come next.  Operators, members and calls group to the left, so an expression with
some of them behind it is a phrase of its own (`spine`, `chain`) that may go on.

`Cursor.Derives` follows productions through a token stream.  What holds of a phrase whenever
it holds of the phrases inside it holds of all that can be derived (`Cursor.Derives.passes`).
-/

namespace LuaShape

namespace Token

namespace Kind

/-- Kinds that continue a prefix: a member, an index, a method or arguments. -/
def startsSuffix : Kind → Bool
  | dot | leftBracket | colon | leftParen | string | longString | leftBrace => true
  | _ => false

/-- Kinds with which a prefix starts. -/
def startsPrefix : Kind → Bool
  | ident | leftParen => true
  | _ => false

/-- Kinds with which an expression without operators at its top starts. -/
def startsSimple : Kind → Bool
  | kwNil | kwTrue | kwFalse | ellipsis | number | string | longString | leftBrace | kwFunction
  | ident | leftParen => true
  | _ => false

/-- Kinds with which an expression starts. -/
def startsExpr (kind : Kind) : Bool := kind.startsSimple || (UnaryOp.ofToken? kind).isSome

/-- Kinds with which a statement starts, `return` apart. -/
def startsStatement : Kind → Bool
  | kwIf | kwWhile | kwDo | kwFor | kwRepeat | kwFunction | kwLocal | doubleColon | kwBreak
  | kwGoto | ident | leftParen => true
  | _ => false

/-- Kinds that end a block. -/
def endsBlock : Kind → Bool
  | kwEnd | kwElse | kwElseif | kwUntil => true
  | _ => false

/-- Kinds that end the values of a `return`. -/
def endsResults (kind : Kind) : Bool := kind.endsBlock || kind = semicolon

/-- Kinds with which no statement starts. -/
def endsStatements (kind : Kind) : Bool := kind.endsBlock || kind = kwReturn || kind = semicolon

/-- Operators that bind tighter than `power`. -/
def bindsAbove (power : Nat) (kind : Kind) : Bool :=
  (BinaryOp.ofToken? kind).any fun op => power < op.leftPower

end Kind

theorem kind_of_stringValue? {t : Token} {value : String} (h : t.stringValue? = some value) :
    t.kind = .string ∨ t.kind = .longString := by
  unfold stringValue? at h
  split at h
  next hKind => exact .inl hKind
  next hKind => exact .inr hKind
  next => cases h

/-- Whether tokens start with some that pass tests, one after the other. -/
def startWith : List (Kind → Bool) → List Token → Bool
  | [], _ => true
  | _ :: _, [] => false
  | test :: tests, t :: ts => test t.kind && startWith tests ts

end Token

/-! ## Productions -/

/-- A piece of the grammar and the tree it stands for. -/
inductive Phrase where
  /-- An expression whose top operators bind tighter than `power`. -/
  | expr (power : Nat) (e : Expr)
  /-- An operand with operators behind it, of which more may follow. -/
  | spine (power : Nat) (e : Expr)
  /-- An expression without operators at its top. -/
  | simple (e : Expr)
  /-- A prefix with everything that is applied to it. -/
  | suffixed (e : Expr)
  /-- A prefix to which more may be applied. -/
  | chain (e : Expr)
  | args (es : List Expr)
  | exprs (es : List Expr)
  | field (f : Field)
  /-- The entries of a table and its closing brace. -/
  | fields (fs : List Field)
  | params (names : List String) (isVararg : Bool)
  /-- Parameters in parentheses. -/
  | signature (names : List String) (isVararg : Bool)
  | block (body : Block)
  | statements (body : List Stmt)
  | statement (s : Stmt)
  /-- The values of a `return`. -/
  | results (es : List Expr)
  /-- What follows the first block of an `if` statement. -/
  | elseParts (clauses : List Clause) (otherwise : Option Block)
  | step (e : Option Expr)
  /-- Names behind a token each. -/
  | names (kind : Token.Kind) (names : List String)
  /-- The names of a `local` statement. -/
  | locals (names : List String)
  | qualifier
  | initializers (es : List Expr)
  | method (name : Option String)
  | functionName (name : FunctionName)
  /-- Targets of an assignment behind the first one. -/
  | targets (es : List Expr)

/-- What a phrase is put together of. -/
inductive Symbol where
  /-- A token. -/
  | slot (slot : Slot)
  /-- A node takes its number. -/
  | mint (id : Nat)
  /-- What comes next does not pass tests. -/
  | absent (tests : List (Token.Kind → Bool))
  | phrase (p : Phrase)

/-- A keyword or a symbol. -/
abbrev Symbol.token (kind : Token.Kind) : Symbol := .slot (.token kind)

/-- A name. -/
abbrev Symbol.name (text : String) : Symbol := .slot (.name text)

/-- A function behind its name; its number comes first. -/
def FunctionBody.symbols (body : FunctionBody) : List Symbol :=
  [.mint body.id, .phrase (.signature body.params body.isVararg), .phrase (.block body.body),
    .token .kwEnd]

/-- The ways in which a phrase is put together.  Its tokens reach from the place `start` of the
first through the place `last`. -/
inductive Production (start last : Span) : Phrase → List Symbol → Prop
  | nil {id : Nat} : Production start last (.simple (.nil ⟨id, start.merge last⟩))
      [.token .kwNil, .mint id]
  | boolean {id : Nat} {value : Bool} :
      Production start last (.simple (.boolean ⟨id, start.merge last⟩ value))
        [.token (if value then .kwTrue else .kwFalse), .mint id]
  | vararg {id : Nat} : Production start last (.simple (.vararg ⟨id, start.merge last⟩))
      [.token .ellipsis, .mint id]
  | number {id : Nat} {text : String} :
      Production start last (.simple (.number ⟨id, start.merge last⟩ text))
        [.slot (.number text), .mint id]
  | string {id : Nat} {value : String} :
      Production start last (.simple (.string ⟨id, start.merge last⟩ value))
        [.slot (.string value), .mint id]
  | table {id : Nat} {fields : List Field} :
      Production start last (.simple (.table ⟨id, start.merge last⟩ fields))
        [.token .leftBrace, .phrase (.fields fields), .mint id]
  | function {id : Nat} {body : FunctionBody} (h : body.span = start.merge last) :
      Production start last (.simple (.function ⟨id, start.merge last⟩ body))
        (.token .kwFunction :: (body.symbols ++ [.mint id]))
  | ofSuffixed {e : Expr} : Production start last (.simple e)
      [.absent [fun kind => !kind.startsPrefix], .phrase (.suffixed e)]
  | suffixed {e : Expr} : Production start last (.suffixed e)
      [.phrase (.chain e), .absent [Token.Kind.startsSuffix]]
  | name {id : Nat} {text : String} : Production start last (.chain (.name ⟨id, start⟩ text))
      [.name text, .mint id]
  | paren {id : Nat} {e : Expr} :
      Production start last (.chain (.paren ⟨id, start.merge last⟩ e))
        [.token .leftParen, .phrase (.expr 0 e), .token .rightParen, .mint id]
  | member {id : Nat} {object : Expr} {text : String} :
      Production start last (.chain (.member ⟨id, start.merge last⟩ object text))
        [.phrase (.chain object), .token .dot, .name text, .mint id]
  | index {id : Nat} {object key : Expr} :
      Production start last (.chain (.index ⟨id, start.merge last⟩ object key))
        [.phrase (.chain object), .token .leftBracket, .phrase (.expr 0 key),
          .token .rightBracket, .mint id]
  | call {id : Nat} {callee : Expr} {args : List Expr} :
      Production start last (.chain (.call ⟨id, start.merge last⟩ callee args))
        [.phrase (.chain callee), .phrase (.args args), .mint id]
  | methodCall {id : Nat} {object : Expr} {method : String} {args : List Expr} :
      Production start last (.chain (.methodCall ⟨id, start.merge last⟩ object method args))
        [.phrase (.chain object), .token .colon, .name method, .phrase (.args args), .mint id]
  | noArgs : Production start last (.args []) [.token .leftParen, .token .rightParen]
  | someArgs {es : List Expr} : Production start last (.args es)
      [.token .leftParen, .absent [(· = .rightParen)], .phrase (.exprs es), .token .rightParen]
  | bareString {id : Nat} {value : String} :
      Production start last (.args [.string ⟨id, start⟩ value]) [.slot (.string value), .mint id]
  | bareTable {id : Nat} {fields : List Field} :
      Production start last (.args [.table ⟨id, start.merge last⟩ fields])
        [.token .leftBrace, .phrase (.fields fields), .mint id]
  | lastExpr {e : Expr} : Production start last (.exprs [e])
      [.phrase (.expr 0 e), .absent [(· = .comma)]]
  | consExpr {e : Expr} {es : List Expr} (h : es ≠ []) : Production start last (.exprs (e :: es))
      [.phrase (.expr 0 e), .token .comma, .phrase (.exprs es)]
  | ofSimple {power : Nat} {e : Expr} : Production start last (.spine power e)
      [.absent [fun kind => (UnaryOp.ofToken? kind).isSome], .phrase (.simple e)]
  | unary {power id : Nat} {op : UnaryOp} {e : Expr} :
      Production start last (.spine power (.unary ⟨id, start.merge e.span⟩ op e))
        [.token op.token, .phrase (.expr UnaryOp.power e), .mint id]
  | binary {power id : Nat} {op : BinaryOp} {left right : Expr} (h : power < op.leftPower) :
      Production start last (.spine power (.binary ⟨id, left.span.merge right.span⟩ op left right))
        [.phrase (.spine power left), .token op.token, .phrase (.expr op.rightPower right),
          .mint id]
  | expr {power : Nat} {e : Expr} : Production start last (.expr power e)
      [.phrase (.spine power e), .absent [Token.Kind.bindsAbove power]]
  | named {text : String} {value : Expr} : Production start last (.field (.named text value))
      [.name text, .token .assign, .phrase (.expr 0 value)]
  | keyed {key value : Expr} : Production start last (.field (.keyed key value))
      [.token .leftBracket, .phrase (.expr 0 key), .token .rightBracket, .token .assign,
        .phrase (.expr 0 value)]
  | positional {value : Expr} : Production start last (.field (.positional value))
      [.absent [(· = .leftBracket)], .absent [(· = .ident), (· = .assign)], .phrase (.expr 0 value)]
  | noFields : Production start last (.fields []) [.token .rightBrace]
  | lastField {f : Field} : Production start last (.fields [f])
      [.absent [(· = .rightBrace)], .phrase (.field f), .token .rightBrace]
  | consField {f : Field} {fs : List Field} {kind : Token.Kind}
      (h : kind = .comma ∨ kind = .semicolon) : Production start last (.fields (f :: fs))
        [.absent [(· = .rightBrace)], .phrase (.field f), .token kind, .phrase (.fields fs)]
  | varargParam : Production start last (.params [] true) [.token .ellipsis]
  | lastParam {text : String} : Production start last (.params [text] false)
      [.name text, .absent [(· = .comma)]]
  | consParam {text : String} {names : List String} {isVararg : Bool}
      (h : names ≠ [] ∨ isVararg = true) : Production start last (.params (text :: names) isVararg)
        [.name text, .token .comma, .phrase (.params names isVararg)]
  | noParams : Production start last (.signature [] false) [.token .leftParen, .token .rightParen]
  | someParams {names : List String} {isVararg : Bool} :
      Production start last (.signature names isVararg)
        [.token .leftParen, .absent [(· = .rightParen)], .phrase (.params names isVararg),
          .token .rightParen]
  | block {body : List Stmt} : Production start last (.block (.mk body (start.merge last)))
      [.phrase (.statements body)]
  | noStatements : Production start last (.statements []) [.absent [fun kind => !kind.endsBlock]]
  | semicolon {body : List Stmt} : Production start last (.statements body)
      [.token .semicolon, .phrase (.statements body)]
  | consStatement {s : Stmt} {body : List Stmt} (h : s.isReturn = false) :
      Production start last (.statements (s :: body))
        [.absent [Token.Kind.endsStatements], .phrase (.statement s), .phrase (.statements body)]
  | returns {es : List Expr} :
      Production start last (.statements [.returnValues (start.merge last) es])
        [.token .kwReturn, .phrase (.results es), .absent [(· = .semicolon)]]
  | returnsClosed {es : List Expr} :
      Production start last (.statements [.returnValues (start.merge last) es])
        [.token .kwReturn, .phrase (.results es), .token .semicolon]
  | noResults : Production start last (.results []) [.absent [fun kind => !kind.endsResults]]
  | someResults {es : List Expr} : Production start last (.results es)
      [.absent [Token.Kind.endsResults], .phrase (.exprs es)]
  | ifElse {condition : Expr} {body : Block} {clauses : List Clause} {otherwise : Option Block} :
      Production start last
        (.statement (.ifElse (start.merge last) (.mk condition body :: clauses) otherwise))
        [.token .kwIf, .phrase (.expr 0 condition), .token .kwThen, .phrase (.block body),
          .phrase (.elseParts clauses otherwise)]
  | elseIf {condition : Expr} {body : Block} {clauses : List Clause} {otherwise : Option Block} :
      Production start last (.elseParts (.mk condition body :: clauses) otherwise)
        [.token .kwElseif, .phrase (.expr 0 condition), .token .kwThen, .phrase (.block body),
          .phrase (.elseParts clauses otherwise)]
  | otherwise {body : Block} : Production start last (.elseParts [] (some body))
      [.token .kwElse, .phrase (.block body), .token .kwEnd]
  | noElse : Production start last (.elseParts [] none) [.token .kwEnd]
  | whileLoop {condition : Expr} {body : Block} :
      Production start last (.statement (.whileLoop (start.merge last) condition body))
        [.token .kwWhile, .phrase (.expr 0 condition), .token .kwDo, .phrase (.block body),
          .token .kwEnd]
  | doBlock {body : Block} : Production start last (.statement (.doBlock (start.merge last) body))
      [.token .kwDo, .phrase (.block body), .token .kwEnd]
  | repeatLoop {body : Block} {condition : Expr} :
      Production start last (.statement (.repeatLoop (start.merge last) body condition))
        [.token .kwRepeat, .phrase (.block body), .token .kwUntil, .phrase (.expr 0 condition)]
  | numericFor {var : String} {first limit : Expr} {step : Option Expr} {body : Block} :
      Production start last
        (.statement (.numericFor (start.merge last) var first limit step body))
        [.token .kwFor, .name var, .token .assign, .phrase (.expr 0 first), .token .comma,
          .phrase (.expr 0 limit), .phrase (.step step), .token .kwDo, .phrase (.block body),
          .token .kwEnd]
  | noStep : Production start last (.step none) [.absent [(· = .comma)]]
  | someStep {e : Expr} : Production start last (.step (some e))
      [.token .comma, .phrase (.expr 0 e)]
  | genericFor {first : String} {others : List String} {iterators : List Expr} {body : Block} :
      Production start last
        (.statement (.genericFor (start.merge last) (first :: others) iterators body))
        [.token .kwFor, .name first, .absent [(· = .assign)], .phrase (.names .comma others),
          .token .kwIn, .phrase (.exprs iterators), .token .kwDo, .phrase (.block body),
          .token .kwEnd]
  | noNames {kind : Token.Kind} : Production start last (.names kind []) [.absent [(· = kind)]]
  | consName {kind : Token.Kind} {text : String} {names : List String} :
      Production start last (.names kind (text :: names))
        [.token kind, .name text, .phrase (.names kind names)]
  | functionStatement {name : FunctionName} {body : FunctionBody} (h : body.span = start.merge last) :
      Production start last (.statement (.function (start.merge last) name body))
        (.token .kwFunction :: .phrase (.functionName name) :: body.symbols)
  | functionName {root : String} {members : List String} {method : Option String} :
      Production start last (.functionName ⟨root, members, method, start.merge last⟩)
        [.name root, .phrase (.names .dot members), .phrase (.method method)]
  | noMethod : Production start last (.method none) [.absent [(· = .colon)]]
  | someMethod {text : String} : Production start last (.method (some text))
      [.token .colon, .name text]
  | localFunction {text : String} {body : FunctionBody} (h : body.span = start.merge last) :
      Production start last (.statement (.localFunction (start.merge last) text body))
        (.token .kwLocal :: .token .kwFunction :: .name text :: body.symbols)
  | localVars {names : List String} {values : List Expr} :
      Production start last (.statement (.localVars (start.merge last) names values))
        [.token .kwLocal, .absent [(· = .kwFunction)], .phrase (.locals names),
          .phrase (.initializers values)]
  | lastLocal {text : String} : Production start last (.locals [text])
      [.name text, .phrase .qualifier, .absent [(· = .comma)]]
  | consLocal {text : String} {names : List String} (h : names ≠ []) :
      Production start last (.locals (text :: names))
        [.name text, .phrase .qualifier, .token .comma, .phrase (.locals names)]
  | noAttribute : Production start last .qualifier
      [.absent [(· = .less), (· = .ident), (· = .greater)]]
  | someAttribute : Production start last .qualifier
      [.token .less, .token .ident, .token .greater]
  | noInitializers : Production start last (.initializers []) [.absent [(· = .assign)]]
  | someInitializers {es : List Expr} (h : es ≠ []) : Production start last (.initializers es)
      [.token .assign, .phrase (.exprs es)]
  | assign {first : Expr} {others values : List Expr}
      (h : ∀ target ∈ first :: others, target.isAssignable = true) :
      Production start last (.statement (.assign (start.merge last) (first :: others) values))
        [.absent [fun kind => !kind.startsPrefix], .phrase (.suffixed first),
          .phrase (.targets others), .token .assign, .phrase (.exprs values)]
  | noTargets : Production start last (.targets []) [.absent [(· = .comma)]]
  | consTarget {e : Expr} {es : List Expr} : Production start last (.targets (e :: es))
      [.token .comma, .phrase (.suffixed e), .phrase (.targets es)]
  | callStatement {e : Expr} (h : e.isCall = true) :
      Production start last (.statement (.call (start.merge last) e))
        [.absent [fun kind => !kind.startsPrefix], .phrase (.suffixed e),
          .absent [fun kind => kind = .assign || kind = .comma]]
  | label {text : String} : Production start last (.statement (.label (start.merge last) text))
      [.token .doubleColon, .name text, .token .doubleColon]
  | breakLoop : Production start last (.statement (.breakLoop (start.merge last)))
      [.token .kwBreak]
  | goto {text : String} : Production start last (.statement (.goto (start.merge last) text))
      [.token .kwGoto, .name text]

/-- Whether a phrase has at least one token. -/
def Phrase.isFilled : Phrase → Bool
  | .block _ | .statements _ | .results _ | .step _ | .names _ _ | .qualifier | .initializers _
  | .method _ | .targets _ => false
  | _ => true

/-- Whether a symbol has at least one token. -/
def Symbol.isFilled : Symbol → Bool
  | .slot _ => true
  | .phrase p => p.isFilled
  | .mint _ | .absent _ => false

theorem Production.any_isFilled {start last : Span} {p : Phrase} {inside : List Symbol}
    (h : Production start last p inside) (hFilled : p.isFilled = true) :
    inside.any Symbol.isFilled = true := by
  cases h <;> first | rfl | cases hFilled

/-- Kinds with which a phrase starts. -/
def Phrase.starts : Phrase → Token.Kind → Bool
  | .expr _ _ | .spine _ _ | .exprs _ => Token.Kind.startsExpr
  | .simple _ => Token.Kind.startsSimple
  | .suffixed _ | .chain _ => Token.Kind.startsPrefix
  | .args _ => Token.Kind.startsSuffix
  | .field _ => fun kind => kind.startsExpr || kind = .leftBracket
  | .params _ _ => fun kind => kind = .ident || kind = .ellipsis
  | .locals _ | .functionName _ => (· = .ident)
  | .statement _ => Token.Kind.startsStatement
  | .elseParts _ _ => Token.Kind.endsBlock
  | _ => fun _ => true

/-- Kinds with which some symbols start. -/
def Symbol.starts (kind : Token.Kind) : List Symbol → Bool
  | .slot (.token k) :: _ => kind = k
  | .slot (.name _) :: _ => kind = .ident
  | .slot (.number _) :: _ => kind = .number
  | .slot (.string _) :: _ => kind = .string || kind = .longString
  | .phrase p :: _ => p.starts kind
  | .mint _ :: symbols | .absent _ :: symbols => starts kind symbols
  | _ => true

theorem Production.starts {start last : Span} {p : Phrase} {inside : List Symbol}
    (h : Production start last p inside) {kind : Token.Kind}
    (hKind : Symbol.starts kind inside = true) : p.starts kind = true := by
  cases h
  case boolean value => cases value <;> exact of_decide_eq_true hKind ▸ rfl
  case unary op _ => cases op <;> exact of_decide_eq_true hKind ▸ rfl
  all_goals first
    | rfl
    | exact hKind
    | exact of_decide_eq_true hKind ▸ rfl
    | (cases kind <;> first | rfl | cases hKind)

/-! ## Derivations -/

namespace Cursor

/-- The place behind a node that has taken its number. -/
def minted (c : Cursor) : Cursor := { c with nextId := c.nextId + 1 }

/-- A token comes next that fills a slot. -/
def HasSlot (c : Cursor) (slot : Slot) : Prop := ∃ t rest, c.rest = t :: rest ∧ slot.Fits [t]

/-- From a place to another, symbols are read one after the other. -/
inductive Derives : Cursor → List Symbol → Cursor → Prop
  | nil (c : Cursor) : Derives c [] c
  | slot {c c' : Cursor} {slot : Slot} {symbols : List Symbol} (hSlot : c.HasSlot slot)
      (h : Derives c.advance symbols c') : Derives c (.slot slot :: symbols) c'
  | mint {c c' : Cursor} {symbols : List Symbol} (h : Derives c.minted symbols c') :
      Derives c (.mint c.nextId :: symbols) c'
  | absent {c c' : Cursor} {tests : List (Token.Kind → Bool)} {symbols : List Symbol}
      (hTests : Token.startWith tests c.rest = false) (h : Derives c symbols c') :
      Derives c (.absent tests :: symbols) c'
  | phrase {c c₁ c' : Cursor} {p : Phrase} {inside symbols : List Symbol}
      (hProduction : Production c.span c₁.previous p inside) (hInside : Derives c inside c₁)
      (h : Derives c₁ symbols c') : Derives c (.phrase p :: symbols) c'

/-- Symbols are read one after the other, with a relation in place of the derivations of
phrases. -/
def Passes (R : Phrase → Cursor → Cursor → Prop) : List Symbol → Cursor → Cursor → Prop
  | [], c, c' => c' = c
  | .slot slot :: symbols, c, c' => c.HasSlot slot ∧ Passes R symbols c.advance c'
  | .mint id :: symbols, c, c' => id = c.nextId ∧ Passes R symbols c.minted c'
  | .absent tests :: symbols, c, c' =>
    Token.startWith tests c.rest = false ∧ Passes R symbols c c'
  | .phrase p :: symbols, c, c' => ∃ c₁, R p c c₁ ∧ Passes R symbols c₁ c'

variable {c c' c'' : Cursor} {symbols symbols' : List Symbol}

/-- What holds of a phrase if it holds of those inside it holds of all that is derived. -/
theorem Derives.passes {R : Phrase → Cursor → Cursor → Prop}
    (hR : ∀ {p inside c c'}, Production c.span c'.previous p inside → c.Derives inside c' →
      Passes R inside c c' → R p c c') (h : c.Derives symbols c') : Passes R symbols c c' := by
  induction h with
  | nil => rfl
  | slot hSlot _ ih => exact ⟨hSlot, ih⟩
  | mint _ ih => exact ⟨rfl, ih⟩
  | absent hTests _ ih => exact ⟨hTests, ih⟩
  | phrase hProduction hInside _ ihInside ih => exact ⟨_, hR hProduction hInside ihInside, ih⟩

theorem Derives.append (h : c.Derives symbols c') (h' : c'.Derives symbols' c'') :
    c.Derives (symbols ++ symbols') c'' := by
  induction h with
  | nil => exact h'
  | slot hSlot _ ih => exact .slot hSlot (ih h')
  | mint _ ih => exact .mint (ih h')
  | absent hTests _ ih => exact .absent hTests (ih h')
  | phrase hProduction hInside _ _ ih => exact .phrase hProduction hInside (ih h')

end Cursor

theorem Production.derives {p : Phrase} {inside : List Symbol} {c c' : Cursor}
    (hProduction : Production c.span c'.previous p inside) (h : c.Derives inside c') :
    c.Derives [.phrase p] c' :=
  .phrase hProduction h (.nil c')

theorem Slot.Fits.starts {slot : Slot} {t : Token} (h : slot.Fits [t]) {symbols : List Symbol} :
    Symbol.starts t.kind (.slot slot :: symbols) = true := by
  cases slot with
  | token | name | number =>
    cases h
    simp_all [Symbol.starts]
  | string =>
    cases h with
    | string hValue => simpa [Symbol.starts] using Token.kind_of_stringValue? hValue
  | _ => rfl

theorem Cursor.Derives.starts {c c' : Cursor} {symbols : List Symbol} {kind : Token.Kind}
    (h : c.Derives symbols c') (hKind : c.kind? = some kind) : Symbol.starts kind symbols = true := by
  induction h with
  | nil => rfl
  | slot hSlot _ _ =>
    obtain ⟨t, rest, hRest, hFits⟩ := hSlot
    obtain rfl : t.kind = kind := by simpa [kind?, hRest] using hKind
    exact hFits.starts
  | mint _ ih | absent _ _ ih => exact ih hKind
  | phrase hProduction _ _ ihInside _ => exact hProduction.starts (ihInside hKind)

/-- No statement but the last one of a block is a `return`. -/
theorem Cursor.Derives.isReturn {c c' : Cursor} {s : Stmt}
    (h : c.Derives [.phrase (.statement s)] c') : s.isReturn = false := by
  cases h with
  | phrase hProduction _ _ => cases hProduction <;> rfl

end LuaShape
