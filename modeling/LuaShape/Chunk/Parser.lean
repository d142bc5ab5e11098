import LuaShape.Chunk.Cursor
import LuaShape.Chunk.Escape

/-!
# The grammar of Lua as parsers

Expressions and blocks contain each other.  Every parser below reads one level
of the grammar and leaves what is nested to an `Inner`: the parsers for a nested
expression and a nested block.  `inner` ties the knot, one level at a time, and
each level is entered behind at least one token, so a bound of as many levels as
there are tokens is never reached.

Nodes are numbered when they are complete, children first; function bodies take
their number before their parameters are read.
-/

namespace LuaShape

namespace Parser

/-- The parsers for what is nested inside the present level. -/
structure Inner where
  /-- An expression whose operators all bind tighter than the given power. -/
  expr : Nat → Parser Expr
  block : Parser Block

/-! ## Expressions -/

/-- One or more expressions with commas between them. -/
def exprList (inner : Inner) : Parser (List Expr) := looping (commaList (inner.expr 0))

/-- The value of the string token that comes next. -/
def stringValue : Parser String := fun c =>
  match c.rest with
  | t :: _ =>
    let value := match t.kind with
      | .longString => some (Escape.longValue t.text)
      | _ => Escape.shortValue? t.text
    match value with
    | some text => .ok (text, c.advance)
    | none => .error (.invalidString t.span)
  | [] => .error (.unexpected (.token .string) none c.span)

/-- Parameters up to the closing parenthesis, and whether `...` ends them. -/
def params : Nat → Parser (List String × Bool)
  | 0 => tooDeep
  | rounds + 1 => do
      if ← eat .ellipsis then
        return ([], true)
      else
        let first ← identifier
        if ← eat .comma then
          let (others, isVararg) ← params rounds
          return (first :: others, isVararg)
        else
          return ([first], false)

/-- A function from its parameter list to its `end`; `start` is where its first
keyword stands. -/
def functionBody (inner : Inner) (start : Span) : Parser FunctionBody := do
  let id ← mint
  consume .leftParen
  let (names, isVararg) ←
    if (← get).isAt .rightParen then pure ([], false) else looping params
  consume .rightParen
  let body ← inner.block
  consume .kwEnd
  return .mk id names isVararg body (← spanFrom start)

/-- An entry of a table constructor. -/
def field (inner : Inner) : Parser Field := do
  let c ← get
  if c.isAt .leftBracket then
    skip
    let key ← inner.expr 0
    consume .rightBracket
    consume .assign
    return .keyed key (← inner.expr 0)
  else if c.isAt .ident && c.kindAhead? 1 = some .assign then
    let name ← identifier
    skip
    return .named name (← inner.expr 0)
  else
    return .positional (← inner.expr 0)

/-- The entries of a table constructor up to its closing brace. -/
def fields (inner : Inner) : Nat → Parser (List Field)
  | 0 => tooDeep
  | rounds + 1 => do
      if (← get).isAt .rightBrace then
        return []
      else
        let first ← field inner
        if ← eat .comma then
          return first :: (← fields inner rounds)
        else if ← eat .semicolon then
          return first :: (← fields inner rounds)
        else
          return [first]

/-- A table constructor, braces included. -/
def tableFields (inner : Inner) : Parser (List Field) := do
  consume .leftBrace
  let entries ← looping (fields inner)
  consume .rightBrace
  return entries

/-- The arguments of a call: a parenthesized list, one string or one table. -/
def callArgs (inner : Inner) : Parser (List Expr) := do
  let c ← get
  let start := c.span
  match c.kind? with
  | some .leftParen =>
    skip
    let args ← if (← get).isAt .rightParen then pure [] else exprList inner
    consume .rightParen
    return args
  | some .string | some .longString =>
    let value ← stringValue
    return [← node start (.string · value)]
  | some .leftBrace =>
    let entries ← tableFields inner
    return [← node (← spanFrom start) (.table · entries)]
  | other => throw (.unexpected .functionArguments other start)

/-- A name or a parenthesized expression. -/
def primaryExpr (inner : Inner) : Parser Expr := do
  let c ← get
  let start := c.span
  match c.kind? with
  | some .ident =>
    let name ← identifier
    node start (.name · name)
  | some .leftParen =>
    skip
    let e ← inner.expr 0
    consume .rightParen
    node (← spanFrom start) (.paren · e)
  | some _ => throw (.invalidExpression start)
  | none => throw (.unexpectedEnd start)

/-- The members, indices and calls behind an expression. -/
def suffixes (inner : Inner) (start : Span) : Nat → Expr → Parser Expr
  | 0, _ => tooDeep
  | rounds + 1, e => do
      match (← get).kind? with
      | some .dot =>
        skip
        let name ← identifier
        suffixes inner start rounds (← node (← spanFrom start) (.member · e name))
      | some .leftBracket =>
        skip
        let key ← inner.expr 0
        consume .rightBracket
        suffixes inner start rounds (← node (← spanFrom start) (.index · e key))
      | some .colon =>
        skip
        let method ← identifier
        let args ← callArgs inner
        suffixes inner start rounds
          (← node (← spanFrom start) (.methodCall · e method args))
      | some .leftParen | some .string | some .longString | some .leftBrace =>
        let args ← callArgs inner
        suffixes inner start rounds (← node (← spanFrom start) (.call · e args))
      | _ => return e

/-- A primary expression with everything that is applied to it. -/
def suffixedExpr (inner : Inner) : Parser Expr := do
  let start := (← get).span
  let e ← primaryExpr inner
  looping fun rounds => suffixes inner start rounds e

/-- An expression without operators at its top. -/
def simpleExpr (inner : Inner) : Parser Expr := do
  let c ← get
  let start := c.span
  match c.kind? with
  | some .kwNil =>
    skip
    node (← spanFrom start) .nil
  | some .kwTrue =>
    skip
    node (← spanFrom start) (.boolean · true)
  | some .kwFalse =>
    skip
    node (← spanFrom start) (.boolean · false)
  | some .ellipsis =>
    skip
    node (← spanFrom start) .vararg
  | some .number =>
    let text := (c.rest.head?.map Token.text).getD ""
    skip
    node (← spanFrom start) (.number · text)
  | some .string | some .longString =>
    let value ← stringValue
    node (← spanFrom start) (.string · value)
  | some .leftBrace =>
    let entries ← tableFields inner
    node (← spanFrom start) (.table · entries)
  | some .kwFunction =>
    skip
    let body ← functionBody inner start
    node (← spanFrom start) (.function · body)
  | _ => suffixedExpr inner

/-- The binary operators behind an expression that bind tighter than `power`,
each with its right operand. -/
def operators (inner : Inner) (power : Nat) : Nat → Expr → Parser Expr
  | 0, _ => tooDeep
  | rounds + 1, left => do
      match (← get).kind?.bind BinaryOp.ofToken? with
      | some op =>
        if op.leftPower ≤ power then
          return left
        else
          skip
          let right ← inner.expr op.rightPower
          operators inner power rounds
            (← node (left.span.merge right.span) (.binary · op left right))
      | none => return left

/-- An operand: a simple expression, or a unary operator and its operand. -/
def operand (inner : Inner) : Parser Expr := do
  let c ← get
  let start := c.span
  match c.kind?.bind UnaryOp.ofToken? with
  | some op =>
    skip
    let e ← inner.expr UnaryOp.power
    node (start.merge e.span) (.unary · op e)
  | none => simpleExpr inner

/-- An expression whose top operators all bind tighter than `power`. -/
def operation (inner : Inner) (power : Nat) : Parser Expr := do
  let left ← operand inner
  looping fun rounds => operators inner power rounds left

/-! ## Statements -/

/-- The `elseif` and `else` parts of an `if` statement, and its `end`. -/
def elseParts (inner : Inner) : Nat → Parser (List Clause × Option Block)
  | 0 => tooDeep
  | rounds + 1 => do
      match (← get).kind? with
      | some .kwElseif =>
        skip
        let condition ← inner.expr 0
        consume .kwThen
        let body ← inner.block
        let (clauses, otherwise) ← elseParts inner rounds
        return (.mk condition body :: clauses, otherwise)
      | some .kwElse =>
        skip
        let body ← inner.block
        consume .kwEnd
        return ([], some body)
      | _ =>
        consume .kwEnd
        return ([], none)

/-- A loop over numbers or over an iterator, from behind its `for`. -/
def forLoop (inner : Inner) : Parser (Span → Stmt) := do
  let first ← identifier
  if ← eat .assign then
    let start ← inner.expr 0
    consume .comma
    let limit ← inner.expr 0
    let step ← if ← eat .comma then some <$> inner.expr 0 else pure none
    consume .kwDo
    let body ← inner.block
    consume .kwEnd
    return (.numericFor · first start limit step body)
  else
    let others ← looping (listBehind .comma identifier)
    consume .kwIn
    let iterators ← exprList inner
    consume .kwDo
    let body ← inner.block
    consume .kwEnd
    return (.genericFor · (first :: others) iterators body)

/-- A name in a `local` statement, with an attribute such as `<const>` dropped. -/
def localName : Parser String := do
  let name ← identifier
  let c ← get
  if c.isAt .less && c.kindAhead? 1 = some .ident && c.kindAhead? 2 = some .greater then
    skip
    skip
    skip
  return name

/-- The name in a function statement. -/
def functionName : Parser FunctionName := do
  let start := (← get).span
  let root ← identifier
  let members ← looping (listBehind .dot identifier)
  let method ← if ← eat .colon then some <$> identifier else pure none
  return { root, members, method, span := ← spanFrom start }

/-- A call or an assignment. -/
def exprStatement (inner : Inner) : Parser (Span → Stmt) := do
  let first ← suffixedExpr inner
  let c ← get
  if c.isAt .assign || c.isAt .comma then
    let others ← looping (listBehind .comma (suffixedExpr inner))
    let targets := first :: others
    match targets.find? fun target => !target.isAssignable with
    | some target => throw (.invalidTarget target.span)
    | none =>
      consume .assign
      let values ← exprList inner
      return (.assign · targets values)
  else if first.isCall then
    return (.call · first)
  else
    throw (.unexpected (.token .assign) c.kind? c.span)

/-- What a statement is, up to its place. -/
def statementShape (inner : Inner) : Parser (Span → Stmt) := do
  let c ← get
  let start := c.span
  match c.kind? with
  | some .kwIf =>
    skip
    let condition ← inner.expr 0
    consume .kwThen
    let body ← inner.block
    let (clauses, otherwise) ← looping (elseParts inner)
    return (.ifElse · (.mk condition body :: clauses) otherwise)
  | some .kwWhile =>
    skip
    let condition ← inner.expr 0
    consume .kwDo
    let body ← inner.block
    consume .kwEnd
    return (.whileLoop · condition body)
  | some .kwDo =>
    skip
    let body ← inner.block
    consume .kwEnd
    return (.doBlock · body)
  | some .kwFor =>
    skip
    forLoop inner
  | some .kwRepeat =>
    skip
    let body ← inner.block
    consume .kwUntil
    let condition ← inner.expr 0
    return (.repeatLoop · body condition)
  | some .kwFunction =>
    skip
    let name ← functionName
    let body ← functionBody inner start
    return (.function · name body)
  | some .kwLocal =>
    skip
    if ← eat .kwFunction then
      let name ← identifier
      let body ← functionBody inner start
      return (.localFunction · name body)
    else
      let names ← looping (commaList localName)
      let values ← if ← eat .assign then exprList inner else pure []
      return (.localVars · names values)
  | some .doubleColon =>
    skip
    let name ← identifier
    consume .doubleColon
    return (.label · name)
  | some .kwBreak =>
    skip
    return .breakLoop
  | some .kwGoto =>
    if c.kindAhead? 1 = some .ident then
      skip
      let name ← identifier
      return (.goto · name)
    else
      exprStatement inner
  | _ => exprStatement inner

/-- A statement other than `return`. -/
def statement (inner : Inner) : Parser Stmt := do
  let start := (← get).span
  let shape ← statementShape inner
  return shape (← spanFrom start)

/-- A `return` statement with an optional semicolon. -/
def returnStatement (inner : Inner) : Parser Stmt := do
  let start := (← get).span
  consume .kwReturn
  let c ← get
  let values ←
    if c.atBlockEnd || c.isAt .semicolon then pure [] else exprList inner
  let _ ← eat .semicolon
  return .returnValues (← spanFrom start) values

/-- The statements of a block; a `return` is the last of them. -/
def statements (inner : Inner) : Nat → Parser (List Stmt)
  | 0 => tooDeep
  | rounds + 1 => do
      let c ← get
      if c.atBlockEnd then
        return []
      else if c.isAt .kwReturn then
        return [← returnStatement inner]
      else if c.isAt .semicolon then
        skip
        statements inner rounds
      else
        let first ← statement inner
        return first :: (← statements inner rounds)

/-- A sequence of statements up to where the enclosing construct goes on. -/
def blockWith (inner : Inner) : Parser Block := do
  let start := (← get).span
  let body ← looping (statements inner)
  return .mk body (← spanFrom start)

/-! ## All levels -/

/-- The parsers one level above the given ones. -/
def Inner.next (nested : Inner) : Inner where
  expr := operation nested
  block := blockWith nested

/-- The parsers for text nested at most `levels` deep. -/
def inner : (levels : Nat) → Inner
  | 0 => { expr := fun _ => tooDeep, block := tooDeep }
  | levels + 1 => (inner levels).next

/-- Run a parser for one level, allowing as many levels below it as there are
tokens. -/
def atAnyDepth {α : Type} (level : Inner → Parser α) : Parser α :=
  fun c => level (inner c.rest.length) c

/-- An expression. -/
def expr : Parser Expr := atAnyDepth fun nested => operation nested 0

/-- A whole chunk: a block that ends where the text does. -/
def chunk : Parser Chunk := do
  let start := (← get).span
  let block ← atAnyDepth blockWith
  let c ← get
  match c.kind? with
  | some _ => throw (.unexpected .statement c.kind? c.span)
  | none => return { block, span := start.merge c.span, nodeCount := c.nextId }

end Parser

namespace Chunk

/-- Read a source text as a chunk. -/
def parse (source : String) : Except ParseError Chunk :=
  (Parser.chunk.run (Cursor.ofSource source)).map Prod.fst

end Chunk

namespace Expr

/-- Read the expression at the start of a text; what follows it is ignored. -/
def parse (source : String) : Except ParseError Expr :=
  (Parser.expr.run (Cursor.ofSource source)).map Prod.fst

end Expr

end LuaShape
