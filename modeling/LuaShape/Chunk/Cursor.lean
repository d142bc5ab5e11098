import LuaShape.Chunk.ParseError
import LuaShape.Chunk.Tree
import LuaShape.Token.Stream

/-!
# Reading tokens one after the other

A `Cursor` stands in a token stream: it holds the tokens still to be read, the
place of the last one read, and the number the next node will get.  A `Parser`
moves a cursor forward or fails with the reason.  The parsers here read single
tokens; loops over them take a bound on their rounds, and the number of unread
tokens is always enough because each round reads at least one.
-/

namespace LuaShape

/-- A place in a token stream. -/
structure Cursor where
  /-- The tokens not yet read. -/
  rest : List Token
  /-- Where the text ends. -/
  finish : Span
  /-- The place of the token read last. -/
  previous : Span
  /-- The number of the next node. -/
  nextId : Nat

namespace Cursor

/-- The start of the token stream of a text. -/
def ofSource (source : String) : Cursor where
  rest := Token.stream source
  finish := ⟨source.utf8ByteSize, source.utf8ByteSize⟩
  previous := Span.origin
  nextId := 0

/-- The kind of the next token, or nothing at the end. -/
def kind? (c : Cursor) : Option Token.Kind := c.rest.head?.map Token.kind

/-- The kind of the token `n` places after the next one. -/
def kindAhead? (c : Cursor) (n : Nat) : Option Token.Kind := c.rest[n]?.map Token.kind

/-- The place of the next token, or of the end. -/
def span (c : Cursor) : Span :=
  match c.rest with
  | t :: _ => t.span
  | [] => c.finish

/-- Whether the next token is of the given kind. -/
def isAt (c : Cursor) (kind : Token.Kind) : Bool := c.kind? = some kind

/-- The cursor behind the next token; at the end it stays. -/
def advance (c : Cursor) : Cursor :=
  match c.rest with
  | t :: rest => { c with rest := rest, previous := t.span }
  | [] => c

/-- Whether the enclosing block ends here. -/
def atBlockEnd (c : Cursor) : Bool :=
  match c.kind? with
  | none | some .kwEnd | some .kwElse | some .kwElseif | some .kwUntil => true
  | _ => false

end Cursor

/-- A reader of tokens: it moves a cursor or fails. -/
abbrev Parser := StateT Cursor (Except ParseError)

namespace Parser

variable {α : Type}

/-- The bound on nesting is used up. -/
def tooDeep : Parser α := do throw (.tooDeep (← get).span)

/-- Run a loop with a bound that its rounds cannot reach. -/
def looping (loop : Nat → Parser α) : Parser α := fun c => loop (c.rest.length + 1) c

/-- Skip the next token. -/
def skip : Parser Unit := modify Cursor.advance

/-- Skip the next token if it is of the given kind, and say whether it was. -/
def eat (kind : Token.Kind) : Parser Bool := do
  if (← get).isAt kind then
    skip
    return true
  else
    return false

/-- Skip a token that must be of the given kind. -/
def consume (kind : Token.Kind) : Parser Unit := do
  let c ← get
  if c.isAt kind then skip
  else throw (.unexpected (.token kind) c.kind? c.span)

/-- Read a name. -/
def identifier : Parser String := fun c =>
  match c.rest with
  | t :: _ =>
    if t.kind = .ident then .ok (t.text, c.advance)
    else .error (.unexpected (.token .ident) c.kind? c.span)
  | [] => .error (.unexpected (.token .ident) c.kind? c.span)

/-- Take the next free node number. -/
def mint : Parser Nat := modifyGet fun c => (c.nextId, { c with nextId := c.nextId + 1 })

/-- Complete an expression node that covers `span`. -/
def node (span : Span) (build : Mark → Expr) : Parser Expr := do
  return build ⟨← mint, span⟩

/-- The place of the token read last. -/
def previousSpan : Parser Span := return (← get).previous

/-- The bytes from `start` through the token read last. -/
def spanFrom (start : Span) : Parser Span := return start.merge (← previousSpan)

/-- One or more items with commas between them. -/
def commaList (item : Parser α) : Nat → Parser (List α)
  | 0 => tooDeep
  | rounds + 1 => do
      let first ← item
      if ← eat .comma then
        return first :: (← commaList item rounds)
      else
        return [first]

/-- Zero or more items, each behind the given token. -/
def listBehind (kind : Token.Kind) (item : Parser α) : Nat → Parser (List α)
  | 0 => tooDeep
  | rounds + 1 => do
      if ← eat kind then
        let first ← item
        return first :: (← listBehind kind item rounds)
      else
        return []

end Parser

end LuaShape
