import LuaShape.Source.Span
import LuaShape.Token.Scan

/-!
# The token stream of a source text

A text is cut into *pieces*, each a token or a stretch to skip, by scanning
again and again from where the last piece ended.  The pieces tile the text; the
token stream keeps those that are tokens.  Offsets count bytes.
-/

namespace LuaShape

/-- A token: its kind, the byte offset at which it starts, and its text. -/
structure Token where
  kind : Token.Kind
  start : Nat
  text : String
deriving DecidableEq, Repr, Inhabited

namespace Token

/-- The bytes a token covers. -/
def span (t : Token) : Span := ⟨t.start, t.start + t.text.utf8ByteSize⟩

/-- A stretch of source text: a token when it has a kind, otherwise blanks, a
comment or a `#!` line. -/
structure Piece where
  kind : Option Kind
  start : Nat
  text : String
deriving DecidableEq, Repr

namespace Piece

/-- The token a piece is, if it is one. -/
def token? (p : Piece) : Option Token := p.kind.map fun kind => ⟨kind, p.start, p.text⟩

/-- The bytes a piece covers. -/
def span (p : Piece) : Span := ⟨p.start, p.start + p.text.utf8ByteSize⟩

end Piece

/-- Cut a text into pieces.  `limit` bounds their number; as many as there are
characters always suffice, because no piece is empty. -/
def piecesFrom : (limit : Nat) → (offset : Nat) → List Char → List Piece
  | 0, _, _ => []
  | _, _, [] => []
  | limit + 1, offset, c :: rest =>
    let (kind, n) := scan (c :: rest)
    let text := String.ofList ((c :: rest).take n)
    ⟨kind, offset, text⟩ ::
      piecesFrom limit (offset + text.utf8ByteSize) ((c :: rest).drop n)

/-- All pieces of a source text, in order. -/
def pieces (source : String) : List Piece :=
  piecesFrom source.toList.length 0 source.toList

/-- The tokens of a source text, in order. -/
def stream (source : String) : List Token :=
  (pieces source).filterMap Piece.token?

end Token

end LuaShape
