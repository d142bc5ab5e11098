/-!
# Kinds of tokens

The vocabulary of Lua source text: keywords and symbols with one spelling
each, and the open classes of names, numbers and strings.  Text that starts no
token is a token of kind `error`, so that the stream always covers the text.
The end of a file is not a token; it is where the stream ends.
-/

namespace LuaShape.Token

/-- The kind of a token. -/
inductive Kind where
  | kwAnd | kwBreak | kwDo | kwElse | kwElseif | kwEnd | kwFalse | kwFor
  | kwFunction | kwGoto | kwIf | kwIn | kwLocal | kwNil | kwNot | kwOr
  | kwRepeat | kwReturn | kwThen | kwTrue | kwUntil | kwWhile
  | plus | minus | star | slash | doubleSlash | percent | caret | hash
  | ampersand | tilde | pipe | shiftLeft | shiftRight
  | equal | notEqual | less | lessEqual | greater | greaterEqual | assign
  | concat | ellipsis
  | leftParen | rightParen | leftBrace | rightBrace | leftBracket | rightBracket
  | doubleColon | semicolon | colon | comma | dot
  | ident | number | string | longString
  | error
deriving DecidableEq, Repr, Inhabited

namespace Kind

/-- The keywords with their spelling. -/
def keywords : List (String × Kind) :=
  [("and", kwAnd), ("break", kwBreak), ("do", kwDo), ("else", kwElse),
   ("elseif", kwElseif), ("end", kwEnd), ("false", kwFalse), ("for", kwFor),
   ("function", kwFunction), ("goto", kwGoto), ("if", kwIf), ("in", kwIn),
   ("local", kwLocal), ("nil", kwNil), ("not", kwNot), ("or", kwOr),
   ("repeat", kwRepeat), ("return", kwReturn), ("then", kwThen), ("true", kwTrue),
   ("until", kwUntil), ("while", kwWhile)]

/-- The symbols with their spelling, a longer spelling before any shorter one. -/
def symbols : List (String × Kind) :=
  [("...", ellipsis),
   ("//", doubleSlash), ("<<", shiftLeft), (">>", shiftRight), ("==", equal),
   ("~=", notEqual), ("<=", lessEqual), (">=", greaterEqual), ("..", concat),
   ("::", doubleColon),
   ("+", plus), ("-", minus), ("*", star), ("/", slash), ("%", percent),
   ("^", caret), ("#", hash), ("&", ampersand), ("~", tilde), ("|", pipe),
   ("<", less), (">", greater), ("=", assign),
   ("(", leftParen), (")", rightParen), ("\x7b", leftBrace), ("\x7d", rightBrace),
   ("[", leftBracket), ("]", rightBracket), (";", semicolon), (":", colon),
   (",", comma), (".", dot)]

/-- The spelling of a kind that has only one. -/
def spelling? (kind : Kind) : Option String :=
  ((keywords ++ symbols).find? fun entry => entry.2 = kind).map Prod.fst

/-- The keyword a word spells, if any. -/
def ofWord (word : String) : Kind :=
  ((keywords.find? fun entry => entry.1 = word).map Prod.snd).getD ident

/-- How a message refers to a token of this kind. -/
def describe (kind : Kind) : String :=
  match kind.spelling? with
  | some text => "'" ++ text ++ "'"
  | none =>
    match kind with
    | ident => "identifier"
    | number => "number"
    | string | longString => "string"
    | _ => "invalid token"

end Kind

end LuaShape.Token
