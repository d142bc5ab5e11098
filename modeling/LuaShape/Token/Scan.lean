import LuaShape.Text.Blank
import LuaShape.Text.Digit
import LuaShape.Token.Kind

/-!
# The first lexeme of a text

`scan` looks at a non-empty text and says what stands at its front: a token of
some kind or something to skip (blanks, a comment, a `#!` line), and how many
characters it takes.  Every rule takes the longest stretch it can, and the
rules are tried so that the longest stretch of all wins: `--` before `-`, a
number such as `.5` before `.`, a keyword only when no longer word is there.

Each shape has its own length function, by recursion on the characters, so
that a law about one shape never has to look at the others.
-/

namespace LuaShape.Token

open LuaShape.Text

/-- The characters between which a short string stands. -/
def isQuote (c : Char) : Bool := c = '\x22' || c = '\x27'

/-- Characters that may start a name. -/
def isNameStart (c : Char) : Bool := c.isAlpha || c = '_'

/-- Characters that may continue a name. -/
def isNamePart (c : Char) : Bool := c.isAlphanum || c = '_'

/-- The number of leading characters that satisfy `p`. -/
def runLength (p : Char → Bool) (cs : List Char) : Nat := (cs.takeWhile p).length

/-! ## Numbers -/

/-- An exponent: one of two marks, an optional sign and at least one digit.
Anything less has length zero. -/
def exponentLength (lower upper : Char) : List Char → Nat
  | mark :: rest =>
    if mark = lower || mark = upper then
      let sign := match rest with
        | c :: _ => if c = '+' || c = '-' then 1 else 0
        | [] => 0
      let digits := runLength Char.isDigit (rest.drop sign)
      if digits = 0 then 0 else 1 + sign + digits
    else 0
  | [] => 0

/-- A point and the digits after it; without a point the length is zero. -/
def fractionLength (digit : Char → Bool) : List Char → Nat
  | '.' :: rest => 1 + runLength digit rest
  | _ => 0

/-- Digits, an optional fraction and an optional exponent. -/
def numeralLength (digit : Char → Bool) (lower upper : Char) (cs : List Char) : Nat :=
  let whole := runLength digit cs
  let fraction := fractionLength digit (cs.drop whole)
  whole + fraction + exponentLength lower upper (cs.drop (whole + fraction))

/-- The length of the number at the front: hexadecimal after `0x`, else decimal. -/
def numberLength : List Char → Nat
  | '0' :: x :: rest =>
    if x = 'x' || x = 'X' then 2 + numeralLength isHexDigit 'p' 'P' rest
    else numeralLength Char.isDigit 'e' 'E' ('0' :: x :: rest)
  | cs => numeralLength Char.isDigit 'e' 'E' cs

/-- A number starts with a digit, or with a point before a digit. -/
def startsNumber : List Char → Bool
  | c :: rest =>
    c.isDigit || (c = '.' && match rest with
      | d :: _ => d.isDigit
      | [] => false)
  | [] => false

/-! ## Strings -/

/-- What follows the opening quote of a short string: whether the closing quote
is reached, and the number of characters up to and with it, or up to where the
string breaks off.  A backslash takes the next character with it. -/
def quotedLength (quote : Char) : List Char → Bool × Nat
  | [] => (false, 0)
  | '\\' :: [] => (false, 0)
  | '\\' :: _ :: rest =>
    let (closed, n) := quotedLength quote rest
    (closed, n + 2)
  | c :: rest =>
    if c = quote then (true, 1)
    else if c = '\n' then (false, 0)
    else
      let (closed, n) := quotedLength quote rest
      (closed, n + 1)

/-- The closing bracket of level `level`: `]`, that many `=`, `]`. -/
def closingBracket (level : Nat) : List Char :=
  ']' :: (List.replicate level '=' ++ [']'])

/-- The number of characters up to and with the first occurrence of `close`. -/
def lengthThrough (close : List Char) : List Char → Option Nat
  | [] => if close.isEmpty then some 0 else none
  | c :: rest =>
    if close.isPrefixOf (c :: rest) then some close.length
    else (lengthThrough close rest).map (· + 1)

/-- The level of the long bracket that opens the text, if one does. -/
def openingLevel? : List Char → Option Nat
  | '[' :: rest =>
    let level := runLength (· = '=') rest
    match rest.drop level with
    | '[' :: _ => some level
    | _ => none
  | _ => none

/-- What stands at a `[`: a long string through its closing bracket, an error to
the end of the text when that is missing, an error for `[` with stray `=`, or
the bracket itself. -/
def scanBracket (cs : List Char) : Kind × Nat :=
  match openingLevel? cs with
  | some level =>
    match lengthThrough (closingBracket level) (cs.drop (level + 2)) with
    | some n => (.longString, level + 2 + n)
    | none => (.error, cs.length)
  | none =>
    match runLength (· = '=') (cs.drop 1) with
    | 0 => (.leftBracket, 1)
    | level + 1 => (.error, level + 2)

/-! ## Comments -/

/-- The length of a comment after its `--`: a long bracket through its end, or
the whole text when the bracket stays open, else the rest of the line. -/
def commentLength (cs : List Char) : Nat :=
  match openingLevel? cs with
  | some level =>
    match lengthThrough (closingBracket level) (cs.drop (level + 2)) with
    | some n => level + 2 + n
    | none => cs.length
  | none => runLength (· ≠ '\n') cs

/-! ## Any lexeme -/

/-- The symbol at the front with the longest spelling. -/
def symbolAt? (cs : List Char) : Option (Kind × Nat) :=
  (Kind.symbols.find? fun entry => entry.1.toList.isPrefixOf cs).map
    fun entry => (entry.2, entry.1.length)

/-- The kind and length of a token at the front of a text that does not start
with something to skip. -/
def scanToken : List Char → Kind × Nat
  | [] => (.error, 0)
  | c :: rest =>
    if isNameStart c then
      let n := 1 + runLength isNamePart rest
      (Kind.ofWord (String.ofList ((c :: rest).take n)), n)
    else if startsNumber (c :: rest) then (.number, numberLength (c :: rest))
    else if isQuote c then
      let (closed, n) := quotedLength c rest
      (if closed then .string else .error, n + 1)
    else if c = '[' then scanBracket (c :: rest)
    else (symbolAt? (c :: rest)).getD (.error, 1)

/-- The number of characters to skip at the front: a run of blanks, a comment or
a `#!` line; zero when a token stands there. -/
def skipLength : List Char → Nat
  | '-' :: '-' :: rest => 2 + commentLength rest
  | '#' :: '!' :: rest => 2 + runLength (· ≠ '\n') rest
  | cs => runLength isAsciiBlank cs

/-- The lexeme at the front of a text: the kind of a token, or nothing for text
to skip, and its length in characters. -/
def scan (cs : List Char) : Option Kind × Nat :=
  match skipLength cs with
  | 0 =>
    let (kind, n) := scanToken cs
    (some kind, n)
  | n + 1 => (none, n + 1)

end LuaShape.Token
