import LuaShape.Text.Blank
import LuaShape.Text.Digit
import LuaShape.Token.Scan

/-!
# The value of a string literal

Short strings write some characters as escapes; long strings hold their
characters as they are, less one line break after the opening bracket.
Numeric escapes name a character by its number.
-/

namespace LuaShape.Escape

open LuaShape.Text

/-- The character with a given number, if that number has one. -/
def scalar? (code : Nat) : Option Char :=
  if code.isValidChar then some (Char.ofNat code) else none

/-- The character that a one-letter escape stands for: a control character for
some letters, and the character itself otherwise. -/
def simple (c : Char) : Char :=
  match c with
  | 'n' => '\n'
  | 't' => '\t'
  | 'r' => '\r'
  | 'a' => '\x07'
  | 'b' => '\x08'
  | 'f' => '\x0c'
  | 'v' => '\x0b'
  | other => other

/-- The characters one escape stands for and the text after it; the text starts
behind the backslash.  Nothing when the escape is malformed. -/
def escape? : List Char → Option (List Char × List Char)
  | [] => none
  | 'z' :: rest => some ([], rest.dropWhile isBlank)
  | 'x' :: rest => do
      let code ← match rest with
        | hi :: lo :: _ => hexNumber? [hi, lo]
        | _ => none
      let c ← scalar? code
      some ([c], rest.drop 2)
  | 'u' :: '\x7b' :: rest => do
      let digits := rest.takeWhile (· ≠ '\x7d')
      let code ← hexNumber? digits
      match rest.drop digits.length with
      | '\x7d' :: after => do
          let c ← scalar? code
          some ([c], after)
      | _ => none
  | 'u' :: _ => none
  | c :: rest =>
    if c.isDigit then
      let digits := c :: (rest.take 2).takeWhile Char.isDigit
      let code := decimalNumber digits
      if code > 255 then none
      else (scalar? code).map fun d => ([d], rest.drop (digits.length - 1))
    else some ([simple c], rest)

/-- Decode the characters between the quotes; `limit` bounds the number of
characters read, and their count always suffices. -/
def decodeFrom : (limit : Nat) → List Char → Option (List Char)
  | 0, _ => some []
  | _, [] => some []
  | limit + 1, c :: rest =>
    if c = '\\' then do
      let (cs, after) ← escape? rest
      let tail ← decodeFrom limit after
      some (cs ++ tail)
    else do
      let tail ← decodeFrom limit rest
      some (c :: tail)

/-- The value of a short string from the text between its quotes; nothing when
an escape is malformed. -/
def decode? (raw : String) : Option String :=
  (decodeFrom raw.toList.length raw.toList).map String.ofList

/-- The value of a short string from its whole text. -/
def shortValue? (text : String) : Option String :=
  decode? (String.ofList ((text.toList.drop 1).dropLast))

/-- The value of a long string from its whole text, brackets included: what
stands between the brackets, without one line break at its start. -/
def longValue (text : String) : String :=
  let cs := text.toList
  let bracket := Token.runLength (· = '=') (cs.drop 1) + 2
  let body := (cs.drop bracket).take (cs.length - bracket - bracket)
  String.ofList (match body with
    | '\r' :: '\n' :: rest => rest
    | '\n' :: rest => rest
    | _ => body)

end LuaShape.Escape
