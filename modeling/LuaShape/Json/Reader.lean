import LuaShape.Json.Basic
import LuaShape.Text.Digit

/-!
# Reading JSON text

The reader accepts exactly the JSON grammar: no trailing commas, no leading
zeros and no raw control characters in strings.  The grammar allows a string to
have half of a surrogate pair, which stands for no character; such a string, or an
object with such a name, is kept as written.  Like the grammar of Lua, the reader
takes one level at a time and leaves nested values to the level below; a text never
nests deeper than it is long.
-/

namespace LuaShape.Json

/-- A reader takes text from the front and gives a value and the text after it. -/
abbrev Reader (α : Type) := List Char → Option (α × List Char)

/-- The blanks of JSON. -/
def isBlank (c : Char) : Bool := c = ' ' || c = '\n' || c = '\t' || c = '\r'

/-- The text behind leading blanks. -/
def skipBlanks (cs : List Char) : List Char := cs.dropWhile isBlank

/-- The code unit written by four hexadecimal digits. -/
def codeUnit : Reader Nat
  | a :: b :: c :: d :: rest => do
      let unit ← Text.hexNumber? [a, b, c, d]
      some (unit, rest)
  | _ => none

/-- Whether a code unit is the first of a surrogate pair. -/
def isHigh (unit : Nat) : Bool := 0xD800 ≤ unit && unit ≤ 0xDBFF

/-- Whether a code unit is the second of a surrogate pair. -/
def isLow (unit : Nat) : Bool := 0xDC00 ≤ unit && unit ≤ 0xDFFF

/-- The second code unit of a pair, if an escape with one comes next. -/
def lowUnit : Reader Nat
  | '\\' :: 'u' :: rest => do
      let (unit, after) ← codeUnit rest
      if isLow unit then some (unit, after) else none
  | _ => none

/-- The character behind a backslash, possibly written as a pair of code units.  A
code unit that lacks its other half stands for no character. -/
def escaped : Reader (Option Char)
  | '\x22' :: rest => some (some '\x22', rest)
  | '\\' :: rest => some (some '\\', rest)
  | '/' :: rest => some (some '/', rest)
  | 'b' :: rest => some (some '\x08', rest)
  | 'f' :: rest => some (some '\x0c', rest)
  | 'n' :: rest => some (some '\n', rest)
  | 'r' :: rest => some (some '\r', rest)
  | 't' :: rest => some (some '\t', rest)
  | 'u' :: rest => do
      let (unit, after) ← codeUnit rest
      if isHigh unit then
        match lowUnit after with
        | some (low, after) =>
          some (some (Char.ofNat (0x10000 + (unit - 0xD800) * 0x400 + (low - 0xDC00))), after)
        | none => some (none, after)
      else if isLow unit then some (none, after)
      else some (some (Char.ofNat unit), after)
  | _ => none

/-- A text with one more character in front, if both are there. -/
def prepend (first : Option Char) (others : Option (List Char)) : Option (List Char) := do
  some ((← first) :: (← others))

/-- The characters of a string up to and with its closing quote, if the string
stands for a text. -/
def stringRest : Nat → Reader (Option (List Char))
  | 0, _ => none
  | _, [] => none
  | rounds + 1, c :: rest =>
    if c = '\x22' then some (some [], rest)
    else if c = '\\' then do
      let (first, after) ← escaped rest
      let (others, after) ← stringRest rounds after
      some (prepend first others, after)
    else if c.toNat < 0x20 then none
    else do
      let (others, after) ← stringRest rounds rest
      some (prepend (some c) others, after)

/-- A string, from its opening quote, and the text that it stands for, if any. -/
def string? : Reader (Option String)
  | '\x22' :: rest => do
      let (text, after) ← stringRest (rest.length + 1) rest
      some (text.map String.ofList, after)
  | _ => none

/-- At least one digit. -/
def digits : Reader (List Char) := fun cs =>
  match cs.takeWhile Char.isDigit with
  | [] => none
  | run => some (run, cs.dropWhile Char.isDigit)

/-- The whole part of a number, without leading zeros. -/
def wholePart : Reader (List Char)
  | '0' :: rest => some (['0'], rest)
  | cs => digits cs

/-- An optional fraction. -/
def fractionPart : Reader (List Char)
  | '.' :: rest => do
      let (run, after) ← digits rest
      some ('.' :: run, after)
  | cs => some ([], cs)

/-- An optional exponent. -/
def exponentPart : Reader (List Char)
  | mark :: rest =>
    if mark = 'e' || mark = 'E' then
      match rest with
      | sign :: more =>
        if sign = '+' || sign = '-' then do
          let (run, after) ← digits more
          some (mark :: sign :: run, after)
        else do
          let (run, after) ← digits rest
          some (mark :: run, after)
      | [] => none
    else some ([], mark :: rest)
  | [] => some ([], [])

/-- A number, kept as written. -/
def number? : Reader Json := fun cs => do
  let (sign, rest) := match cs with
    | '-' :: rest => (['-'], rest)
    | _ => ([], cs)
  let (whole, rest) ← wholePart rest
  let (fraction, rest) ← fractionPart rest
  let (exponent, rest) ← exponentPart rest
  some (.number (String.ofList (sign ++ whole ++ fraction ++ exponent)), rest)

/-- The items behind the first value of an array, through the closing bracket. -/
def itemsRest (nested : Reader Json) : Nat → Reader (List Json)
  | 0, _ => none
  | rounds + 1, cs =>
    match skipBlanks cs with
    | ']' :: after => some ([], after)
    | ',' :: rest => do
        let (item, rest) ← nested rest
        let (others, after) ← itemsRest nested rounds rest
        some (item :: others, after)
    | _ => none

/-- A member of an object: a name, a colon and a value. -/
def entry? (nested : Reader Json) : Reader (Option String × Json) := fun cs => do
  let (name, rest) ← string? (skipBlanks cs)
  match skipBlanks rest with
  | ':' :: rest => do
      let (value, after) ← nested rest
      some ((name, value), after)
  | _ => none

/-- The members behind the first one of an object, through the closing brace. -/
def membersRest (nested : Reader Json) : Nat → Reader (List (Option String × Json))
  | 0, _ => none
  | rounds + 1, cs =>
    match skipBlanks cs with
    | '\x7d' :: after => some ([], after)
    | ',' :: rest => do
        let (entry, rest) ← entry? nested rest
        let (others, after) ← membersRest nested rounds rest
        some (entry :: others, after)
    | _ => none

/-- What was read of a text up to the text after it, as a value. -/
def asWritten (cs after : List Char) : Json :=
  .verbatim (String.ofList (cs.take (cs.length - after.length)))

/-- Members whose names all stand for texts. -/
def named? (members : List (Option String × Json)) : Option (List (String × Json)) :=
  members.mapM fun (name, value) => name.map fun name => (name, value)

/-- A value behind optional blanks, with nested values left to `nested`. -/
def valueWith (nested : Reader Json) : Reader Json := fun cs =>
  match skipBlanks cs with
  | 'n' :: 'u' :: 'l' :: 'l' :: rest => some (.null, rest)
  | 't' :: 'r' :: 'u' :: 'e' :: rest => some (.bool true, rest)
  | 'f' :: 'a' :: 'l' :: 's' :: 'e' :: rest => some (.bool false, rest)
  | '\x22' :: rest => do
      let (text, after) ← string? ('\x22' :: rest)
      some ((text.map .string).getD (asWritten ('\x22' :: rest) after), after)
  | '[' :: rest =>
    match skipBlanks rest with
    | ']' :: after => some (.array [], after)
    | _ => do
        let (first, rest) ← nested rest
        let (others, after) ← itemsRest nested (rest.length + 1) rest
        some (.array (first :: others), after)
  | '\x7b' :: rest =>
    match skipBlanks rest with
    | '\x7d' :: after => some (.object [], after)
    | _ => do
        let (first, more) ← entry? nested rest
        let (others, after) ← membersRest nested (more.length + 1) more
        let members := named? (first :: others)
        some ((members.map .object).getD (asWritten ('\x7b' :: rest) after), after)
  | cs => number? cs

/-- A value nested at most `levels` deep. -/
def valueAt : (levels : Nat) → Reader Json
  | 0 => fun _ => none
  | levels + 1 => valueWith (valueAt levels)

/-- Read a text that is one value with nothing but blanks around it. -/
def parse? (text : String) : Option Json :=
  let cs := text.toList
  match valueAt (cs.length + 1) cs with
  | some (value, rest) => if (skipBlanks rest).isEmpty then some value else none
  | none => none

end LuaShape.Json
