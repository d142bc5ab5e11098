/-!
# JSON values and their text

The command line writes its results as JSON and reads its settings from it.
Objects keep their members in order, and numbers keep their text, so a value
says exactly what is written.  A value is written on one line or, indented by
two blanks a level, over several.
-/

namespace LuaShape

/-- A JSON value. -/
inductive Json where
  | null
  | bool (value : Bool)
  /-- A number as written. -/
  | number (text : String)
  | string (value : String)
  | array (items : List Json)
  /-- Members in order; a name may repeat. -/
  | object (members : List (String × Json))
  /-- A string or an object as written, if it or a name in it has an unpaired
  surrogate and so stands for no text. -/
  | verbatim (text : String)
deriving Inhabited

namespace Json

/-- A natural number. -/
def nat (n : Nat) : Json := .number (toString n)

/-- A list of values made from the members of a list. -/
def list {α : Type} (f : α → Json) (items : List α) : Json := .array (items.map f)

/-- A list of strings. -/
def strings (items : List String) : Json := list .string items

/-- A value that may be missing. -/
def option {α : Type} (f : α → Json) : Option α → Json
  | some value => f value
  | none => .null

/-- The first member of an object with the given name. -/
def member? (name : String) : Json → Option Json
  | .object members => (members.find? fun entry => entry.1 = name).map Prod.snd
  | _ => none

/-! ## Writing -/

/-- The hexadecimal digit of a number below sixteen. -/
def hexDigit (n : Nat) : Char :=
  if n < 10 then Char.ofNat ('0'.toNat + n) else Char.ofNat ('a'.toNat + (n - 10))

/-- A character inside a quoted string: quotes, backslashes and control
characters are escaped, all others stand for themselves. -/
def escapeChar (c : Char) : List Char :=
  match c with
  | '\x22' => ['\\', '\x22']
  | '\\' => ['\\', '\\']
  | '\n' => ['\\', 'n']
  | '\r' => ['\\', 'r']
  | '\t' => ['\\', 't']
  | '\x08' => ['\\', 'b']
  | '\x0c' => ['\\', 'f']
  | _ =>
    if c.toNat < 0x20 then
      ['\\', 'u', '0', '0', hexDigit (c.toNat / 16), hexDigit (c.toNat % 16)]
    else [c]

/-- A string in quotes. -/
def quote (s : String) : String :=
  "\x22" ++ String.ofList (s.toList.flatMap escapeChar) ++ "\x22"

mutual

/-- The text of a value on one line, without blanks. -/
def compact : Json → String
  | .null => "null"
  | .bool true => "true"
  | .bool false => "false"
  | .number text => text
  | .string s => quote s
  | .array items => "[" ++ compactItems items ++ "]"
  | .object members => "\x7b" ++ compactMembers members ++ "\x7d"
  | .verbatim text => text

/-- The items of an array with commas between them. -/
def compactItems : List Json → String
  | [] => ""
  | [item] => compact item
  | item :: rest => compact item ++ "," ++ compactItems rest

/-- The members of an object with commas between them. -/
def compactMembers : List (String × Json) → String
  | [] => ""
  | [(name, value)] => quote name ++ ":" ++ compact value
  | (name, value) :: rest =>
    quote name ++ ":" ++ compact value ++ "," ++ compactMembers rest

end

/-- The blanks at the start of a line at the given depth. -/
def indent (depth : Nat) : String := String.ofList (List.replicate (2 * depth) ' ')

mutual

/-- The text of a value over several lines, from the given depth on. -/
def prettyFrom (depth : Nat) : Json → String
  | .array [] => "[]"
  | .array (item :: rest) =>
    "[\n" ++ prettyItems (depth + 1) (item :: rest) ++ "\n" ++ indent depth ++ "]"
  | .object [] => "\x7b\x7d"
  | .object (first :: rest) =>
    "\x7b\n" ++ prettyMembers (depth + 1) (first :: rest) ++ "\n" ++ indent depth ++ "\x7d"
  | .null => "null"
  | .bool true => "true"
  | .bool false => "false"
  | .number text => text
  | .string s => quote s
  | .verbatim text => text

/-- The items of an array, each on lines of its own. -/
def prettyItems (depth : Nat) : List Json → String
  | [] => ""
  | [item] => indent depth ++ prettyFrom depth item
  | item :: rest =>
    indent depth ++ prettyFrom depth item ++ ",\n" ++ prettyItems depth rest

/-- The members of an object, each on lines of its own. -/
def prettyMembers (depth : Nat) : List (String × Json) → String
  | [] => ""
  | [(name, value)] => indent depth ++ quote name ++ ": " ++ prettyFrom depth value
  | (name, value) :: rest =>
    indent depth ++ quote name ++ ": " ++ prettyFrom depth value ++ ",\n" ++
      prettyMembers depth rest

end

/-- The text of a value over several lines. -/
def pretty (value : Json) : String := prettyFrom 0 value

end Json

end LuaShape
