import LuaShape.Chunk.Operator
import LuaShape.Symbol.Basic

/-!
# Terms

A `Term` is an expression reduced to what inference needs: names are resolved to
bindings or globals, table constructors and functions to their numbers, method
calls to calls, and requires to the module they lead to.  Terms live in an
`Arena` and refer to each other by position there.
-/

namespace LuaShape

/-- The position of a term in its arena. -/
structure TermId where
  index : Nat
deriving DecidableEq, Repr, Inhabited

/-- What a name refers to. -/
inductive Ident where
  | bound (id : SymbolId)
  | global (name : String)
deriving DecidableEq, Repr

/-- A literal value. -/
inductive Literal where
  | nil
  | boolean (value : Bool)
  /-- A number as written. -/
  | number (text : String)
  | string (value : String)
  | table (id : TableId)
  | function (id : FunctionId)
deriving DecidableEq, Repr

/-- What an operation does with its operands. -/
inductive Operator where
  | binary (op : BinaryOp)
  | unary (op : UnaryOp)
  /-- Call the first operand with the others, and take the result at `slot`. -/
  | call (slot : Nat)
deriving DecidableEq, Repr

/-- An expression as inference sees it. -/
inductive Term where
  | reference (ident : Ident)
  | literal (value : Literal)
  /-- `base.name` -/
  | member (base : TermId) (name : String)
  /-- `base[key]` -/
  | index (base : TermId) (key : TermId)
  | operation (op : Operator) (operands : List TermId)
  /-- A required module: the name as written, the module it leads to, and which
  of its returned values is meant. -/
  | require (name : String) (target : Option String) (slot : Nat)
  /-- `...`, of which nothing is known. -/
  | vararg
deriving DecidableEq, Repr

namespace Literal

/-- The three decimal digits of a byte. -/
def threeDigits (n : Nat) : List Char :=
  [n / 100, n / 10 % 10, n % 10].map fun d => Char.ofNat ('0'.toNat + d)

/-- A byte inside a quoted string.  Printable ASCII stands for itself; a byte
escape always has three digits, so that no digit behind it can extend it. -/
def quoteByte (b : UInt8) : List Char :=
  let n := b.toNat
  if n = 0x22 then ['\\', '\x22']
  else if n = 0x5C then ['\\', '\\']
  else if n = 0x0A then ['\\', 'n']
  else if n = 0x0D then ['\\', 'r']
  else if n = 0x09 then ['\\', 't']
  else if 0x20 ≤ n ∧ n ≤ 0x7E then [Char.ofNat n]
  else '\\' :: threeDigits n

/-- A string as a quoted literal of Lua 5.1, byte by byte. -/
def quote (s : String) : String :=
  String.ofList
    ('\x22' :: (s.toList.flatMap fun c => (String.utf8EncodeChar c).flatMap quoteByte) ++ ['\x22'])

/-- A scalar literal as source text; tables and functions have none. -/
def sourceText? : Literal → Option String
  | .nil => some "nil"
  | .boolean true => some "true"
  | .boolean false => some "false"
  | .number text => some text
  | .string value => some (quote value)
  | .table _ | .function _ => none

end Literal

/-- The terms of a run; a term's number is its position. -/
structure Arena where
  terms : Array Term := #[]
deriving DecidableEq, Inhabited

namespace Arena

/-- The number of terms. -/
def size (a : Arena) : Nat := a.terms.size

/-- The term with a number.  A number that stands for nothing is read as a value
of which nothing is known. -/
def get (a : Arena) (id : TermId) : Term := (a.terms[id.index]?).getD .vararg

/-- Add a term under the next number. -/
def alloc (a : Arena) (term : Term) : TermId × Arena := (⟨a.size⟩, ⟨a.terms.push term⟩)

@[simp]
theorem size_alloc (a : Arena) (term : Term) : (a.alloc term).2.size = a.size + 1 := by
  simp [alloc, size]

/-- A new term is found under the number it was given. -/
@[simp]
theorem get_alloc_self (a : Arena) (term : Term) :
    (a.alloc term).2.get (a.alloc term).1 = term := by
  simp [alloc, get, size]

/-- A new term changes nothing for the older ones. -/
theorem get_alloc_of_lt (a : Arena) (term : Term) {id : TermId} (h : id.index < a.size) :
    (a.alloc term).2.get id = a.get id := by
  have hne : id.index ≠ a.terms.size := Nat.ne_of_lt h
  simp [alloc, get, Array.getElem?_push, hne]

/-- The callee and the arguments of a call. -/
def callParts? (a : Arena) (id : TermId) : Option (TermId × List TermId) :=
  match a.get id with
  | .operation (.call _) (callee :: args) => some (callee, args)
  | _ => none

/-- The table a term constructs. -/
def tableLiteral? (a : Arena) (id : TermId) : Option TableId :=
  match a.get id with
  | .literal (.table table) => some table
  | _ => none

/-- The function a term constructs. -/
def functionLiteral? (a : Arena) (id : TermId) : Option FunctionId :=
  match a.get id with
  | .literal (.function function) => some function
  | _ => none

/-- The value of a string literal. -/
def stringLiteral? (a : Arena) (id : TermId) : Option String :=
  match a.get id with
  | .literal (.string value) => some value
  | _ => none

/-- The field that a constant key selects: a string, or a number as written. -/
def fieldKey? (a : Arena) (id : TermId) : Option String :=
  match a.get id with
  | .literal (.string value) => some value
  | .literal (.number text) => some text
  | _ => none

end Arena

end LuaShape
