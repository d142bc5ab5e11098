import LuaShape.Proofs.Inference.Direct
import LuaShape.Proofs.Inference.Reached
import LuaShape.Proofs.Inference.ValueLists
import LuaShape.Proofs.Project.Chunks

/-!
# Keys of fields

A field is kept under a text.  A string and the name of a member are kept under themselves, a
number as it is written, and an entry without key under its position.  So two constant keys share
a field exactly if they are spelled alike.  This is how Lua compares strings, and numbers written
in plain decimals; but a string shares a field with the number it spells, and two spellings of one
number do not share any.

Entries of a table constructor and assignments find the constant in brackets in two ways: entries
look at the syntax for a string, and assignments at the term, which has no parentheses left.  They
agree on every key but a string in parentheses.
-/

namespace LuaShape

/-- A constant key of a table. -/
inductive Key where
  /-- A string, or the name of a member. -/
  | text (value : String)
  /-- A number as it is written. -/
  | number (spelling : String)
  /-- The position of an entry without key. -/
  | position (n : Nat)

namespace Key

/-- The text under which a field is kept. -/
def slot : Key → String
  | text value => value
  | number spelling => spelling
  | position n => toString n

/-- Strings, positions below a bound, and numbers that are written like such positions. -/
def IsPlain (bound : Nat) : Key → Prop
  | text _ => True
  | number spelling => ∃ n < bound, spelling = toString n
  | position n => n < bound

end Key

namespace Expr

end Expr

/-- The position behind an entry. -/
def Field.next (position : Nat) : Field → Nat
  | .positional _ => position + 1
  | _ => position

namespace Read

end Read

/-! ## From slots to values -/

namespace Inference

variable {s : Inference} {id : TableId} {t : TableRecord} {slot : String}

end Inference

/-! ## When slots coincide -/

namespace Key

variable {N : Type} (denote : String → N)

variable {bound : Nat}

end Key

namespace Inference

open Read

end Inference

end LuaShape
