import LuaShape.Token.Kind

/-!
# Operators and how tightly they bind

A binary operator pulls on its operands with a left and a right power.  Equal
powers make it group to the left; a smaller right power, as for `..` and `^`,
makes it group to the right.  Unary operators bind tighter than every binary
operator but `^`.
-/

namespace LuaShape

/-- The binary operators. -/
inductive BinaryOp where
  | add | sub | mul | div | floorDiv | mod | pow
  | bitAnd | bitOr | bitXor | shiftLeft | shiftRight
  | concat
  | eq | ne | lt | le | gt | ge
  | and | or
deriving DecidableEq, Repr, Inhabited

/-- The unary operators. -/
inductive UnaryOp where
  | not | neg | len | bitNot
deriving DecidableEq, Repr, Inhabited

namespace BinaryOp

/-- The power with which an operator takes the operand to its left. -/
def leftPower : BinaryOp → Nat
  | or => 1
  | and => 2
  | eq | ne | lt | le | gt | ge => 3
  | bitOr => 4
  | bitXor => 5
  | bitAnd => 6
  | shiftLeft | shiftRight => 7
  | concat => 9
  | add | sub => 10
  | mul | div | floorDiv | mod => 11
  | pow => 14

/-- The power with which an operator takes the operand to its right. -/
def rightPower : BinaryOp → Nat
  | concat => 8
  | pow => 13
  | op => op.leftPower

/-- Arithmetic on numbers. -/
def isArithmetic : BinaryOp → Bool
  | add | sub | mul | div | floorDiv | mod | pow => true
  | _ => false

/-- Operations on the bits of integers. -/
def isBitwise : BinaryOp → Bool
  | bitAnd | bitOr | bitXor | shiftLeft | shiftRight => true
  | _ => false

/-- Comparisons, which yield a boolean. -/
def isComparison : BinaryOp → Bool
  | eq | ne | lt | le | gt | ge => true
  | _ => false

/-- The token that writes an operator. -/
def token : BinaryOp → Token.Kind
  | add => .plus
  | sub => .minus
  | mul => .star
  | div => .slash
  | floorDiv => .doubleSlash
  | mod => .percent
  | pow => .caret
  | bitAnd => .ampersand
  | bitOr => .pipe
  | bitXor => .tilde
  | shiftLeft => .shiftLeft
  | shiftRight => .shiftRight
  | concat => .concat
  | eq => .equal
  | ne => .notEqual
  | lt => .less
  | le => .lessEqual
  | gt => .greater
  | ge => .greaterEqual
  | and => .kwAnd
  | or => .kwOr

/-- The binary operator a token writes, if any. -/
def ofToken? : Token.Kind → Option BinaryOp
  | .plus => some add
  | .minus => some sub
  | .star => some mul
  | .slash => some div
  | .doubleSlash => some floorDiv
  | .percent => some mod
  | .caret => some pow
  | .ampersand => some bitAnd
  | .pipe => some bitOr
  | .tilde => some bitXor
  | .shiftLeft => some shiftLeft
  | .shiftRight => some shiftRight
  | .concat => some concat
  | .equal => some eq
  | .notEqual => some ne
  | .less => some lt
  | .lessEqual => some le
  | .greater => some gt
  | .greaterEqual => some ge
  | .kwAnd => some and
  | .kwOr => some or
  | _ => none

/-- A token writes an operator exactly when it is that operator's token. -/
theorem ofToken?_eq_some_iff {kind : Token.Kind} {op : BinaryOp} :
    ofToken? kind = some op ↔ kind = op.token := by
  constructor
  · intro h
    cases kind <;> simp only [ofToken?, Option.some.injEq, reduceCtorEq] at h <;>
      subst h <;> rfl
  · rintro rfl
    cases op <;> rfl

/-- The symbol that writes an operator. -/
def symbol (op : BinaryOp) : String := (op.token.spelling?).getD ""

end BinaryOp

namespace UnaryOp

/-- The power with which every unary operator takes its operand. -/
def power : Nat := 12

/-- The token that writes an operator. -/
def token : UnaryOp → Token.Kind
  | not => .kwNot
  | neg => .minus
  | len => .hash
  | bitNot => .tilde

/-- The unary operator a token writes, if any. -/
def ofToken? : Token.Kind → Option UnaryOp
  | .kwNot => some not
  | .minus => some neg
  | .hash => some len
  | .tilde => some bitNot
  | _ => none

/-- A token writes an operator exactly when it is that operator's token. -/
theorem ofToken?_eq_some_iff {kind : Token.Kind} {op : UnaryOp} :
    ofToken? kind = some op ↔ kind = op.token := by
  constructor
  · intro h
    cases kind <;> simp only [ofToken?, Option.some.injEq, reduceCtorEq] at h <;>
      subst h <;> rfl
  · rintro rfl
    cases op <;> rfl

/-- The symbol that writes an operator. -/
def symbol (op : UnaryOp) : String := (op.token.spelling?).getD ""

end UnaryOp

end LuaShape
