import LuaShape.Chunk.Tree
import LuaShape.Term.Basic

/-!
# Values of closed expressions

A closed expression is made of `nil`, booleans, numbers and strings with parentheses and
operators.  `Evaluates` says which values it may have by the rules of Lua, but without
taking strings for numbers or numbers for strings.  What is not computed here is left open:
numbers and what operators do with them are a parameter, and a comparison may have either
outcome.  An operation on values that it is not meant for is an error, and has no value.

An evaluation comes with its trace: where every part that is evaluated stands, and its
value.  A part is found by the numbers of the operands that lead to it; parentheses are not
counted, since they change no value.
-/

namespace LuaShape

namespace Expr

/-- The scalar literal that an expression is. -/
def literal? : Expr → Option Literal
  | .nil _ => some .nil
  | .boolean _ value => some (.boolean value)
  | .number _ text => some (.number text)
  | .string _ value => some (.string value)
  | _ => none

/-- Made of scalar literals, parentheses and operators. -/
inductive Closed : Expr → Prop where
  | literal {e : Expr} {value : Literal} (h : e.literal? = some value) : Closed e
  | paren (mark : Mark) {inner : Expr} (h : Closed inner) : Closed (.paren mark inner)
  | unary (mark : Mark) (op : UnaryOp) {operand : Expr} (h : Closed operand) :
      Closed (.unary mark op operand)
  | binary (mark : Mark) (op : BinaryOp) {left right : Expr} (hLeft : Closed left)
      (hRight : Closed right) : Closed (.binary mark op left right)

/-- The height of the term that a closed expression becomes: how many terms there are on
the longest way down.  Parentheses become no terms. -/
def height : Expr → Nat
  | .paren _ inner => inner.height
  | .unary _ _ operand => operand.height + 1
  | .binary _ _ left right => max left.height right.height + 1
  | _ => 1

theorem height_operand_le (mark : Mark) (op : UnaryOp) (operand : Expr) :
    operand.height ≤ (unary mark op operand).height := Nat.le_succ _

theorem height_left_le (mark : Mark) (op : BinaryOp) (left right : Expr) :
    left.height ≤ (binary mark op left right).height :=
  Nat.le_succ_of_le (Nat.le_max_left ..)

theorem height_right_le (mark : Mark) (op : BinaryOp) (left right : Expr) :
    right.height ≤ (binary mark op left right).height :=
  Nat.le_succ_of_le (Nat.le_max_right ..)

theorem height_pos (e : Expr) : 0 < e.height := by
  fun_induction height e with
  | case1 _ inner ih => exact ih
  | case2 | case3 | case4 => exact Nat.succ_pos _

end Expr

namespace Evaluation

/-- A value, where `N` are the numbers. -/
inductive Value (N : Type) where
  | nil
  | boolean (value : Bool)
  | number (value : N)
  | string (value : String)

/-- Whether a value counts as true. -/
def Value.isTruthy {N : Type} : Value N → Bool
  | .nil => false
  | .boolean value => value
  | .number _ | .string _ => true

/-- What is done with numbers; nothing where it is an error. -/
structure Numbers (N : Type) where
  /-- The number that a text writes. -/
  numeral : String → Option N
  binary : BinaryOp → N → N → Option N
  unary : UnaryOp → N → Option N
  /-- The length of a string. -/
  length : String → N

variable {N : Type}

/-- The value of a scalar literal. -/
def Numbers.value? (numbers : Numbers N) : Literal → Option (Value N)
  | .nil => some .nil
  | .boolean value => some (.boolean value)
  | .number text => (numbers.numeral text).map .number
  | .string value => some (.string value)
  | .table _ | .function _ => none

/-- What a unary operator may make of a value. -/
inductive AppliesTo (numbers : Numbers N) : UnaryOp → Value N → Value N → Prop where
  | not (v : Value N) : AppliesTo numbers .not v (.boolean !v.isTruthy)
  | number {op : UnaryOp} {a b : N} (hOp : op = .neg ∨ op = .bitNot)
      (h : numbers.unary op a = some b) : AppliesTo numbers op (.number a) (.number b)
  | length (text : String) : AppliesTo numbers .len (.string text) (.number (numbers.length text))

/-- What a binary operator may make of the values of both its operands. -/
inductive Applies (numbers : Numbers N) : BinaryOp → Value N → Value N → Value N → Prop where
  | number {op : BinaryOp} {a b c : N} (hOp : op.isArithmetic = true ∨ op.isBitwise = true)
      (h : numbers.binary op a b = some c) :
      Applies numbers op (.number a) (.number b) (.number c)
  | concat (a b : String) : Applies numbers .concat (.string a) (.string b) (.string (a ++ b))
  | equality {op : BinaryOp} (hOp : op = .eq ∨ op = .ne) (v w : Value N) (outcome : Bool) :
      Applies numbers op v w (.boolean outcome)
  | numberOrder {op : BinaryOp} (hOp : op.isComparison = true) (a b : N) (outcome : Bool) :
      Applies numbers op (.number a) (.number b) (.boolean outcome)
  | stringOrder {op : BinaryOp} (hOp : op.isComparison = true) (a b : String) (outcome : Bool) :
      Applies numbers op (.string a) (.string b) (.boolean outcome)
  | and {v : Value N} (hTrue : v.isTruthy = true) (w : Value N) : Applies numbers .and v w w
  | or {v : Value N} (hFalse : v.isTruthy = false) (w : Value N) : Applies numbers .or v w w

/-- The left operand decides, so that the right one is not evaluated. -/
inductive Decides : BinaryOp → Value N → Prop where
  | and {v : Value N} (hFalse : v.isTruthy = false) : Decides .and v
  | or {v : Value N} (hTrue : v.isTruthy = true) : Decides .or v

/-- The parts that are evaluated: the operands that lead to each of them, and its value. -/
abbrev Trace (N : Type) := List (List Nat × Value N)

/-- The trace of an operand, seen from the operation. -/
def Trace.below (position : Nat) (trace : Trace N) : Trace N :=
  trace.map fun entry => (position :: entry.1, entry.2)

/-- An expression may evaluate to a value, with a trace. -/
inductive Evaluates (numbers : Numbers N) : Expr → Value N → Trace N → Prop where
  | literal {e : Expr} {value : Literal} {v : Value N} (hLiteral : e.literal? = some value)
      (hValue : numbers.value? value = some v) : Evaluates numbers e v [([], v)]
  | paren (mark : Mark) {inner : Expr} {v : Value N} {trace : Trace N}
      (h : Evaluates numbers inner v trace) : Evaluates numbers (.paren mark inner) v trace
  | unary (mark : Mark) {op : UnaryOp} {operand : Expr} {v result : Value N} {trace : Trace N}
      (h : Evaluates numbers operand v trace) (hResult : AppliesTo numbers op v result) :
      Evaluates numbers (.unary mark op operand) result (([], result) :: trace.below 0)
  | binary (mark : Mark) {op : BinaryOp} {left right : Expr} {v w result : Value N}
      {trace trace' : Trace N} (hLeft : Evaluates numbers left v trace)
      (hRight : Evaluates numbers right w trace') (hResult : Applies numbers op v w result) :
      Evaluates numbers (.binary mark op left right) result
        (([], result) :: (trace.below 0 ++ trace'.below 1))
  | decided (mark : Mark) {op : BinaryOp} {left : Expr} (right : Expr) {v : Value N}
      {trace : Trace N} (hLeft : Evaluates numbers left v trace) (hDecides : Decides op v) :
      Evaluates numbers (.binary mark op left right) v (([], v) :: trace.below 0)

variable {numbers : Numbers N} {e : Expr} {v w result : Value N} {trace : Trace N}

theorem Trace.mem_below {entry : List Nat × Value N} (h : entry ∈ trace) (position : Nat) :
    (position :: entry.1, entry.2) ∈ trace.below position :=
  List.mem_map.2 ⟨entry, h, rfl⟩

/-- A trace has the value of the whole expression. -/
theorem Evaluates.mem_trace (h : Evaluates numbers e v trace) : ([], v) ∈ trace := by
  induction h with
  | paren _ _ ih => exact ih
  | literal | unary | binary | decided => exact List.mem_cons_self

theorem Applies.of_and (h : Applies numbers .and v w result) :
    v.isTruthy = true ∧ result = w := by
  cases h with
  | number hOp | equality hOp => rcases hOp with hOp | hOp <;> cases hOp
  | numberOrder hOp | stringOrder hOp => cases hOp
  | and hTrue => exact ⟨hTrue, rfl⟩

end Evaluation

end LuaShape
