import LuaShape.Symbol.Basic

/-!
# Tags of possible types

A tag names one way a value may be: one of Lua's types, a literal boolean, a
particular table or function, or the mark that the classes named beside it are
meant as instances.  Tags are ordered by kind and then by number, and every type
set lists its tags in that order.
-/

namespace LuaShape

/-- One possible type of a value. -/
inductive TypeTag where
  | nil
  | boolean
  | number
  | string
  | function
  | table
  /-- The literal `true`. -/
  | true
  /-- The literal `false`. -/
  | false
  | tableRef (id : TableId)
  | functionRef (id : FunctionId)
  /-- The value is an instance of the classes in the same set. -/
  | instanceMark
deriving DecidableEq, Repr, Inhabited

namespace TypeTag

/-- The place of a kind of tag in the order. -/
def rank : TypeTag → Nat
  | .nil => 0
  | .boolean => 1
  | .number => 2
  | .string => 3
  | .function => 4
  | .table => 5
  | .true => 6
  | .false => 7
  | .tableRef _ => 8
  | .functionRef _ => 9
  | .instanceMark => 10

/-- The number a tag carries, zero when it carries none. -/
def index : TypeTag → Nat
  | .tableRef id => id.index
  | .functionRef id => id.index
  | _ => 0

/-- Kind and number together determine a tag. -/
theorem ext_rank_index {a b : TypeTag} (hr : a.rank = b.rank) (hi : a.index = b.index) :
    a = b := by
  cases a <;> cases b <;> simp_all [rank, index]
  · rename_i x y
    cases x
    cases y
    simp_all
  · rename_i x y
    cases x
    cases y
    simp_all

instance : Ord TypeTag := ⟨compareLex (compareOn rank) (compareOn index)⟩

instance : Std.TransOrd TypeTag :=
  inferInstanceAs (Std.TransCmp (compareLex (compareOn rank) (compareOn index)))

instance : Std.LawfulEqOrd TypeTag where
  compare_self {a} := by
    have h : Std.ReflCmp (compareLex (compareOn rank) (compareOn index)) := inferInstance
    exact h.compare_self
  eq_of_compare {a b} h := by
    have h' : (compare a.rank b.rank).then (compare a.index b.index) = .eq := h
    rw [Ordering.then_eq_eq] at h'
    exact ext_rank_index (Nat.compare_eq_eq.1 h'.1) (Nat.compare_eq_eq.1 h'.2)

/-- The one of Lua's types a tag belongs to. -/
def basic : TypeTag → TypeTag
  | .true | .false => .boolean
  | .tableRef _ => .table
  | .functionRef _ => .function
  | tag => tag

/-- Whether every value of a tag counts as true, or none does; nothing where both
kinds occur. -/
def truthiness : TypeTag → Option Bool
  | .nil | .false => some Bool.false
  | .boolean => none
  | _ => some Bool.true

/-- A tag as text. -/
def display : TypeTag → String
  | .nil => "nil"
  | .boolean => "boolean"
  | .number => "number"
  | .string => "string"
  | .function => "function"
  | .table => "table"
  | .true => "true"
  | .false => "false"
  | .tableRef id => "table#" ++ toString id.index
  | .functionRef id => "function#" ++ toString id.index
  | .instanceMark => "@instance"

end TypeTag

end LuaShape
