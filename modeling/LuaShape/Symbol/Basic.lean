/-!
# Symbols of a run

Every binding, function, table and module scope that a run meets is numbered
from one counter, so a number alone tells which thing is meant, and later things
have greater numbers.  The `Registry` remembers for each number what it stands
for.
-/

namespace LuaShape

/-- A local, parameter, `self` or instance binding. -/
structure SymbolId where
  index : Nat
deriving DecidableEq, Repr, Inhabited

/-- A function literal or function statement. -/
structure FunctionId where
  index : Nat
deriving DecidableEq, Repr, Inhabited

/-- A table constructor, or a table made up for a class. -/
structure TableId where
  index : Nat
deriving DecidableEq, Repr, Inhabited

/-- Tables are ordered by their numbers, so in the order in which they appeared. -/
instance : Ord TableId := ⟨compareOn TableId.index⟩

instance : Std.TransOrd TableId := inferInstanceAs (Std.TransCmp (compareOn TableId.index))

instance : Std.LawfulEqOrd TableId where
  compare_self {a} := by
    have h : Std.ReflCmp (compareOn TableId.index) := inferInstance
    exact h.compare_self
  eq_of_compare {a b} h := by
    have h' : compare a.index b.index = .eq := h
    cases a
    cases b
    simpa using h'

/-- The top scope of a module. -/
structure ModuleScopeId where
  index : Nat
deriving DecidableEq, Repr, Inhabited

/-- What a number stands for. -/
inductive SymbolKind where
  | local
  | parameter
  /-- The receiver of a method. -/
  | self
  /-- A local that holds the object a function builds. -/
  | object
  | function
  | table
  | module
deriving DecidableEq, Repr, Inhabited

namespace SymbolKind

/-- The word for a kind. -/
def word : SymbolKind → String
  | .local => "local"
  | .parameter => "parameter"
  | .self => "self"
  | .object => "instance"
  | .function => "function"
  | .table => "table"
  | .module => "module"

/-- Whether assignments through a binding of this kind make instance fields. -/
def isInstanceBinding : SymbolKind → Bool
  | .self | .object => true
  | _ => false

end SymbolKind

/-- What a number stands for, and a readable name. -/
structure SymbolRecord where
  kind : SymbolKind
  name : String
deriving DecidableEq, Repr, Inhabited

/-- The records of a run; the record of a number is at its position. -/
structure Registry where
  records : Array SymbolRecord := #[]
deriving DecidableEq, Inhabited

namespace Registry

/-- A registry without records. -/
def empty : Registry := {}

/-- The number of records, which is the next free number. -/
def size (r : Registry) : Nat := r.records.size

/-- Add a record under the next free number. -/
def mint (r : Registry) (kind : SymbolKind) (name : String) : Nat × Registry :=
  (r.size, ⟨r.records.push ⟨kind, name⟩⟩)

/-- The record of a number. -/
def record? (r : Registry) (index : Nat) : Option SymbolRecord := r.records[index]?

@[simp]
theorem size_mint (r : Registry) (kind : SymbolKind) (name : String) :
    (r.mint kind name).2.size = r.size + 1 := by
  simp [mint, size]

/-- A new record is found under the number it was given, and under no other. -/
theorem record?_mint (r : Registry) (kind : SymbolKind) (name : String) (index : Nat) :
    (r.mint kind name).2.record? index =
      if index = (r.mint kind name).1 then some ⟨kind, name⟩ else r.record? index := by
  by_cases h : index = r.records.size <;> simp [mint, record?, size, Array.getElem?_push, h]

/-- The kind of a binding. -/
def kindOf? (r : Registry) (id : SymbolId) : Option SymbolKind :=
  (r.record? id.index).map SymbolRecord.kind

/-- The name of a binding. -/
def nameOf? (r : Registry) (id : SymbolId) : Option String :=
  (r.record? id.index).map SymbolRecord.name

/-- Whether assignments through a binding make instance fields. -/
def isInstanceBinding (r : Registry) (id : SymbolId) : Bool :=
  ((r.kindOf? id).map SymbolKind.isInstanceBinding).getD false

/-- A record as text: kind, number and name. -/
def display (index : Nat) (record : SymbolRecord) : String :=
  "@" ++ record.kind.word ++ "(" ++ toString index ++ ")[" ++ record.name ++ "]"

end Registry

end LuaShape
