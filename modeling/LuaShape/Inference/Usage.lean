import LuaShape.Inference.State

/-!
# Types ruled out by use

A value that is called is taken to be a function, one that is indexed a table or
a string, and so on.  The uses of a name are collected over all its occurrences;
any other term keeps its own.  `narrow` drops the types that the uses rule out,
but never all of them: uses that contradict each other or the definitions say
nothing.
-/

namespace LuaShape.Inference

/-- What a use of a term is recorded under. -/
def usageKey (s : Inference) (id : TermId) : UsageKey :=
  match s.term id with
  | .reference ident => .ident ident
  | _ => .term id

/-- Record a use that allows only certain types. -/
def addUsage (s : Inference) (id : TermId) (allowed : List TypeTag) : Inference :=
  { s with usages := s.usages.upsert (s.usageKey id) fun old =>
      (old.getD TypeSet.usageDomain).filter fun tag => allowed.contains tag }

/-- The types that the recorded uses leave. -/
def usage? (s : Inference) (key : UsageKey) : Option TypeSet := s.usages.find? key

/-- The part of a type set that a constraint allows.  The instance mark says
nothing about the type and stays. -/
def allowedPart (constraint types : TypeSet) : TypeSet :=
  types.filter fun tag => tag = .instanceMark || constraint.contains tag.basic

theorem mem_allowedPart {constraint types : TypeSet} {tag : TypeTag} :
    tag ∈ allowedPart constraint types ↔
      tag ∈ types ∧ (tag = .instanceMark ∨ tag.basic ∈ constraint) := by
  simp [allowedPart]

/-- Apply a constraint unless it is contradictory or would leave no type. -/
def narrowBy (constraint types : TypeSet) : TypeSet :=
  if constraint.isEmpty || (allowedPart constraint types).withoutMark.isEmpty then types
  else allowedPart constraint types

/-- Drop the types that the uses under a key rule out. -/
def narrowUnder (s : Inference) (key : UsageKey) (types : TypeSet) : TypeSet :=
  match s.usage? key with
  | some constraint => narrowBy constraint types
  | none => types

/-- Drop the types that the uses of a term rule out. -/
def narrow (s : Inference) (id : TermId) (types : TypeSet) : TypeSet :=
  s.narrowUnder (s.usageKey id) types

end LuaShape.Inference
