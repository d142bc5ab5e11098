import LuaShape.Proofs.Inference.Direct
import LuaShape.Proofs.Inference.Reached
import LuaShape.Proofs.Project.Chunks

/-!
# Resolution that shares nothing

The rules of type resolution ask for the types of other terms, one after the other, and
which term is asked for next depends on the answers so far.  Such a rule is a `Dialogue`.
A derivation of `Unshared` is a run of a dialogue in which every question is answered by a
run of its own: nothing is remembered, and a term that depends on itself has no finite
derivation.  The index is the number of terms in the longest chain of questions inside
questions.

Main result: `resolve_eq_of_unshared` — where such a run exists and its chains are not
longer than resolution follows, the memoizing resolver has the same answer.
-/

namespace LuaShape.Inference

/-! ## Dialogues -/

/-- A computation that may ask for the types of terms. -/
inductive Dialogue (α : Type) where
  | answer (a : α)
  | ask (id : TermId) (next : TypeSet → Dialogue α)

namespace Dialogue

variable {α β : Type}

/-- Go on with another dialogue. -/
def andThen : Dialogue α → (α → Dialogue β) → Dialogue β
  | .answer a, f => f a
  | .ask id next, f => .ask id fun types => (next types).andThen f

instance : Monad Dialogue where
  pure := .answer
  bind := andThen

/-- Ask for the types of a term. -/
def typesOf (id : TermId) : Dialogue TypeSet := .ask id .answer

end Dialogue

/-! ## Runs -/

/-- A dialogue ends with an answer, where the types of every term that is asked for are
found by following the rules for that term from the start.  No chain of terms, each asked
for on behalf of the one before, is longer than `depth`. -/
inductive Unshared (s : Inference) : (depth : Nat) → {α : Type} → Dialogue α → α → Prop where
  | answer {depth : Nat} {α : Type} (a : α) : Unshared s depth (.answer a) a
  | ask {depth : Nat} {α : Type} {id : TermId} {next : TypeSet → Dialogue α} {raw : TypeSet}
      {a : α} (asked : Unshared s depth (s.termRule Dialogue.typesOf (s.term id)) raw)
      (rest : Unshared s (depth + 1) (next (s.narrow id raw)) a) :
      Unshared s (depth + 1) (.ask id next) a

variable {s : Inference} {depth : Nat} {α β : Type}

theorem unshared_answer_iff {a b : α} : Unshared s depth (.answer a) b ↔ a = b := by
  constructor
  · intro h
    cases h
    rfl
  · rintro rfl
    exact .answer a

theorem unshared_andThen_iff {x : Dialogue α} {f : α → Dialogue β} {b : β} :
    Unshared s depth (x.andThen f) b ↔
      ∃ a, Unshared s depth x a ∧ Unshared s depth (f a) b := by
  induction x with
  | answer a => simp [Dialogue.andThen, unshared_answer_iff]
  | ask id next ih =>
    constructor
    · intro h
      cases h with
      | ask asked rest =>
        obtain ⟨a, hFirst, hSecond⟩ := (ih _).1 rest
        exact ⟨a, .ask asked hFirst, hSecond⟩
    · rintro ⟨a, hFirst, hSecond⟩
      cases hFirst with
      | ask asked rest => exact .ask asked ((ih _).2 ⟨a, rest, hSecond⟩)

/-- A dialogue ends with the answers of a computation that may fail, and no others. -/
def answers (s : Inference) (depth : Nat) : Correspondence Dialogue Option fun _ => True where
  Rel x y := ∀ a, Unshared s depth x a ↔ y = some a
  pure _ := fun b => by
    rw [Option.pure_def, Option.some.injEq]
    exact unshared_answer_iff
  bind := by
    intro x y f g hx hf b
    rw [Option.bind_eq_bind, Option.bind_eq_some_iff]
    refine unshared_andThen_iff.trans (exists_congr fun a => ?_)
    rw [hx, hf a trivial]

/-- Running without sharing is direct resolution. -/
theorem unshared_typesOf_iff {id : TermId} {types : TypeSet} :
    Unshared s depth (.typesOf id) types ↔ s.directTypes depth id = some types := by
  induction depth generalizing id types with
  | zero =>
    constructor
    · intro h
      cases h
    · intro h
      cases h
  | succ depth ih =>
    have hParts : ∀ part, True →
        (s.answers depth).Rel (.typesOf part) (s.directTypes depth part) := fun _ _ _ => ih
    have hRule := (s.answers depth).termRule (.refl s) hParts id trivial
    rw [directTypes, Option.map_eq_some_iff]
    constructor
    · intro h
      cases h with
      | ask asked rest => exact ⟨_, (hRule _).1 asked, unshared_answer_iff.1 rest⟩
    · rintro ⟨raw, hRaw, hTypes⟩
      exact .ask ((hRule raw).2 hRaw) (unshared_answer_iff.2 hTypes)

/-- **The memo changes no answer.**  If the types of a term are found without a memo, and
no chain of terms on the way is longer than 201, resolution finds the same types. -/
theorem resolve_eq_of_unshared (s : Inference) (id : TermId) {types : TypeSet} {depth : Nat}
    (hDepth : depth ≤ 201) (h : Unshared s depth (.typesOf id) types) :
    s.resolve id = types :=
  s.resolve_eq_of_directTypes hDepth (unshared_typesOf_iff.1 h)

set_option maxRecDepth 100000 in
/-- The values of a name are asked for through another name and then again. -/
theorem resolve_of_values_asked_for_twice :
    let files : List SourceFile := [⟨"a", "local x = 1 x = 'a' local y = x return y and x"⟩]
    let s := readChunks [] (files.filterMap SourceFile.chunk?)
    Unshared s 4 (.typesOf ⟨8⟩) (.of [.number, .string]) ∧
      s.resolve ⟨8⟩ = .of [.number, .string] := by
  intro files s
  have hDirect : s.directTypes 4 ⟨8⟩ = some (.of [.number, .string]) := by
    decide +kernel
  have hRun := unshared_typesOf_iff.2 hDirect
  exact ⟨hRun, s.resolve_eq_of_unshared ⟨8⟩ (by decide) hRun⟩

end LuaShape.Inference
