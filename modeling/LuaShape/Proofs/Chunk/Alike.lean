import LuaShape.Proofs.Chunk.Relabel
import LuaShape.Proofs.Token.Rescan
import Mathlib.Data.List.Forall2

/-!
# Places that look alike

Two places in two token streams are `Alike` if the tokens left to read have the same words and
all numbers and places look the same under two views.  Whatever parsers ask about the next tokens
has the same answer at both.
-/

namespace LuaShape

/-- Two views, one for each of two streams, under which numbers stay alike when they grow and
places when they are merged. -/
structure Views where
  left : View
  right : View
  next : ∀ {i j : Nat}, left.number i = right.number j → left.number (i + 1) = right.number (j + 1)
  merge : ∀ {a b a' b' : Span}, left.place a = right.place a' → left.place b = right.place b' →
    left.place (a.merge b) = right.place (a'.merge b')

/-- Numbers are seen in both streams and places in neither. -/
def Views.unplaced : Views where
  left := .unplaced
  right := .unplaced
  next := congrArg Nat.succ
  merge _ _ := rfl

/-- Two things look alike, one under each view. -/
abbrev Views.Same {α : Type} (V : Views) (look : View → α → α) (a b : α) : Prop :=
  look V.left a = look V.right b

/-- Two tokens are the same word at places that look alike. -/
structure Token.Alike (V : Views) (t u : Token) : Prop where
  word : t.word = u.word
  place : V.left.place t.span = V.right.place u.span

namespace Token.Alike

variable {V : Views} {t u : Token}

theorem kind (h : Token.Alike V t u) : t.kind = u.kind := congrArg Word.kind h.word

theorem text (h : Token.Alike V t u) : t.text = u.text := congrArg Word.text h.word

end Token.Alike

/-- Two places in two streams that differ only in what two views leave out. -/
structure Cursor.Alike (V : Views) (c d : Cursor) : Prop where
  rest : List.Forall₂ (Token.Alike V) c.rest d.rest
  finish : V.left.place c.finish = V.right.place d.finish
  previous : V.left.place c.previous = V.right.place d.previous
  nextId : V.left.number c.nextId = V.right.number d.nextId

namespace Cursor.Alike

variable {V : Views} {c d : Cursor}

theorem refl (c : Cursor) : Cursor.Alike .unplaced c c :=
  ⟨List.forall₂_same.2 fun _ _ => ⟨rfl, rfl⟩, rfl, rfl, rfl⟩

variable (h : Cursor.Alike V c d)
include h

theorem length : c.rest.length = d.rest.length := h.rest.length_eq

theorem kindAhead? (n : Nat) : c.kindAhead? n = d.kindAhead? n := by
  have hRest := h.rest
  unfold Cursor.kindAhead?
  generalize c.rest = ts at hRest
  generalize d.rest = us at hRest
  induction hRest generalizing n with
  | nil => rfl
  | cons hToken _ ih =>
    cases n with
    | zero => exact congrArg some hToken.kind
    | succ n => exact ih n

theorem kind? : c.kind? = d.kind? := by
  have hRest := h.rest
  unfold Cursor.kind?
  generalize c.rest = ts at hRest
  generalize d.rest = us at hRest
  cases hRest with
  | nil => rfl
  | cons hToken _ => exact congrArg some hToken.kind

theorem isAt (kind : Token.Kind) : c.isAt kind = d.isAt kind := by
  rw [Cursor.isAt, h.kind?, Cursor.isAt]

theorem atBlockEnd : c.atBlockEnd = d.atBlockEnd := by
  rw [Cursor.atBlockEnd, h.kind?, Cursor.atBlockEnd]

theorem span : V.left.place c.span = V.right.place d.span := by
  have hRest := h.rest
  unfold Cursor.span
  generalize c.rest = ts at hRest
  generalize d.rest = us at hRest
  cases hRest with
  | nil => exact h.finish
  | cons hToken _ => exact hToken.place

/-- Either both streams are at their end, or two tokens come next that are alike. -/
theorem next : c.rest = [] ∧ d.rest = [] ∨
    ∃ t ts u us, c.rest = t :: ts ∧ d.rest = u :: us ∧ Token.Alike V t u := by
  have hRest := h.rest
  generalize c.rest = ts at hRest
  generalize d.rest = us at hRest
  cases hRest with
  | nil => exact .inl ⟨rfl, rfl⟩
  | cons hToken _ => exact .inr ⟨_, _, _, _, rfl, rfl, hToken⟩

theorem advance : Cursor.Alike V c.advance d.advance := by
  obtain ⟨ts, finish, previous, nextId⟩ := c
  obtain ⟨us, finish', previous', nextId'⟩ := d
  have hRest : List.Forall₂ (Token.Alike V) ts us := h.rest
  cases hRest with
  | nil => exact h
  | cons hToken hRest => exact ⟨hRest, h.finish, hToken.place, h.nextId⟩

end Cursor.Alike

end LuaShape
