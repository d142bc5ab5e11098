/-!
# Places in a source text

A `Span` is a range of byte offsets into the UTF-8 form of a source text.
Offsets are counted in bytes and lines in line feeds, so both can be computed
while walking the characters once.
-/

namespace LuaShape

/-- The byte range from `start` up to, not including, `stop`. -/
structure Span where
  start : Nat
  stop : Nat
deriving DecidableEq, Repr, Inhabited

namespace Span

/-- The empty range at the very beginning of a text. -/
def origin : Span := ⟨0, 0⟩

/-- The least range that covers both. -/
def merge (a b : Span) : Span := ⟨min a.start b.start, max a.stop b.stop⟩

/-- Every byte of `inner` lies in `outer`. -/
def Within (inner outer : Span) : Prop :=
  outer.start ≤ inner.start ∧ inner.stop ≤ outer.stop

instance (inner outer : Span) : Decidable (Within inner outer) :=
  inferInstanceAs (Decidable (_ ∧ _))

theorem within_merge_left (a b : Span) : Within a (a.merge b) :=
  ⟨Nat.min_le_left _ _, Nat.le_max_left _ _⟩

theorem within_merge_right (a b : Span) : Within b (a.merge b) :=
  ⟨Nat.min_le_right _ _, Nat.le_max_right _ _⟩

end Span

namespace Source

/-- The number of line feeds among the first `bytes` bytes. -/
def lineFeedsBefore : Nat → List Char → Nat
  | _, [] => 0
  | bytes, c :: cs =>
    if bytes = 0 then 0
    else (if c = '\n' then 1 else 0) + lineFeedsBefore (bytes - c.utf8Size) cs

/-- The line, counted from one, on which a span starts. -/
def lineOf (text : String) (span : Span) : Nat :=
  lineFeedsBefore span.start text.toList + 1

end Source

end LuaShape
