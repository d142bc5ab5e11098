import LuaShape.Proofs.Chunk.Deriving
import LuaShape.Proofs.Token.Neighbours

/-!
# The layout of a text does not matter

The texts of all tokens of a source, each on a line of its own, make a source with the same
words; parsing it gives the same tree up to places, or fails for the same reason.  Comments,
blanks and the absence of blanks are all covered, and errors of the scanner are words like any
other.
-/

namespace LuaShape

/-- What is seen of the outcome of parsing. -/
def View.outcome (v : View) : Except ParseError Chunk → Except ParseError Chunk
  | .ok chunk => .ok (chunk.relabel v)
  | .error e => .error (e.relabel v)

/-- Tokens with the same words differ at most in their places. -/
theorem Token.forall₂_alike_of_words {ts us : List Token} (h : ts.map word = us.map word) :
    List.Forall₂ (Token.Alike .unplaced) ts us := by
  induction ts generalizing us with
  | nil =>
    obtain rfl := List.map_eq_nil_iff.mp h.symm
    exact .nil
  | cons t ts ih =>
    obtain ⟨u, us, rfl⟩ : ∃ u us', us = u :: us' := by
      cases us with
      | nil => cases h
      | cons u us => exact ⟨u, us, rfl⟩
    rw [List.map_cons, List.map_cons, List.cons.injEq] at h
    exact .cons ⟨h.1, rfl⟩ (ih h.2)

/-- Parsing sees only the words of a text, places apart. -/
theorem Chunk.outcome_eq_of_words {source source' : String}
    (h : (Token.stream source).map Token.word = (Token.stream source').map Token.word) :
    View.unplaced.outcome (parse source) = View.unplaced.outcome (parse source') := by
  have hStart : Cursor.Alike .unplaced (Cursor.ofSource source) (Cursor.ofSource source') :=
    ⟨Token.forall₂_alike_of_words h, rfl, rfl, rfl⟩
  have hRuns := Parser.ends_chunk _ _ hStart
  unfold parse StateT.run
  generalize Parser.chunk (Cursor.ofSource source) = r at hRuns ⊢
  generalize Parser.chunk (Cursor.ofSource source') = r' at hRuns ⊢
  cases hRuns with
  | ok _ hChunk => exact congrArg Except.ok hChunk
  | error hError => exact congrArg Except.error hError

/-- **Layout is irrelevant.**  With each token on a line of its own, a text has the same words,
and parsing gives the same tree up to places, or the same error up to its place. -/
theorem Chunk.parse_lines (source : String) :
    (Token.stream (Token.lines (Token.stream source))).map Token.word =
      (Token.stream source).map Token.word ∧
    View.unplaced.outcome (parse (Token.lines (Token.stream source))) =
      View.unplaced.outcome (parse source) :=
  ⟨Token.words_lines source, outcome_eq_of_words (Token.words_lines source)⟩

end LuaShape
