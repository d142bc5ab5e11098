import LuaShape.Proofs.Chunk.Found
import LuaShape.Proofs.Token.Tiling

/-!
# Reading ends, and gets ahead

Loops and levels of the parser carry bounds, and none of them is ever reached
(`Parser.ends_chunk`, `Parser.ends_expr`).  What a routine reads is derived from the stream, so
the place it ends at lies further on in that stream; a routine that has to find something takes
up at least one token.

Tokens of a source are cut out of it between characters, and where the value of a string is cut out
of its text, both cuts lie between characters of the text.  Of tokens put together in another way
nothing of the kind can be said: a string of one character has no inside.
-/

namespace LuaShape

open List

namespace Token

open Pattern (openingBracket)

/-- The text of a token is what the source has at its place. -/
def LiesIn (source : String) (t : Token) : Prop :=
  ∃ before after, source = before ++ t.text ++ after ∧
    t.span = ⟨before.utf8ByteSize, (before ++ t.text).utf8ByteSize⟩

end Token

namespace Parser

/-- Routines of the parser; the flag says of a routine that it has to find something. -/
inductive Routine (levels : Nat) : Bool → {α : Type} → Parser α → Prop
  | skip : Routine levels false skip
  | eat (kind : Token.Kind) : Routine levels false (eat kind)
  | consume (kind : Token.Kind) : Routine levels true (consume kind)
  | identifier : Routine levels true identifier
  | exprList : Routine levels true (exprList (inner levels))
  | expr (power : Nat) : Routine levels true (operation (inner levels) power)
  | operand : Routine levels true (operand (inner levels))
  | simpleExpr : Routine levels true (simpleExpr (inner levels))
  | suffixedExpr : Routine levels true (suffixedExpr (inner levels))
  | primaryExpr : Routine levels true (primaryExpr (inner levels))
  | callArgs : Routine levels true (callArgs (inner levels))
  | tableFields : Routine levels true (tableFields (inner levels))
  | field : Routine levels true (field (inner levels))
  | functionBody (start : Span) : Routine levels true (functionBody (inner levels) start)
  | functionName : Routine levels true functionName
  | localName : Routine levels true localName
  | exprStatement : Routine levels true (exprStatement (inner levels))
  | statement : Routine levels true (statement (inner levels))
  | returnStatement : Routine levels true (returnStatement (inner levels))
  | block : Routine levels false (blockWith (inner levels))
  | chunk : Routine levels false chunk

variable {levels : Nat} {c c' : Cursor}

theorem Routine.leads {advances : Bool} {α : Type} {p : Parser α} (h : Routine levels advances p)
    {a : α} (hRun : p c = .ok (a, c')) :
    c.Leads c' ∧ (advances = true → c'.rest.length < c.rest.length) := by
  have hInner := inner_derives (V := .unplaced) levels
  have hFalse : False → c.rest.length ≤ levels := False.elim
  -- what is derived leads on, and takes up tokens if it has some
  have hDerives : ∀ {symbols : List Symbol}, c.Derives symbols c' →
      c.Leads c' ∧ (symbols.any Symbol.isFilled = true → c'.rest.length < c.rest.length) :=
    fun h => ⟨h.leads, h.length.2⟩
  cases h with
  | skip =>
    cases hRun
    exact ⟨.advance c, fun h => (by cases h)⟩
  | eat kind =>
    rw [eat_run] at hRun
    split at hRun <;> cases hRun
    · exact ⟨.advance c, fun h => (by cases h)⟩
    · exact ⟨.refl c, fun h => (by cases h)⟩
  | consume kind =>
    obtain ⟨rfl, hToken⟩ := (ends_consume (S := False) kind).of_ok hRun
    exact hDerives hToken
  | identifier =>
    obtain ⟨rfl, hName⟩ := (ends_identifier (S := False)).of_ok hRun
    exact hDerives hName
  | exprList => exact hDerives ((hInner.exprList (S := False) False.elim).of_ok hRun).2
  | expr power => exact hDerives ((hInner.operation power hFalse).of_ok hRun)
  | operand => exact hDerives ((hInner.operand hFalse 0).of_ok hRun)
  | simpleExpr => exact hDerives ((hInner.simpleExpr hFalse).of_ok hRun)
  | suffixedExpr => exact hDerives ((hInner.suffixedExpr hFalse).of_ok hRun).2
  | primaryExpr => exact hDerives ((hInner.primaryExpr hFalse).of_ok hRun).2
  | callArgs => exact hDerives ((hInner.callArgs hFalse).of_ok hRun)
  | tableFields => exact hDerives ((hInner.tableFields hFalse).of_ok hRun)
  | field => exact hDerives ((hInner.field (S := False) False.elim).of_ok hRun)
  | functionBody start => exact hDerives ((hInner.functionBody hFalse (s := start) rfl).of_ok hRun).1
  | functionName => exact hDerives ((ends_functionName (S := False)).of_ok hRun)
  | localName => exact hDerives ((ends_localName (S := False)).of_ok hRun)
  | exprStatement => exact hDerives ((hInner.exprStatement hFalse).of_ok hRun)
  | statement => exact hDerives ((hInner.statement hFalse).of_ok hRun)
  | returnStatement =>
    refine ⟨(hDerives ((hInner.returnStatement hFalse).of_ok hRun)).1, fun _ => ?_⟩
    cases (hInner.returnStatement hFalse).of_ok hRun with
    | phrase hProduction hInside hNil =>
      cases hNil
      exact hInside.length.2 (by cases hProduction <;> rfl)
  | block => exact hDerives ((hInner.blockWith hFalse).of_ok hRun)
  | chunk => exact hDerives ((ends_chunk c).of_ok hRun).1

end Parser

end LuaShape
