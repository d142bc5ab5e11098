import LuaShape.Proofs.Chunk.Deriving
import LuaShape.Proofs.Chunk.Found
import LuaShape.Proofs.Token.Neighbours

/-!
# Expressions and the text they cover

The span of an expression is the part of the source that makes it: parsed on its own, that part
gives the expression again, up to numbers and a shift.  Three facts are put together here.

* An expression is read again from its tokens alone (`Parser.foundIn_of_chunk`).
* Tokens that stand next to one another are the tokens of the text from the first to the last of
  them (`Token.exists_text`).
* Parsing sees nothing of a shift (`Parser.ends_expr`).
-/

namespace LuaShape

open List

/-! ## The text of some tokens -/

/-- What tiles a range is ordered. -/
theorem Span.Tile.pairwise {first last : Nat} {spans : List Span} (h : Span.Tile last first spans) :
    (∀ s ∈ spans, first ≤ s.start) ∧ spans.Pairwise fun s t => s.stop ≤ t.start := by
  induction spans generalizing first with
  | nil => simp
  | cons s spans ih =>
    obtain ⟨rfl, hLt, hRest⟩ := h
    obtain ⟨hAfter, hPairs⟩ := ih hRest
    refine ⟨fun t ht => ?_, pairwise_cons.mpr ⟨hAfter, hPairs⟩⟩
    rcases mem_cons.mp ht with rfl | ht
    · exact Nat.le_refl _
    · exact Nat.le_trans (Nat.le_of_lt hLt) (hAfter t ht)

namespace Token

theorem ordered_stream (source : String) : Ordered (stream source) := by
  have hPieces : ((pieces source).map Piece.span).Pairwise fun s t => s.stop ≤ t.start :=
    (cut_pieces source).tile.pairwise.2
  have hStream : ((stream source).map Token.span).Pairwise fun s t => s.stop ≤ t.start := by
    rw [map_span_stream]
    exact hPieces.sublist (filter_sublist.map _)
  exact pairwise_map.mp hStream

/-- A token that starts further on. -/
def shift (offset : Nat) (t : Token) : Token := { t with start := t.start + offset }

theorem Piece.token?_shift (offset : Nat) (p : Piece) :
    (p.shift offset).token? = p.token?.map (Token.shift offset) := by
  obtain ⟨kind, start, text⟩ := p
  cases kind <;> rfl

theorem span_of_token? {p : Piece} {t : Token} (h : p.token? = some t) : t.span = p.span := by
  obtain ⟨kind, start, text⟩ := p
  cases kind with
  | none => cases h
  | some kind =>
    cases h
    rfl

variable {source : String}

/-- Some pieces of a source, one behind the other, are the pieces of the text they cover. -/
theorem pieces_join {front ps behind : List Piece} (h : pieces source = front ++ (ps ++ behind)) :
    (pieces (Piece.join ps)).map (Piece.shift (Piece.join front).utf8ByteSize) = ps := by
  have hCut := cut_pieces source
  rw [h] at hCut
  have hFront := hCut.drop.front
  exact ((cut_pieces (Piece.join ps)).shift _).unique hFront

theorem stream_join {front ps behind : List Piece} (h : pieces source = front ++ (ps ++ behind)) :
    (stream (Piece.join ps)).map (Token.shift (Piece.join front).utf8ByteSize) =
      ps.filterMap Piece.token? := by
  have hTokens : ∀ (offset : Nat) (qs : List Piece),
      (qs.filterMap Piece.token?).map (Token.shift offset) =
        (qs.map (Piece.shift offset)).filterMap Piece.token? := by
    intro offset qs
    rw [map_filterMap, filterMap_map]
    exact congrArg (List.filterMap · qs) (funext fun p => (Piece.token?_shift offset p).symm)
  rw [stream, hTokens, pieces_join h]

/-- A token starts where the pieces in front of it end. -/
theorem start_of_pieces {front behind : List Piece} {p : Piece}
    (h : pieces source = front ++ p :: behind) : p.start = (Piece.join front).utf8ByteSize := by
  have hCut := cut_pieces source
  rw [h] at hCut
  rw [hCut.drop.head.1, Nat.zero_add]

theorem join_pieces (source : String) : Piece.join (pieces source) = source := by
  rw [(cut_pieces source).join_eq, String.ofList_toList]

/-- The pieces from the first to the last of some tokens. -/
theorem exists_pieces {ps : List Piece} {before ts after : List Token} {first last : Token}
    (h : ps.filterMap Piece.token? = before ++ (ts ++ after)) (hFirst : ts.head? = some first)
    (hLast : ts.getLast? = some last) : ∃ front middle behind, ps = front ++ (middle ++ behind) ∧
      middle.filterMap Piece.token? = ts ∧ (∃ p rest, middle = p :: rest ∧ p.token? = some first) ∧
      ∃ rest p, middle = rest ++ [p] ∧ p.token? = some last := by
  obtain ⟨front, qs, rfl, -, hRest⟩ := filterMap_eq_append_iff.mp h
  obtain ⟨qs, behind, rfl, hTokens, -⟩ := filterMap_eq_append_iff.mp hRest
  -- pieces before the first token are left to the front, pieces behind the last one to the rest
  obtain ⟨ts', hts⟩ := head?_eq_some_iff.mp hFirst
  obtain ⟨skipped, p, qs, rfl, hSkipped, hp, hTail⟩ :=
    filterMap_eq_cons_iff.mp (hTokens.trans hts)
  obtain ⟨init, hInit⟩ := getLast?_eq_some_iff.mp hLast
  have hTokens' : (p :: qs).filterMap Piece.token? = init ++ [last] := by
    rw [filterMap_cons, hp, hTail, ← hInit, hts]
  obtain ⟨middle, rest, hSplit, hMiddle, hRest⟩ := filterMap_eq_append_iff.mp hTokens'
  obtain ⟨skipped', p', rest, rfl, hSkipped', hp', -⟩ := filterMap_eq_cons_iff.mp hRest
  have hNone : skipped'.filterMap Piece.token? = [] := filterMap_eq_nil_iff.mpr hSkipped'
  refine ⟨front ++ skipped, middle ++ skipped' ++ [p'], rest ++ behind, ?_, ?_, ?_, _, p', rfl, hp'⟩
  · simp [hSplit]
  · simp [hMiddle, hNone, hp', hInit]
  · have hFront : p :: qs = middle ++ skipped' ++ [p'] ++ rest := by simp [hSplit]
    cases hWhole : middle ++ skipped' ++ [p'] with
    | nil => simp at hWhole
    | cons x xs =>
      rw [hWhole, cons_append, List.cons.injEq] at hFront
      exact ⟨x, xs, rfl, hFront.1 ▸ hp⟩

/-- **Tokens that stand next to one another are the tokens of the text from the first to the last
of them.** -/
theorem exists_text {before ts after : List Token} {first last : Token}
    (h : stream source = before ++ (ts ++ after)) (hFirst : ts.head? = some first)
    (hLast : ts.getLast? = some last) : ∃ front text behind, source = front ++ text ++ behind ∧
      first.span.start = front.utf8ByteSize ∧ last.span.stop = (front ++ text).utf8ByteSize ∧
      (stream text).map (Token.shift front.utf8ByteSize) = ts := by
  obtain ⟨front, middle, behind, hPieces, hTokens, ⟨p, rest, hHead, hp⟩, ⟨rest', p', hEnd, hp'⟩⟩ :=
    exists_pieces h hFirst hLast
  refine ⟨Piece.join front, Piece.join middle, Piece.join behind, ?_, ?_, ?_, ?_⟩
  · rw [String.append_assoc, ← Piece.join_append, ← Piece.join_append, ← hPieces, join_pieces]
  · have hSplit : pieces source = front ++ p :: (rest ++ behind) := by
      rw [hPieces, hHead, cons_append]
    rw [span_of_token? hp]
    exact start_of_pieces hSplit
  · have hSplit : pieces source = (front ++ rest') ++ p' :: behind := by
      rw [hPieces, hEnd]
      simp
    have hJoin : Piece.join middle = Piece.join rest' ++ p'.text := by
      rw [hEnd, Piece.join_append, Piece.join_cons]
      exact congrArg (Piece.join rest' ++ ·) String.append_empty
    rw [span_of_token? hp', Piece.span, start_of_pieces hSplit, hJoin, Piece.join_append]
    simp only [String.utf8ByteSize_append, Nat.add_assoc]
  · rw [stream_join hPieces, hTokens]

end Token

/-! ## Shifted texts -/

/-- Places are seen, numbers are not. -/
def View.unnumbered : View := ⟨fun _ => 0, id⟩

/-- Two streams of which one stands further on. -/
def Views.shifted (offset : Nat) : Views where
  left := .shifted offset
  right := .unnumbered
  next _ := rfl
  merge {a b a' b'} hLeft hRight := by
    obtain rfl : _ = a' := hLeft
    obtain rfl : _ = b' := hRight
    simp [View.shifted, View.unnumbered, Span.merge]

theorem Token.forall₂_alike_shift (offset : Nat) (ts : List Token) :
    List.Forall₂ (Token.Alike (.shifted offset)) ts (ts.map (Token.shift offset)) := by
  rw [forall₂_map_right_iff]
  refine forall₂_same.mpr fun t _ => ⟨rfl, ?_⟩
  simp [Views.shifted, View.shifted, View.unnumbered, Token.span, Token.shift]
  omega

namespace Expr

/-- Tokens that make an expression still make it if they stand at another place. -/
theorem exists_run_of_rereads {text : String} {offset : Nat} {ts : List Token} {e : Expr}
    (h : Parser.Rereads ts e) (hTokens : (Token.stream text).map (Token.shift offset) = ts) :
    ∃ e' c', Parser.expr.run (Cursor.ofSource text) = .ok (e', c') ∧ c'.rest = [] ∧
      e'.relabel (.shifted offset) = e.relabel .unnumbered := by
  obtain ⟨id, hRun⟩ := h
  obtain ⟨c', hOk, hNil⟩ :=
    hRun ⟨offset, offset⟩ ⟨text.utf8ByteSize + offset, text.utf8ByteSize + offset⟩
  have hStart : Cursor.Alike (.shifted offset) (Cursor.ofSource text)
      ⟨ts, ⟨text.utf8ByteSize + offset, text.utf8ByteSize + offset⟩, ⟨offset, offset⟩, id⟩ :=
    { rest := hTokens ▸ Token.forall₂_alike_shift offset (Token.stream text)
      finish := rfl
      previous := congrArg₂ Span.mk (Nat.zero_add offset) (Nat.zero_add offset)
      nextId := rfl }
  have hRuns := Parser.ends_expr _ _ hStart
  rw [hOk] at hRuns
  unfold StateT.run
  generalize Parser.expr (Cursor.ofSource text) = r at hRuns ⊢
  cases hRuns with
  | ok hEnd hSame _ =>
    refine ⟨_, _, rfl, ?_, hSame⟩
    rw [← length_eq_zero_iff, hEnd.length, hNil, length_nil]

/-- **Spans are faithful.**  The span of every expression of a chunk lies between characters, and
the part of the source it covers, parsed as an expression, gives that expression again with no
token left, up to numbers and a shift of all places by where the span starts. -/
theorem parse_span {source : String} {chunk : Chunk} {e : Expr}
    (h : Chunk.parse source = .ok chunk) (he : .expr e ∈ chunk.parts) :
    ∃ before text after, source = before ++ text ++ after ∧
      e.span = ⟨before.utf8ByteSize, (before ++ text).utf8ByteSize⟩ ∧
      String.Pos.Raw.IsValid source ⟨e.span.start⟩ ∧
      String.Pos.Raw.IsValid source ⟨e.span.stop⟩ ∧
      ∃ e' c', Parser.expr.run (Cursor.ofSource text) = .ok (e', c') ∧ c'.rest = [] ∧
        e'.relabel (.shifted e.span.start) = e.relabel .unnumbered := by
  obtain ⟨c', hRun⟩ : ∃ c', Parser.chunk (Cursor.ofSource source) = .ok (chunk, c') := by
    unfold Chunk.parse StateT.run at h
    generalize Parser.chunk (Cursor.ofSource source) = r at h ⊢
    cases r with
    | error err => cases h
    | ok r =>
        cases h
        exact ⟨r.2, rfl⟩
  obtain ⟨before, ts, after, hStream, hRereads, first, last, hFirst, hLast, hSpan⟩ :=
    Parser.foundIn_of_chunk (c := Cursor.ofSource source) (Token.ordered_stream source) hRun e he
  obtain ⟨front, text, behind, rfl, hStart, hStop, hTokens⟩ :=
    Token.exists_text hStream hFirst hLast
  have hPlace : e.span = ⟨front.utf8ByteSize, (front ++ text).utf8ByteSize⟩ := by
    rw [hSpan, hStart, hStop]
  refine ⟨front, text, behind, rfl, hPlace, ?_, ?_, ?_⟩
  · rw [hPlace, String.append_assoc]
    exact Token.isValid_of_append _ _
  · rw [hPlace]
    exact Token.isValid_of_append _ _
  · rw [hPlace]
    exact exists_run_of_rereads hRereads hTokens

/-- Whether a part is an expression with the given span. -/
def covers (span : Span) : Node → Bool
  | .expr e => e.span = span
  | _ => false

/-- A call on a call, both without parentheses, and a letter of two bytes. -/
def textOfBareCalls : String := "x=f'é'\x7b-c^2\x7d"

set_option maxRecDepth 100000 in
/-- The operand `-c^2` of a table that is an argument. -/
theorem parse_span_operand : ∃ chunk e, Chunk.parse textOfBareCalls = .ok chunk ∧
    .expr e ∈ chunk.parts ∧ e.span = ⟨8, 12⟩ ∧
    ∃ before text after, textOfBareCalls = before ++ text ++ after ∧
      e.span = ⟨before.utf8ByteSize, (before ++ text).utf8ByteSize⟩ ∧
      String.Pos.Raw.IsValid textOfBareCalls ⟨e.span.start⟩ ∧
      String.Pos.Raw.IsValid textOfBareCalls ⟨e.span.stop⟩ ∧
      ∃ e' c', Parser.expr.run (Cursor.ofSource text) = .ok (e', c') ∧ c'.rest = [] ∧
        e'.relabel (.shifted e.span.start) = e.relabel .unnumbered := by
  have hSome : ((Chunk.parse textOfBareCalls).toOption.any fun chunk =>
      chunk.parts.any (covers ⟨8, 12⟩)) = true := by decide +kernel
  cases hParse : Chunk.parse textOfBareCalls with
  | error err =>
      rw [hParse] at hSome
      cases hSome
  | ok chunk =>
      rw [hParse] at hSome
      obtain ⟨n, hMem, hCovers⟩ := any_eq_true.mp hSome
      cases n with
      | expr e => exact ⟨chunk, e, rfl, hMem, of_decide_eq_true hCovers, parse_span hParse hMem⟩
      | field | function | block | statement => cases hCovers

end Expr

end LuaShape
