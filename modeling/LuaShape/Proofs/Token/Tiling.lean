import LuaShape.Proofs.Token.LongestMatch

/-!
# The pieces of a source

A source is cut into pieces by scanning again and again.  `Cut` says so without the limit
that the executable definition carries; what holds of one step of scanning then holds of all
pieces by induction on the cut.

The main result says what the pieces are, without scanning: they follow on one another from
the first byte of the source to its last, each is non-empty and lies between characters, and
each is a longest match or a fault of what is left of the text (`pieces_longest_or_fault`).
-/

namespace LuaShape

open List

/-- Non-empty spans that follow on one another from `first` to `last`. -/
def Span.Tile (last : Nat) : (first : Nat) → List Span → Prop
  | first, [] => first = last
  | first, s :: rest => s.start = first ∧ s.start < s.stop ∧ Tile last s.stop rest

namespace Token

/-- The text that pieces cover one after the other. -/
def Piece.join (ps : List Piece) : String := String.join (ps.map Piece.text)

theorem Piece.join_cons (p : Piece) (ps : List Piece) :
    Piece.join (p :: ps) = p.text ++ Piece.join ps := by
  rw [Piece.join, map_cons, String.join_cons, Piece.join]

theorem Piece.join_append (ps qs : List Piece) :
    Piece.join (ps ++ qs) = Piece.join ps ++ Piece.join qs := by
  rw [Piece.join, map_append, String.join_append, Piece.join, Piece.join]

/-- A text that starts at an offset, cut into pieces by scanning. -/
inductive Cut : Nat → List Char → List Piece → Prop where
  | nil (offset : Nat) : Cut offset [] []
  | cons {offset n : Nat} {cs : List Char} {k : Option Kind} {ps : List Piece}
      (hNonempty : cs ≠ []) (hScan : scan cs = (k, n))
      (hRest : Cut (offset + (String.ofList (cs.take n)).utf8ByteSize) (cs.drop n) ps) :
      Cut offset cs (⟨k, offset, String.ofList (cs.take n)⟩ :: ps)

variable {offset : Nat} {cs : List Char} {ps : List Piece}

theorem cut_piecesFrom {limit : Nat} (hLimit : cs.length ≤ limit) :
    Cut offset cs (piecesFrom limit offset cs) := by
  induction limit generalizing offset cs with
  | zero =>
    obtain rfl := length_eq_zero_iff.mp (Nat.le_zero.mp hLimit)
    exact .nil offset
  | succ limit ih =>
    by_cases hNonempty : cs = []
    · subst hNonempty
      exact .nil offset
    · have hScan : scan cs = ((scan cs).1, (scan cs).2) := rfl
      have hBound := pos_of_scan hNonempty hScan
      rw [piecesFrom_succ hNonempty hScan]
      refine .cons hNonempty hScan (ih ?_)
      rw [length_drop]
      omega

theorem cut_pieces (source : String) : Cut 0 source.toList (pieces source) :=
  cut_piecesFrom (Nat.le_refl _)

namespace Cut

/-- A text is cut in one way only. -/
theorem unique {ps' : List Piece} (h : Cut offset cs ps) (h' : Cut offset cs ps') : ps = ps' := by
  induction h generalizing ps' with
  | nil =>
    cases h' with
    | nil => rfl
    | cons hNonempty => exact absurd rfl hNonempty
  | cons hNonempty hScan _ ih =>
    cases h' with
    | nil => exact absurd rfl hNonempty
    | cons _ hScan' hRest' =>
      rw [hScan] at hScan'
      cases hScan'
      rw [ih hRest']

/-- The pieces of a text cover it. -/
theorem join_eq (h : Cut offset cs ps) : Piece.join ps = String.ofList cs := by
  induction h with
  | nil => rfl
  | cons _ _ _ ih =>
    rw [Piece.join_cons, ih, ← String.ofList_append, take_append_drop]

/-- The first piece is what scanning finds. -/
theorem head {p : Piece} (h : Cut offset cs (p :: ps)) :
    p.start = offset ∧ p.text ≠ "" ∧ scan cs = (p.kind, p.text.toList.length) := by
  cases h with
  | @cons _ n _ _ _ hNonempty hScan hRest =>
    obtain ⟨hPos, hLe⟩ := pos_of_scan hNonempty hScan
    have hLength : (cs.take n).length = n := by rw [length_take, Nat.min_eq_left hLe]
    refine ⟨rfl, fun hEmpty => ?_, ?_⟩
    · have hNil : (String.ofList (cs.take n)).toList = "".toList := congrArg String.toList hEmpty
      rw [String.toList_ofList] at hNil
      rw [hNil] at hLength
      exact absurd hLength (Nat.ne_of_lt hPos)
    · rw [String.toList_ofList, hLength]
      exact hScan

theorem tile (h : Cut offset cs ps) :
    Span.Tile (offset + (String.ofList cs).utf8ByteSize) offset (ps.map Piece.span) := by
  induction h with
  | nil => rfl
  | @cons offset n cs _ _ hNonempty hScan hRest ih =>
    have hText := (Cut.cons hNonempty hScan hRest).head.2.1
    have hSize : (String.ofList cs).utf8ByteSize = (String.ofList (cs.take n)).utf8ByteSize +
        (String.ofList (cs.drop n)).utf8ByteSize := by
      rw [← String.utf8ByteSize_append, ← String.ofList_append, take_append_drop]
    refine ⟨rfl, Nat.lt_add_of_pos_right (Nat.pos_of_ne_zero fun hZero => ?_), ?_⟩
    · exact hText (String.utf8ByteSize_eq_zero_iff.mp hZero)
    rw [hSize, ← Nat.add_assoc]
    exact ih

theorem tail {p : Piece} (h : Cut offset cs (p :: ps)) :
    Cut (offset + p.text.utf8ByteSize) (Piece.join ps).toList ps := by
  cases h with
  | cons _ _ hRest =>
    rw [hRest.join_eq, String.toList_ofList]
    exact hRest

/-- What is left behind some of the pieces is cut into the others. -/
theorem drop {before after : List Piece} (h : Cut offset cs (before ++ after)) :
    Cut (offset + (Piece.join before).utf8ByteSize) (Piece.join after).toList after := by
  induction before generalizing offset cs with
  | nil =>
    rw [nil_append] at h
    rw [h.join_eq, String.toList_ofList]
    exact h
  | cons p before ih =>
    rw [Piece.join_cons, String.utf8ByteSize_append, ← Nat.add_assoc]
    exact ih h.tail

/-- One more piece in front. -/
theorem of_scan {k : Option Kind} {text : String} {rest : List Char} (hText : text ≠ "")
    (hScan : scan (text.toList ++ rest) = (k, text.toList.length))
    (hRest : Cut (offset + text.utf8ByteSize) rest ps) :
    Cut offset (text.toList ++ rest) (⟨k, offset, text⟩ :: ps) := by
  have hNonempty : text.toList ++ rest ≠ [] := by
    simpa using fun hNil => absurd hNil hText
  have hTake : String.ofList ((text.toList ++ rest).take text.toList.length) = text := by
    rw [take_left, String.ofList_toList]
  have hCut : Cut offset (text.toList ++ rest)
      (⟨k, offset, String.ofList ((text.toList ++ rest).take text.toList.length)⟩ :: ps) := by
    refine .cons hNonempty hScan ?_
    rwa [hTake, drop_left]
  rwa [hTake] at hCut

end Cut

theorem map_span_stream (source : String) :
    (stream source).map Token.span =
      ((pieces source).filter fun p => p.kind.isSome).map Piece.span := by
  unfold stream
  induction pieces source with
  | nil => rfl
  | cons p ps ih =>
    obtain ⟨kind, start, text⟩ := p
    cases kind with
    | none => exact ih
    | some kind => exact congrArg (Piece.span ⟨some kind, start, text⟩ :: ·) ih

theorem isValid_of_append (s t : String) : String.Pos.Raw.IsValid (s ++ t) ⟨s.utf8ByteSize⟩ :=
  String.Pos.Raw.isValid_iff_exists_append.mpr ⟨s, t, rfl, rfl⟩

/-- A piece stands in the source behind the pieces before it. -/
theorem span_of_pieces {source : String} {before after : List Piece} {p : Piece}
    (hSplit : pieces source = before ++ p :: after) :
    source = Piece.join before ++ p.text ++ Piece.join after ∧
      p.span = ⟨(Piece.join before).utf8ByteSize, (Piece.join before ++ p.text).utf8ByteSize⟩ := by
  have hCut := cut_pieces source
  have hText : source = Piece.join before ++ p.text ++ Piece.join after := by
    rw [← String.ofList_toList (s := source), ← hCut.join_eq, hSplit]
    rw [Piece.join_append, Piece.join_cons, String.append_assoc]
  rw [hSplit] at hCut
  have hRest := hCut.drop
  rw [Piece.join_cons, Nat.zero_add] at hRest
  refine ⟨hText, ?_⟩
  rw [Piece.span, hRest.head.1, String.utf8ByteSize_append]

/-- **Tokens are longest matches and nothing is lost.**  The pieces of a source tile its bytes;
each lies between characters, is not empty, and is the longest match of what is left, or, where
and only where what is left is at fault, that fault. -/
theorem pieces_longest_or_fault (source : String) :
    Span.Tile source.utf8ByteSize 0 ((pieces source).map Piece.span) ∧
    (stream source).map Token.span =
      ((pieces source).filter fun p => p.kind.isSome).map Piece.span ∧
    ∀ before p after, pieces source = before ++ p :: after →
      source = Piece.join before ++ p.text ++ Piece.join after ∧
      p.span = ⟨(Piece.join before).utf8ByteSize, (Piece.join before ++ p.text).utf8ByteSize⟩ ∧
      String.Pos.Raw.IsValid source ⟨p.span.start⟩ ∧
      String.Pos.Raw.IsValid source ⟨p.span.stop⟩ ∧
      p.text ≠ "" ∧
      (p.kind ≠ some .error →
        IsLongest p.kind p.text.toList (p.text ++ Piece.join after).toList ∧
          ∀ w, ¬ IsFault w (p.text ++ Piece.join after).toList) ∧
      (p.kind = some .error → IsFault p.text.toList (p.text ++ Piece.join after).toList) := by
  have hCut := cut_pieces source
  refine ⟨?_, map_span_stream source, fun before p after hSplit => ?_⟩
  · have hTile := hCut.tile
    rwa [Nat.zero_add, String.ofList_toList] at hTile
  obtain ⟨hText, hSpan⟩ := span_of_pieces hSplit
  rw [hSplit] at hCut
  have hRest := hCut.drop
  rw [Piece.join_cons, Nat.zero_add] at hRest
  obtain ⟨-, hNonempty, hScan⟩ := hRest.head
  have hLeftNonempty : (p.text ++ Piece.join after).toList ≠ [] := by
    simpa using fun hNil => absurd hNil hNonempty
  have hTake : (p.text ++ Piece.join after).toList.take p.text.toList.length = p.text.toList := by
    rw [String.toList_append, take_left]
  refine ⟨hText, hSpan, ?_, ?_, hNonempty, fun hKind => ⟨?_, fun w hFault => ?_⟩, fun hKind => ?_⟩
  · rw [hSpan, hText, String.append_assoc]
    exact isValid_of_append _ _
  · rw [hSpan, hText]
    exact isValid_of_append _ _
  · have hLongest := isLongest_of_scan hLeftNonempty hScan hKind
    rwa [hTake] at hLongest
  · rw [scan_of_isFault hFault] at hScan
    exact hKind (congrArg Prod.fst hScan).symm
  · rw [hKind] at hScan
    have hFault := isFault_of_scan hLeftNonempty hScan
    rwa [hTake] at hFault

/-- A character that starts nothing, and a digit that no exponent follows. -/
theorem pieces_longest_or_fault_digit :
    pieces "é..5end" = [] ++ ⟨some .error, 0, "é"⟩ ::
      [⟨some .concat, 2, ".."⟩, ⟨some .number, 4, "5"⟩, ⟨some .kwEnd, 5, "end"⟩] ∧
    IsFault "é".toList "é..5end".toList ∧
    IsLongest (some .number) "5".toList "5end".toList := by
  have hPieces : pieces "é..5end" = [] ++ ⟨some .error, 0, "é"⟩ ::
      [⟨some .concat, 2, ".."⟩, ⟨some .number, 4, "5"⟩, ⟨some .kwEnd, 5, "end"⟩] := by
    decide +kernel
  obtain ⟨-, -, hEach⟩ := pieces_longest_or_fault "é..5end"
  refine ⟨hPieces, ?_, ?_⟩
  · exact (hEach _ _ _ hPieces).2.2.2.2.2.2 rfl
  · exact ((hEach [⟨some .error, 0, "é"⟩, ⟨some .concat, 2, ".."⟩] ⟨some .number, 4, "5"⟩
      [⟨some .kwEnd, 5, "end"⟩] hPieces).2.2.2.2.2.1 (by simp)).1

end Token

end LuaShape
