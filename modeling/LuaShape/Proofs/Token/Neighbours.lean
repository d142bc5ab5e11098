import LuaShape.Proofs.Token.Tiling

/-!
# Pieces and what follows them

What scanning finds at the front of a text it finds again when the text is cut off anywhere
behind (`scan_take`): a longest match has no more rivals in a shorter text, and a fault stays
one.  So some pieces of a source, taken as a text of their own, are cut in the same way
(`Cut.front`).

In front of a line feed a token is found again as well (`scan_append_newline`), an unclosed
long bracket apart, which has nothing behind it.  So the texts of the tokens of a source, with
a line feed between any two, hold the same words (`words_lines`).
-/

namespace LuaShape.Token

open List

open LuaShape.Text Pattern
open scoped Computability

variable {w cs : List Char} {k : Option Kind} {n m : Nat}

/-! ## Shorter texts -/

theorem BreaksOff.take (h : BreaksOff cs) (n : Nat) : BreaksOff (cs.take n) := by
  cases n with
  | zero => exact .inl rfl
  | succ n =>
    rcases h with rfl | rfl | ⟨tail, rfl⟩
    · exact .inl rfl
    · exact .inr (.inl (by simp))
    · exact .inr (.inr ⟨tail.take n, rfl⟩)

theorem head?_take_ne {c : Char} (h : cs.head? ≠ some c) (n : Nat) :
    (cs.take n).head? ≠ some c := by
  cases n with
  | zero => simp
  | succ n => rwa [head?_take, if_neg (Nat.succ_ne_zero n)]

theorem IsFault.take (h : IsFault w cs) (hLe : w.length ≤ m) : IsFault w (cs.take m) := by
  cases h with
  | @quote quote body rest hQuote hBody hRest =>
    obtain ⟨j, rfl⟩ := Nat.exists_eq_add_of_le hLe
    rw [← cons_append, take_length_add_append]
    exact .quote hQuote hBody (hRest.take j)
  | @stray level rest hEqual hOpening =>
    obtain ⟨j, rfl⟩ := Nat.exists_eq_add_of_le hLe
    rw [← cons_append, take_length_add_append]
    exact .stray (head?_take_ne hEqual j) (head?_take_ne hOpening j)
  | unclosed hOpen =>
    rw [take_of_length_le hLe]
    exact .unclosed hOpen
  | @character c rest hNone =>
    obtain ⟨j, rfl⟩ := Nat.exists_eq_add_of_le hLe
    rw [length_singleton, Nat.add_comm, take_succ_cons]
    exact .character hNone

/-- A bracket stands alone where neither an equals sign nor another bracket follows. -/
theorem scan_leftBracket {rest : List Char} (hEqual : rest.head? ≠ some '=')
    (hOpening : rest.head? ≠ some '[') : scan ('[' :: rest) = (some .leftBracket, 1) := by
  rw [scan_bracket]
  cases rest with
  | nil => rfl
  | cons c rest =>
    have hc : c ≠ '=' := by simpa using hEqual
    have hc' : c ≠ '[' := by simpa using hOpening
    simp [scanBracket, openingLevel?, runLength, hc, hc']

/-- **What is found in a text is found in a part of it that reaches as far.** -/
theorem scan_take (hNonempty : cs ≠ []) (h : scan cs = (k, n)) (hLe : n ≤ m) :
    scan (cs.take m) = (k, n) := by
  obtain ⟨hPos, hBound⟩ := pos_of_scan hNonempty h
  have hLength : (cs.take n).length = n := by rw [length_take, Nat.min_eq_left hBound]
  by_cases hKind : k = some .error
  · subst hKind
    have hFault := isFault_of_scan hNonempty h
    rw [scan_of_isFault (hFault.take (by rwa [hLength])), hLength]
  have hLongest := isLongest_of_scan hNonempty h hKind
  have hFront : cs.take n <+: cs.take m :=
    prefix_of_prefix_length_le (List.take_prefix n cs) (List.take_prefix m cs) (by
      rw [hLength, length_take]
      exact Nat.le_min.mpr ⟨hLe, hBound⟩)
  have hAtLeast := takesAtLeast_of_mem hLongest.mem hFront
  have hTakeNonempty : cs.take m ≠ [] := by
    intro hNil
    rw [hNil, prefix_nil] at hFront
    rw [hFront] at hLength
    exact absurd hLength (Nat.ne_of_lt hPos)
  cases hScan : scan (cs.take m) with
  | mk k' n' =>
  by_cases hError : k' = some .error
  · -- only a bracket is described where a fault is found, and it stood alone before
    have hBracket : cs.take n = ['['] := hAtLeast.error (by rw [hScan]; exact hError)
    obtain ⟨rest, rfl⟩ : ∃ rest, cs = '[' :: rest := by
      obtain ⟨rest, hRest⟩ := take_prefix n cs
      rw [hBracket] at hRest
      exact ⟨rest, hRest.symm⟩
    obtain rfl : n = 1 := by rw [← hLength, hBracket, length_singleton]
    obtain ⟨j, rfl⟩ := Nat.exists_eq_add_of_le hLe
    rw [Nat.add_comm, take_succ_cons] at hScan
    rcases scanBracket_cases rest with ⟨-, hEqual, hOpening⟩ | hTwo
    · rw [scan_leftBracket (head?_take_ne hEqual j) (head?_take_ne hOpening j)] at hScan
      rw [← hScan, ← h, scan_leftBracket hEqual hOpening]
    · rw [scan_bracket] at h
      have hOne : (scanBracket ('[' :: rest)).2 = 1 := congrArg Prod.snd h
      omega
  · have hOther := isLongest_of_scan hTakeNonempty hScan hError
    have hSame : n = n' := by
      have hLess := hAtLeast.length_le
      have hMore := hLongest.longest k' _ hOther.mem (hOther.front.trans (List.take_prefix m cs))
      rw [hLength, hScan] at hLess
      rw [hLength, length_take, Nat.min_eq_left (pos_of_scan hTakeNonempty hScan).2] at hMore
      exact Nat.le_antisymm hLess hMore
    subst hSame
    have hTake : (cs.take m).take n = cs.take n := by rw [take_take, Nat.min_eq_left hLe]
    have hName := hAtLeast.kind (by rw [hScan, hLength])
    rw [hScan] at hName
    have hKeyword := hLongest.keyword k' (hTake ▸ hOther.mem)
    rcases hName with rfl | rfl
    · rfl
    · rcases hKeyword with rfl | rfl <;> rfl

/-! ## Some of the pieces -/

/-- A piece that starts further on. -/
def Piece.shift (offset : Nat) (p : Piece) : Piece := { p with start := p.start + offset }

theorem Cut.shift {start : Nat} {ps : List Piece} (h : Cut start cs ps) (offset : Nat) :
    Cut (start + offset) cs (ps.map (Piece.shift offset)) := by
  induction h with
  | nil => exact .nil _
  | cons hNonempty hScan _ ih =>
    refine .cons hNonempty hScan ?_
    rwa [Nat.add_right_comm] at ih

/-- The first pieces of a text, taken as a text of their own, are cut in the same way. -/
theorem Cut.front {start : Nat} {front behind : List Piece} (h : Cut start cs (front ++ behind)) :
    Cut start (Piece.join front).toList front := by
  induction front generalizing start cs with
  | nil => exact .nil start
  | cons p front ih =>
    obtain ⟨rfl, hText, hScan⟩ := h.head
    have hChars : cs = p.text.toList ++ (Piece.join front ++ Piece.join behind).toList := by
      rw [← String.toList_ofList (l := cs), ← h.join_eq, cons_append, Piece.join_cons,
        Piece.join_append, String.toList_append]
    have hNonempty : cs ≠ [] := by
      rw [hChars]
      simpa using fun hNil => absurd hNil hText
    rw [Piece.join_cons, String.toList_append]
    refine .of_scan hText ?_ (ih h.tail)
    have hTake := scan_take hNonempty hScan
      (Nat.le_add_right _ (Piece.join front).toList.length)
    rwa [hChars, String.toList_append, take_length_add_append, take_left] at hTake

/-! ## Line feeds between tokens -/

theorem IsFault.append_newline (h : IsFault w cs) :
    w = cs ∨ ∀ rest, IsFault w (w ++ '\n' :: rest) := by
  cases h with
  | quote hQuote hBody => exact .inr fun rest => .quote hQuote hBody (.inr (.inr ⟨rest, rfl⟩))
  | stray => exact .inr fun rest => .stray (by simp) (by simp)
  | unclosed => exact .inl rfl
  | character hNone => exact .inr fun rest => .character hNone

/-- **A token is found again in front of a line feed**, unless it is all that was left. -/
theorem scan_append_newline {kind : Kind} (hNonempty : cs ≠ []) (h : scan cs = (some kind, n)) :
    cs.take n = cs ∨ ∀ rest, scan (cs.take n ++ '\n' :: rest) = (some kind, n) := by
  have hLength : (cs.take n).length = n := by
    rw [length_take, Nat.min_eq_left (pos_of_scan hNonempty h).2]
  by_cases hKind : kind = .error
  · subst hKind
    refine (isFault_of_scan hNonempty h).append_newline.imp_right fun hFault rest => ?_
    rw [scan_of_isFault (hFault rest), hLength]
  · refine .inr fun rest => ?_
    have hAlone : scan (cs.take n) = (some kind, (cs.take n).length) := by
      rw [hLength]
      exact scan_take hNonempty h (Nat.le_refl n)
    have hBlank : isAsciiBlank '\n' = true := by decide
    rw [scan_append_blank hBlank hKind hAlone, hLength]

theorem scan_newline (h : skipLength cs = 0) : scan ('\n' :: cs) = (none, 1) := by
  have hBlank : isAsciiBlank '\n' = true := by decide
  have hRun : runLength isAsciiBlank cs = 0 := by
    cases cs with
    | nil => rfl
    | cons c cs => simp [runLength, ((skipLength_eq_zero_iff c cs).mp h).1]
  have hSkip : skipLength ('\n' :: cs) = 0 + 1 := by
    rw [skipLength_blank hBlank, ← hRun]
    simp [runLength, hBlank]
  exact scan_of_skip hSkip

/-- One more token in front, with a line feed behind it. -/
theorem Cut.line {start : Nat} {kind : Kind} {text : String} {ps : List Piece}
    (hRest : Cut (start + text.utf8ByteSize + 1) cs ps) (hText : text ≠ "")
    (hScan : scan (text.toList ++ '\n' :: cs) = (some kind, text.toList.length))
    (hSkip : skipLength cs = 0) : Cut start (text.toList ++ '\n' :: cs)
      (⟨some kind, start, text⟩ :: ⟨none, start + text.utf8ByteSize, "\n"⟩ :: ps) := by
  have hLine : "\n".toList = ['\n'] := rfl
  have hNewline : Cut (start + text.utf8ByteSize) ("\n".toList ++ cs)
      (⟨none, start + text.utf8ByteSize, "\n"⟩ :: ps) := by
    refine .of_scan (by decide) ?_ hRest
    rw [hLine]
    exact scan_newline hSkip
  rw [hLine] at hNewline
  exact .of_scan hText hScan hNewline

/-- The texts of tokens with a line feed between any two. -/
def lines (ts : List Token) : String := "\n".intercalate (ts.map Token.text)

/-- The tokens of a text, each on a line of its own, are cut out again. -/
theorem Cut.lines {start : Nat} {ps : List Piece} (h : Cut start cs ps) (start' : Nat) :
    ∃ ps', Cut start' (lines (ps.filterMap Piece.token?)).toList ps' ∧
      skipLength (lines (ps.filterMap Piece.token?)).toList = 0 ∧
      (ps'.filterMap Piece.token?).map word = (ps.filterMap Piece.token?).map word := by
  induction ps generalizing start cs start' with
  | nil => exact ⟨[], .nil start', rfl, rfl⟩
  | cons p ps ih =>
    obtain ⟨kind, start, text⟩ := p
    have hText : text ≠ "" := h.head.2.1
    have hScan : scan cs = (kind, text.toList.length) := h.head.2.2
    cases kind with
    | none => exact ih h.tail start'
    | some kind =>
      have hRest := h.tail
      have hChars : cs = text.toList ++ (Piece.join ps).toList := by
        rw [← String.toList_ofList (l := cs), ← h.join_eq, Piece.join_cons,
          String.toList_append]
      have hNonempty : cs ≠ [] := by
        rw [hChars]
        simpa using fun hNil => absurd hNil hText
      have hTake : cs.take text.toList.length = text.toList := by rw [hChars, take_left]
      cases hTokens : ps.filterMap Piece.token? with
      | nil =>
        have hAlone := scan_take hNonempty hScan (Nat.le_refl _)
        rw [hTake] at hAlone
        have hCut : Cut start' (text.toList ++ []) [⟨some kind, start', text⟩] :=
          .of_scan hText (by rwa [append_nil]) (.nil _)
        rw [append_nil] at hCut
        have hLine : lines [⟨kind, start, text⟩] = text := String.intercalate_singleton
        simp only [filterMap_cons, Piece.token?, Option.map_some, hTokens, hLine]
        exact ⟨_, hCut, (skipLength_of_scan hAlone).1, rfl⟩
      | cons t ts =>
        obtain ⟨ps', hCut, hSkip, hWords⟩ := ih hRest (start' + text.utf8ByteSize + 1)
        rw [hTokens] at hCut hSkip hWords
        have hLines : (lines (⟨kind, start, text⟩ :: t :: ts)).toList =
            text.toList ++ '\n' :: (lines (t :: ts)).toList := by
          rw [lines, map_cons, map_cons, String.intercalate_cons_cons,
            String.toList_append, String.toList_append, append_assoc]
          rfl
        have hAgain : scan (text.toList ++ '\n' :: (lines (t :: ts)).toList) =
            (some kind, text.toList.length) := by
          rcases scan_append_newline hNonempty hScan with hAll | hAgain
          · -- nothing would be left for the other tokens
            rw [hTake, hChars, self_eq_append_right] at hAll
            rw [hAll] at hRest
            cases hRest with
            | nil => cases hTokens
            | cons hNot => exact absurd rfl hNot
          · rw [hTake] at hAgain
            exact hAgain _
        simp only [filterMap_cons, Piece.token?, Option.map_some, hTokens, hLines]
        refine ⟨_, hCut.line hText hAgain hSkip, (skipLength_of_scan hAgain).1, ?_⟩
        simp only [filterMap_cons, Piece.token?, Option.map_some, Option.map_none,
          map_cons, hWords, word]

/-- **Tokens on lines of their own are the same words.** -/
theorem words_lines (source : String) :
    (stream (lines (stream source))).map word = (stream source).map word := by
  obtain ⟨ps, hCut, -, hWords⟩ := (cut_pieces source).lines 0
  have hPieces : pieces (lines (stream source)) = ps := (cut_pieces _).unique hCut
  rw [stream, hPieces]
  exact hWords

end LuaShape.Token
