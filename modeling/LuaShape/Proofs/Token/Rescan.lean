import LuaShape.Token.Stream
import Mathlib.Data.List.Find

/-!
# Words that stand apart

A `Word` is what a token says, without its place.  A text that is one token from its first
to its last character stays that token when a blank and any other text follow it
(`scan_append_blank`).  So words that are printed one after the other, with a blank behind
each, are found again by scanning (`words_stream_print`).
-/

namespace LuaShape.Token

open List

open LuaShape.Text

/-! ## Blanks -/

variable {b : Char}

theorem mem_of_isAsciiBlank (h : isAsciiBlank b = true) :
    b ∈ [' ', '\t', '\n', '\x0b', '\x0c', '\r'] := by
  simp only [isAsciiBlank, Bool.or_eq_true, Bool.and_eq_true, decide_eq_true_eq] at h
  rcases h with rfl | ⟨hLow, hHigh⟩
  · decide
  · have hCode : b.toNat = 9 ∨ b.toNat = 10 ∨ b.toNat = 11 ∨ b.toNat = 12 ∨ b.toNat = 13 := by
      omega
    rw [← Char.ofNat_toNat b]
    rcases hCode with h | h | h | h | h <;> rw [h] <;> decide

theorem ne_of_isAsciiBlank {b c : Char} (hb : isAsciiBlank b = true)
    (hc : isAsciiBlank c = false) : b ≠ c := by
  rintro rfl
  simp [hb] at hc

theorem isNamePart_of_isAsciiBlank (hb : isAsciiBlank b = true) : isNamePart b = false := by
  have h : ([' ', '\t', '\n', '\x0b', '\x0c', '\r'].all fun b => !isNamePart b) = true := by decide
  simpa using all_eq_true.1 h b (mem_of_isAsciiBlank hb)

theorem isHexDigit_of_isAsciiBlank (hb : isAsciiBlank b = true) : isHexDigit b = false := by
  have h : ([' ', '\t', '\n', '\x0b', '\x0c', '\r'].all fun b => !isHexDigit b) = true := by decide
  simpa using all_eq_true.1 h b (mem_of_isAsciiBlank hb)

theorem isDigit_of_isAsciiBlank (hb : isAsciiBlank b = true) : b.isDigit = false := by
  have h := isHexDigit_of_isAsciiBlank hb
  simp only [isHexDigit, Bool.or_eq_false_iff] at h
  exact h.1.1

theorem runLength_append_stop {p : Char → Bool} (hb : p b = false) (cs rest : List Char) :
    runLength p (cs ++ b :: rest) = runLength p cs := by
  unfold runLength
  induction cs with
  | nil => simp [hb]
  | cons c cs ih =>
    by_cases hc : p c = true
    · simp [hc, ih]
    · simp [hc]

theorem runLength_le (p : Char → Bool) (cs : List Char) : runLength p cs ≤ cs.length :=
  (takeWhile_sublist p).length_le

/-! ## Numbers -/

theorem fractionLength_le (digit : Char → Bool) (cs : List Char) :
    fractionLength digit cs ≤ cs.length := by
  unfold fractionLength
  split
  next rest =>
    have h := runLength_le digit rest
    simp only [length_cons]
    omega
  next => exact Nat.zero_le _

theorem numberLength_of_ne_zero {c : Char} (hc : c ≠ '0') (cs : List Char) :
    numberLength (c :: cs) = numeralLength Char.isDigit 'e' 'E' (c :: cs) := by
  unfold numberLength
  split
  next x rest heq => exact absurd (List.cons.inj heq).1 hc
  next => rfl

section Numbers

variable {b : Char} (hb : isAsciiBlank b = true)
include hb

theorem exponentLength_append_blank {lower upper : Char} (hLower : isAsciiBlank lower = false)
    (hUpper : isAsciiBlank upper = false) (cs rest : List Char) :
    exponentLength lower upper (cs ++ b :: rest) = exponentLength lower upper cs := by
  have hDigit := isDigit_of_isAsciiBlank hb
  have hSign : (b = '+' || b = '-') = false := by
    simp [ne_of_isAsciiBlank hb (c := '+') (by decide), ne_of_isAsciiBlank hb (c := '-') (by decide)]
  have hMark : (b = lower || b = upper) = false := by
    simp [ne_of_isAsciiBlank hb hLower, ne_of_isAsciiBlank hb hUpper]
  cases cs with
  | nil => simp only [exponentLength, nil_append, hMark, Bool.false_eq_true, if_false]
  | cons mark cs =>
    cases cs with
    | nil =>
      simp only [exponentLength, cons_append, nil_append, hSign, Bool.false_eq_true,
        if_false, drop_zero]
      simp [runLength, hDigit]
    | cons c cs =>
      have hRun : ∀ n ≤ 1, runLength Char.isDigit ((c :: (cs ++ b :: rest)).drop n) =
          runLength Char.isDigit ((c :: cs).drop n) := by
        intro n hn
        rw [← cons_append, drop_append_of_le_length (by simp; omega),
          runLength_append_stop hDigit]
      simp only [exponentLength, cons_append]
      rw [hRun _ (by split <;> omega)]

theorem fractionLength_append_blank {digit : Char → Bool} (hDigit : digit b = false)
    (cs rest : List Char) :
    fractionLength digit (cs ++ b :: rest) = fractionLength digit cs := by
  have hPoint : b ≠ '.' := ne_of_isAsciiBlank hb (by decide)
  cases cs with
  | nil => simp [fractionLength, hPoint]
  | cons c cs =>
    by_cases hc : c = '.'
    · subst hc
      simp [fractionLength, runLength_append_stop hDigit]
    · simp [fractionLength, hc]

theorem numeralLength_append_blank {digit : Char → Bool} (hDigit : digit b = false)
    {lower upper : Char} (hLower : isAsciiBlank lower = false)
    (hUpper : isAsciiBlank upper = false) (cs rest : List Char) :
    numeralLength digit lower upper (cs ++ b :: rest) = numeralLength digit lower upper cs := by
  have hWhole := runLength_append_stop hDigit cs rest
  have hDrop : ∀ n ≤ cs.length, (cs ++ b :: rest).drop n = cs.drop n ++ b :: rest :=
    fun n hn => drop_append_of_le_length hn
  have hFraction : fractionLength digit (cs.drop (runLength digit cs)) ≤
      (cs.drop (runLength digit cs)).length := fractionLength_le _ _
  rw [length_drop] at hFraction
  have hLe := runLength_le digit cs
  simp only [numeralLength, hWhole]
  rw [hDrop _ hLe, fractionLength_append_blank hb hDigit, hDrop _ (by omega),
    exponentLength_append_blank hb hLower hUpper]

theorem numberLength_append_blank (cs rest : List Char) :
    numberLength (cs ++ b :: rest) = numberLength cs := by
  have hDecimal : ∀ cs : List Char, numeralLength Char.isDigit 'e' 'E' (cs ++ b :: rest) =
      numeralLength Char.isDigit 'e' 'E' cs := fun cs =>
    numeralLength_append_blank hb (isDigit_of_isAsciiBlank hb) (by decide) (by decide) cs rest
  have hHex : ∀ cs : List Char, numeralLength isHexDigit 'p' 'P' (cs ++ b :: rest) =
      numeralLength isHexDigit 'p' 'P' cs := fun cs =>
    numeralLength_append_blank hb (isHexDigit_of_isAsciiBlank hb) (by decide) (by decide) cs rest
  have hX : (b = 'x' || b = 'X') = false := by
    simp [ne_of_isAsciiBlank hb (c := 'x') (by decide), ne_of_isAsciiBlank hb (c := 'X') (by decide)]
  cases cs with
  | nil =>
    rw [nil_append, numberLength_of_ne_zero (ne_of_isAsciiBlank hb (by decide))]
    exact hDecimal []
  | cons c cs =>
    by_cases hc : c = '0'
    · subst hc
      cases cs with
      | nil =>
        simp only [cons_append, nil_append, numberLength, hX, Bool.false_eq_true, if_false]
        exact hDecimal ['0']
      | cons x cs =>
        simp only [cons_append, numberLength, hHex]
        rw [← cons_append, ← cons_append, hDecimal]
    · rw [cons_append, numberLength_of_ne_zero hc, numberLength_of_ne_zero hc,
        ← cons_append, hDecimal]

theorem startsNumber_append_blank {cs : List Char} (hNonempty : cs ≠ []) (rest : List Char) :
    startsNumber (cs ++ b :: rest) = startsNumber cs := by
  obtain ⟨c, cs, rfl⟩ := exists_cons_of_ne_nil hNonempty
  cases cs with
  | nil => simp [startsNumber, isDigit_of_isAsciiBlank hb]
  | cons d cs => rfl

end Numbers

/-! ## Strings -/

/-- One character of a short string that starts no escape. -/
theorem quotedLength_cons {quote c : Char} (hc : c ≠ '\\') (cs : List Char) :
    quotedLength quote (c :: cs) =
      if c = quote then (true, 1) else if c = '\n' then (false, 0)
      else ((quotedLength quote cs).1, (quotedLength quote cs).2 + 1) := by
  rw [quotedLength]
  · rintro rfl
    exact absurd rfl hc
  · rintro d rest rfl
    exact absurd rfl hc

variable {cs : List Char} {b : Char} {kind : Kind}

/-- A short string that is closed does not depend on what follows. -/
theorem quotedLength_append {quote : Char} {n : Nat} (h : quotedLength quote cs = (true, n))
    (rest : List Char) : quotedLength quote (cs ++ rest) = (true, n) := by
  fun_induction quotedLength quote cs generalizing n with
  | case1 => simp at h
  | case2 => simp at h
  | case3 c cs closed m hEq ih =>
    simp only [Prod.mk.injEq] at h
    obtain ⟨rfl, rfl⟩ := h
    simp only [cons_append, quotedLength, ih hEq]
  | case4 cs hLast hEscape =>
    have hc : quote ≠ '\\' := by
      rintro rfl
      cases cs with
      | nil => exact hLast rfl rfl
      | cons d cs => exact hEscape d cs rfl rfl
    simpa [quotedLength_cons hc] using h
  | case5 => simp at h
  | case6 c cs hLast hEscape hQuote hBreak closed m hEq ih =>
    have hc : c ≠ '\\' := by
      rintro rfl
      cases cs with
      | nil => exact hLast rfl rfl
      | cons d cs => exact hEscape d cs rfl rfl
    simp only [Prod.mk.injEq] at h
    obtain ⟨rfl, rfl⟩ := h
    rw [cons_append, quotedLength_cons hc, if_neg hQuote, if_neg hBreak, ih hEq]

/-- A closing bracket holds no blank. -/
theorem isPrefixOf_append_blank {word : List Char} (hWord : b ∉ word) (cs rest : List Char) :
    word.isPrefixOf (cs ++ b :: rest) = word.isPrefixOf cs := by
  induction word generalizing cs with
  | nil => simp
  | cons w word ih =>
    simp only [mem_cons, not_or] at hWord
    cases cs with
    | nil => simp [List.isPrefixOf, Ne.symm hWord.1]
    | cons c cs => simp [List.isPrefixOf, ih hWord.2]

theorem lengthThrough_append_blank {close : List Char} (hClose : b ∉ close) {n : Nat}
    (h : lengthThrough close cs = some n) (rest : List Char) :
    lengthThrough close (cs ++ b :: rest) = some n := by
  induction cs generalizing n with
  | nil =>
    cases close with
    | nil => simpa [lengthThrough] using h
    | cons d close => simp [lengthThrough] at h
  | cons c cs ih =>
    have hHere := isPrefixOf_append_blank hClose (c :: cs) rest
    simp only [cons_append, lengthThrough] at h hHere ⊢
    rw [hHere]
    split at h
    next hFound => rwa [if_pos hFound]
    next hNot =>
      obtain ⟨m, hm, rfl⟩ := Option.map_eq_some_iff.mp h
      rw [if_neg hNot, ih hm]
      rfl

/-- An opening bracket is complete before a blank. -/
theorem openingLevel?_append_blank (hb : isAsciiBlank b = true) (hNonempty : cs ≠ [])
    (rest : List Char) : openingLevel? (cs ++ b :: rest) = openingLevel? cs := by
  have hEqual : decide (b = '=') = false := by simpa using ne_of_isAsciiBlank hb (by decide)
  have hBracket : b ≠ '[' := ne_of_isAsciiBlank hb (by decide)
  obtain ⟨c, cs, rfl⟩ := exists_cons_of_ne_nil hNonempty
  by_cases hc : c = '['
  · subst hc
    simp only [cons_append, openingLevel?, runLength_append_stop (p := (· = '=')) hEqual]
    rw [drop_append_of_le_length (runLength_le _ _)]
    cases cs.drop (runLength (· = '=') cs) with
    | nil => simp [hBracket]
    | cons d ds =>
      by_cases hd : d = '['
      · simp [hd]
      · simp [hd]
  · simp [openingLevel?, hc]

theorem length_of_openingLevel? {level : Nat} (h : openingLevel? cs = some level) :
    level + 2 ≤ cs.length := by
  unfold openingLevel? at h
  split at h
  next rest =>
    simp only at h
    split at h
    next tail hDrop =>
      cases h
      have hLength := congrArg List.length hDrop
      simp only [length_drop, length_cons] at hLength ⊢
      omega
    next => cases h
  next => cases h

/-- A bracket or a long string before a blank. -/
theorem scanBracket_append_blank (hb : isAsciiBlank b = true) (hKind : kind ≠ .error)
    (h : scanBracket cs = (kind, cs.length)) (hNonempty : cs ≠ []) (rest : List Char) :
    scanBracket (cs ++ b :: rest) = (kind, cs.length) := by
  have hEqual : decide (b = '=') = false := by simpa using ne_of_isAsciiBlank hb (by decide)
  have hFirst : 1 ≤ cs.length := length_pos_iff.mpr hNonempty
  unfold scanBracket at h ⊢
  rw [openingLevel?_append_blank hb hNonempty]
  cases hLevel : openingLevel? cs with
  | none =>
    simp only [hLevel] at h ⊢
    rw [drop_append_of_le_length hFirst, runLength_append_stop (p := (· = '=')) hEqual]
    exact h
  | some level =>
    simp only [hLevel] at h ⊢
    rw [drop_append_of_le_length (length_of_openingLevel? hLevel)]
    cases hThrough : lengthThrough (closingBracket level) (cs.drop (level + 2)) with
    | none =>
      simp only [hThrough, Prod.mk.injEq] at h
      exact absurd h.1.symm hKind
    | some n =>
      simp only [hThrough] at h
      have hClose : b ∉ closingBracket level := by
        simp [closingBracket, ne_of_isAsciiBlank hb (c := ']') (by decide),
          ne_of_isAsciiBlank hb (c := '=') (by decide)]
      simpa only [lengthThrough_append_blank hClose hThrough] using h

theorem symbolAt?_append_blank (hb : isAsciiBlank b = true) (cs rest : List Char) :
    symbolAt? (cs ++ b :: rest) = symbolAt? cs := by
  have hSymbols : (Kind.symbols.all fun entry =>
      entry.1.toList.all fun c => !isAsciiBlank c) = true := by
    decide
  have hPrefix : ∀ entry ∈ Kind.symbols, entry.1.toList.isPrefixOf (cs ++ b :: rest) =
      entry.1.toList.isPrefixOf cs := by
    intro entry hEntry
    refine isPrefixOf_append_blank (fun hMem => ?_) cs rest
    have hNot := all_eq_true.1 (all_eq_true.1 hSymbols entry hEntry) b hMem
    rw [hb] at hNot
    cases hNot
  unfold symbolAt?
  rw [find?_congr hPrefix]

/-! ## Any token -/

/-- A text that is one token stays that token before a blank. -/
theorem scanToken_append_blank (hb : isAsciiBlank b = true) (hKind : kind ≠ .error)
    (h : scanToken cs = (kind, cs.length)) (rest : List Char) :
    scanToken (cs ++ b :: rest) = (kind, cs.length) := by
  cases cs with
  | nil =>
    simp only [scanToken, Prod.mk.injEq] at h
    exact absurd h.1.symm hKind
  | cons c cs =>
    have hNumber := startsNumber_append_blank hb (cons_ne_nil c cs) rest
    have hLength := numberLength_append_blank hb (c :: cs) rest
    have hSymbol := symbolAt?_append_blank hb (c :: cs) rest
    rw [cons_append] at hNumber hLength hSymbol
    simp only [scanToken] at h
    simp only [cons_append, scanToken, hNumber, hLength, hSymbol]
    split at h
    next hName =>
      have hLe := runLength_le isNamePart cs
      have hTake : (c :: (cs ++ b :: rest)).take (1 + runLength isNamePart cs) =
          (c :: cs).take (1 + runLength isNamePart cs) := by
        rw [← cons_append, take_append_of_le_length (by simp; omega)]
      rw [if_pos hName, runLength_append_stop (isNamePart_of_isAsciiBlank hb), hTake]
      exact h
    next hName =>
      rw [if_neg hName]
      split at h
      next hStart => rwa [if_pos hStart]
      next hStart =>
        rw [if_neg hStart]
        split at h
        next hQuote =>
          rw [if_pos hQuote]
          cases hClosed : quotedLength c cs with
          | mk closed n =>
            rw [hClosed] at h
            cases closed with
            | false => exact absurd (congrArg Prod.fst h).symm hKind
            | true =>
              rw [quotedLength_append hClosed]
              exact h
        next hQuote =>
          rw [if_neg hQuote]
          split at h
          next hBracket =>
            rw [if_pos hBracket]
            exact scanBracket_append_blank hb hKind h (cons_ne_nil c cs) rest
          next hBracket => rwa [if_neg hBracket]

/-- Nothing is to be skipped where neither a blank nor a comment nor a `#!` line starts. -/
theorem skipLength_eq_zero_iff (c : Char) (cs : List Char) :
    skipLength (c :: cs) = 0 ↔ isAsciiBlank c = false ∧ (c = '-' → cs.head? ≠ some '-') ∧
      (c = '#' → cs.head? ≠ some '!') := by
  unfold skipLength
  split
  next rest heq =>
    cases heq
    simp
  next rest heq =>
    cases heq
    simp
  next hDash hHash =>
    have hFirst : runLength isAsciiBlank (c :: cs) = 0 ↔ isAsciiBlank c = false := by
      by_cases hc : isAsciiBlank c = true
      · simp [runLength, hc]
      · simp [runLength, hc]
    rw [hFirst]
    constructor
    · intro hc
      refine ⟨hc, ?_, ?_⟩
      · rintro rfl hHead
        obtain ⟨rest, rfl⟩ := head?_eq_some_iff.mp hHead
        exact hDash rest rfl
      · rintro rfl hHead
        obtain ⟨rest, rfl⟩ := head?_eq_some_iff.mp hHead
        exact hHash rest rfl
    · exact fun h => h.1

theorem skipLength_append_blank (hb : isAsciiBlank b = true) (hNonempty : cs ≠ [])
    (h : skipLength cs = 0) (rest : List Char) : skipLength (cs ++ b :: rest) = 0 := by
  obtain ⟨c, cs, rfl⟩ := exists_cons_of_ne_nil hNonempty
  rw [cons_append, skipLength_eq_zero_iff]
  rw [skipLength_eq_zero_iff] at h
  cases cs with
  | nil =>
    refine ⟨h.1, ?_, ?_⟩
    · simp [ne_of_isAsciiBlank hb (c := '-') (by decide)]
    · simp [ne_of_isAsciiBlank hb (c := '!') (by decide)]
  | cons d cs => exact h

theorem skipLength_of_scan {n : Nat} (h : scan cs = (some kind, n)) :
    skipLength cs = 0 ∧ scanToken cs = (kind, n) := by
  unfold scan at h
  split at h
  next hSkip =>
    simp only [Prod.mk.injEq, Option.some.injEq] at h
    exact ⟨hSkip, Prod.ext h.1 h.2⟩
  next => simp at h

/-- **A text that is one token stays that token before a blank.** -/
theorem scan_append_blank (hb : isAsciiBlank b = true) (hKind : kind ≠ .error)
    (h : scan cs = (some kind, cs.length)) (rest : List Char) :
    scan (cs ++ b :: rest) = (some kind, cs.length) := by
  obtain ⟨hSkip, hToken⟩ := skipLength_of_scan h
  have hNonempty : cs ≠ [] := by
    rintro rfl
    exact hKind (congrArg Prod.fst hToken).symm
  unfold scan
  rw [skipLength_append_blank hb hNonempty hSkip, scanToken_append_blank hb hKind hToken]

/-! ## Words -/

/-- What a token says, without its place. -/
structure Word where
  kind : Kind
  text : String
deriving DecidableEq

/-- A token without its place. -/
def word (t : Token) : Word := ⟨t.kind, t.text⟩

namespace Word

/-- Whether a word is one token from its first to its last character. -/
def standsAlone (w : Word) : Bool :=
  w.kind ≠ .error && scan w.text.toList = (some w.kind, w.text.toList.length)

/-- Words one after the other with a blank behind each. -/
def print (words : List Word) : String :=
  String.ofList (words.flatMap fun w => w.text.toList ++ [' '])

end Word

/-- A word that stands alone is not empty, and no blank comes first. -/
theorem Word.exists_cons_of_standsAlone {w : Word} (h : w.standsAlone = true) :
    ∃ c cs, w.text.toList = c :: cs ∧ isAsciiBlank c = false := by
  simp only [Word.standsAlone, Bool.and_eq_true, decide_eq_true_eq] at h
  obtain ⟨hSkip, hToken⟩ := skipLength_of_scan h.2
  cases hText : w.text.toList with
  | nil =>
    rw [hText] at hToken
    exact absurd (congrArg Prod.fst hToken).symm h.1
  | cons c cs =>
    rw [hText, skipLength_eq_zero_iff] at hSkip
    exact ⟨c, cs, rfl, hSkip.1⟩

variable {words : List Word}

/-- The blank behind a word is all there is to skip. -/
theorem scan_blank_print (h : ∀ w ∈ words, w.standsAlone = true) :
    scan (' ' :: words.flatMap fun w => w.text.toList ++ [' ']) = (none, 1) := by
  have hRun : runLength isAsciiBlank (words.flatMap fun w => w.text.toList ++ [' ']) = 0 := by
    cases words with
    | nil => rfl
    | cons w words =>
      obtain ⟨c, cs, hText, hc⟩ := Word.exists_cons_of_standsAlone (h w (by simp))
      simp [runLength, hText, hc]
  have hSkip : skipLength (' ' :: words.flatMap fun w => w.text.toList ++ [' ']) = 0 + 1 := by
    rw [← hRun]
    rfl
  unfold scan
  rw [hSkip]

theorem piecesFrom_succ {cs : List Char} (hNonempty : cs ≠ []) {kind : Option Kind} {n : Nat}
    (h : scan cs = (kind, n)) (limit offset : Nat) :
    piecesFrom (limit + 1) offset cs = ⟨kind, offset, String.ofList (cs.take n)⟩ ::
      piecesFrom limit (offset + (String.ofList (cs.take n)).utf8ByteSize) (cs.drop n) := by
  obtain ⟨c, cs, rfl⟩ := exists_cons_of_ne_nil hNonempty
  simp only [piecesFrom, h]

theorem words_piecesFrom (h : ∀ w ∈ words, w.standsAlone = true) (limit offset : Nat)
    (hLimit : (words.flatMap fun w => w.text.toList ++ [' ']).length ≤ limit) :
    ((piecesFrom limit offset (words.flatMap fun w => w.text.toList ++ [' '])).filterMap
      Piece.token?).map word = words := by
  induction words generalizing limit offset with
  | nil => cases limit <;> rfl
  | cons w words ih =>
    have hAlone := h w (by simp)
    have hOthers : ∀ w ∈ words, w.standsAlone = true := fun w hw => h w (by simp [hw])
    obtain ⟨c, cs, hText, -⟩ := Word.exists_cons_of_standsAlone hAlone
    simp only [Word.standsAlone, Bool.and_eq_true, decide_eq_true_eq] at hAlone
    have hScan := scan_append_blank (b := ' ') (by decide) hAlone.1 hAlone.2
      (words.flatMap fun w => w.text.toList ++ [' '])
    have hBlank := scan_blank_print hOthers
    rw [flatMap_cons, append_assoc, singleton_append] at hLimit ⊢
    -- one piece for the word and one for the blank behind it
    obtain ⟨limit, rfl⟩ : ∃ l, limit = l + 2 := ⟨limit - 2, by
      simp only [hText, length_append, length_cons] at hLimit
      omega⟩
    rw [piecesFrom_succ (by simp) hScan, take_left, drop_left,
      piecesFrom_succ (by simp) hBlank, drop_one, tail_cons]
    simp only [filterMap_cons, Piece.token?, Option.map_some, Option.map_none, map_cons,
      String.ofList_toList, word]
    rw [ih hOthers limit _ (by
      simp only [hText, length_append, length_cons] at hLimit
      omega)]

/-- **Printed words are found again.** -/
theorem words_stream_print (h : ∀ w ∈ words, w.standsAlone = true) :
    (stream (Word.print words)).map word = words := by
  unfold stream pieces Word.print
  rw [String.toList_ofList]
  exact words_piecesFrom h _ 0 (Nat.le_refl _)

end LuaShape.Token
