import LuaShape.Proofs.Token.Pattern

/-!
# Patterns of quotations and comments

The length functions of the scanner for short strings, long brackets and comments, compared
with the patterns of these.  A short string that is not closed breaks off in one of three
ways (`BreaksOff`); a long bracket that is not closed has no closing bracket of its level
anywhere behind it.
-/

namespace LuaShape.Token

open List

open Pattern
open scoped Computability

variable {w cs : List Char}

/-! ## Short strings -/

/-- Where a short string breaks off: at the end of the text, before a line feed, or before a
backslash that is the last character. -/
def BreaksOff (rest : List Char) : Prop :=
  rest = [] ∨ rest = ['\\'] ∨ ∃ tail, rest = '\n' :: tail

section Strings

variable {quote : Char}

theorem mem_quotedUnit : w ∈ quotedUnit quote ↔
    (∃ c, c ≠ quote ∧ c ≠ '\\' ∧ c ≠ '\n' ∧ w = [c]) ∨ ∃ c, w = ['\\', c] := by
  rw [quotedUnit, Language.mem_add, mem_exactly_mul, noneOf, mem_one]
  constructor
  · rintro (⟨c, hc, rfl⟩ | ⟨_, ⟨c, -, rfl⟩, rfl⟩)
    · simp only [mem_cons, not_mem_nil, or_false, not_or] at hc
      exact .inl ⟨c, hc.1, hc.2.1, hc.2.2, rfl⟩
    · exact .inr ⟨c, rfl⟩
  · rintro (⟨c, hQuote, hEscape, hBreak, rfl⟩ | ⟨c, rfl⟩)
    · exact .inl ⟨c, by simp [hQuote, hEscape, hBreak], rfl⟩
    · exact .inr ⟨[c], ⟨c, trivial, rfl⟩, rfl⟩

/-- Units of a short string are passed over. -/
theorem quotedLength_units_append (hw : w ∈ (quotedUnit quote)∗) (cs : List Char) :
    quotedLength quote (w ++ cs) =
      ((quotedLength quote cs).1, (quotedLength quote cs).2 + w.length) := by
  obtain ⟨units, rfl, hUnits⟩ := Language.mem_kstar.mp hw
  clear hw
  induction units with
  | nil => rfl
  | cons unit units ih =>
    have hOthers := ih fun unit hUnit => hUnits unit (by simp [hUnit])
    rw [flatten_cons, append_assoc]
    rcases mem_quotedUnit.mp (hUnits unit (by simp)) with
      ⟨c, hQuote, hEscape, hBreak, rfl⟩ | ⟨c, rfl⟩
    · rw [singleton_append, quotedLength_cons hEscape, if_neg hQuote, if_neg hBreak, hOthers]
      simp only [length_append, length_cons, length_nil]
      refine Prod.ext rfl ?_
      show _ + _ + 1 = _
      omega
    · simp only [cons_append, nil_append, quotedLength, hOthers, length_cons]
      refine Prod.ext rfl ?_
      show _ + _ + 2 = _
      omega

theorem quotedLength_closed (hQuote : quote ≠ '\\') (cs : List Char) :
    quotedLength quote (quote :: cs) = (true, 1) := by
  rw [quotedLength_cons hQuote, if_pos rfl]

theorem quotedLength_of_breaksOff (hQuote : isQuote quote = true) (h : BreaksOff cs) :
    quotedLength quote cs = (false, 0) := by
  rcases h with rfl | rfl | ⟨tail, rfl⟩
  · rfl
  · rfl
  · have hNe : '\n' ≠ quote := by
      rintro rfl
      cases hQuote
    rw [quotedLength_cons (by decide), if_neg hNe, if_pos rfl]

theorem append_mem_star {l : Language Char} {v : List Char} (hv : v ∈ l) (hw : w ∈ l∗) :
    v ++ w ∈ l∗ := by
  rw [← Language.one_add_self_mul_kstar_eq_kstar]
  exact .inr (Language.append_mem_mul hv hw)

/-- What is taken of a short string: units, and then the closing quote or nothing. -/
theorem exists_of_quotedLength (quote : Char) (cs : List Char) :
    ∃ inside rest, inside ∈ (quotedUnit quote)∗ ∧ cs = inside ++ rest ∧
      (quotedLength quote cs = (true, inside.length + 1) ∧ (∃ tail, rest = quote :: tail) ∨
        quotedLength quote cs = (false, inside.length) ∧ BreaksOff rest) := by
  fun_induction quotedLength quote cs with
  | case1 => exact ⟨[], [], Language.nil_mem_kstar _, rfl, .inr ⟨rfl, .inl rfl⟩⟩
  | case2 => exact ⟨[], ['\\'], Language.nil_mem_kstar _, rfl, .inr ⟨rfl, .inr (.inl rfl)⟩⟩
  | case3 c cs closed n hEq ih =>
    obtain ⟨inside, rest, hInside, rfl, hEnd⟩ := ih
    refine ⟨['\\', c] ++ inside, rest,
      append_mem_star (mem_quotedUnit.mpr (.inr ⟨c, rfl⟩)) hInside,
      rfl, ?_⟩
    simpa [hEq] using hEnd
  | case4 cs => exact ⟨[], quote :: cs, Language.nil_mem_kstar _, rfl, .inl ⟨rfl, cs, rfl⟩⟩
  | case5 cs =>
    exact ⟨[], '\n' :: cs, Language.nil_mem_kstar _, rfl, .inr ⟨rfl, .inr (.inr ⟨cs, rfl⟩)⟩⟩
  | case6 c cs hLast hEscape hQuote hBreak closed n hEq ih =>
    have hc : c ≠ '\\' := by
      rintro rfl
      cases cs with
      | nil => exact hLast rfl rfl
      | cons d cs => exact hEscape d cs rfl rfl
    obtain ⟨inside, rest, hInside, rfl, hEnd⟩ := ih
    refine ⟨[c] ++ inside, rest, append_mem_star
      (mem_quotedUnit.mpr (.inl ⟨c, hQuote, hc, hBreak, rfl⟩)) hInside, rfl, ?_⟩
    simpa [hEq] using hEnd

end Strings

/-! ## Long brackets -/

theorem Pattern.EndsFirst.eq {close v : List Char} (hv : EndsFirst close v) (hw : EndsFirst close w)
    (hFront : v <+: cs) (hFront' : w <+: cs) : v = w := by
  rcases Nat.le_total v.length w.length with hLe | hLe
  · exact hw.first v (prefix_of_prefix_length_le hFront hFront' hLe) hv.ends
  · exact (hv.first w (prefix_of_prefix_length_le hFront' hFront hLe) hw.ends).symm

theorem closingBracket_ne_nil (level : Nat) : closingBracket level ≠ [] := by simp [closingBracket]

theorem lengthThrough_eq_none_iff {close : List Char} (hClose : close ≠ []) :
    lengthThrough close cs = none ↔ ¬ close <:+: cs := by
  induction cs with
  | nil => simp [lengthThrough, hClose]
  | cons c cs ih =>
    rw [lengthThrough, infix_cons_iff, ← isPrefixOf_iff_prefix]
    split
    next h => simp [h]
    next h => simp [h, ih]

theorem endsFirst_of_lengthThrough {close : List Char} (hClose : close ≠ []) {n : Nat}
    (h : lengthThrough close cs = some n) : n ≤ cs.length ∧ EndsFirst close (cs.take n) := by
  induction cs generalizing n with
  | nil => simp [lengthThrough, hClose] at h
  | cons c cs ih =>
    rw [lengthThrough] at h
    split at h
    next hHere =>
      cases h
      have hFront := isPrefixOf_iff_prefix.mp hHere
      refine ⟨hFront.length_le, ?_⟩
      rw [← prefix_iff_eq_take.mp hFront]
      refine ⟨suffix_refl _, fun v hv hEnd => ?_⟩
      exact hv.eq_of_length (Nat.le_antisymm hv.length_le hEnd.length_le)
    next hNot =>
      obtain ⟨m, hm, rfl⟩ := Option.map_eq_some_iff.mp h
      obtain ⟨hLe, hEnd, hFirst⟩ := ih hm
      refine ⟨Nat.succ_le_succ hLe, ?_⟩
      rw [take_succ_cons]
      refine ⟨hEnd.trans (suffix_cons c _), fun v hv hClosed => ?_⟩
      cases v with
      | nil => exact absurd (suffix_nil.mp hClosed) hClose
      | cons d v =>
        obtain ⟨rfl, hTail⟩ := cons_prefix_cons.mp hv
        rcases suffix_cons_iff.mp hClosed with rfl | hClosed
        · -- the closing bracket would stand at the front
          refine absurd (List.isPrefixOf_iff_prefix.mpr ?_) hNot
          exact cons_prefix_cons.mpr ⟨rfl, hTail.trans (List.take_prefix m cs)⟩
        · rw [hFirst v hTail hClosed]

variable {level : Nat}

/-- At most one level has its opening bracket at the front. -/
theorem openingLevel?_eq_some_iff :
    openingLevel? cs = some level ↔ openingBracket level <+: cs := by
  constructor
  · intro h
    unfold openingLevel? at h
    split at h
    next rest =>
      simp only at h
      split at h
      next tail hTail =>
        cases h
        have hEquals : rest.take (runLength (· = '=') rest) =
            List.replicate (runLength (· = '=') rest) '=' := by
          refine eq_replicate_iff.mpr ⟨?_, fun c hc => by simpa using all_take_runLength c hc⟩
          rw [length_take, Nat.min_eq_left (runLength_le _ _)]
        refine ⟨tail, ?_⟩
        rw [openingBracket, cons_append, append_assoc, singleton_append, ← hTail,
          ← hEquals, take_append_drop]
      next => cases h
    next => cases h
  · rintro ⟨tail, rfl⟩
    have hRun : runLength (· = '=') (List.replicate level '=' ++ '[' :: tail) = level := by
      rw [runLength_append_stop (by decide), runLength_of_all (by simp), length_replicate]
    simp only [openingBracket, cons_append, append_assoc, nil_append, openingLevel?,
      hRun]
    rw [drop_append_of_le_length (by simp), drop_of_length_le (by simp), nil_append]
    rfl

theorem length_openingBracket (level : Nat) : (openingBracket level).length = level + 2 := by
  simp [openingBracket]

/-- What stands behind the opening bracket. -/
theorem openingBracket_append_drop (h : openingLevel? cs = some level) :
    openingBracket level ++ cs.drop (level + 2) = cs := by
  obtain ⟨tail, rfl⟩ := openingLevel?_eq_some_iff.mp h
  rw [← length_openingBracket, drop_left]

/-- The body of a described long bracket stands behind the opening bracket of the text. -/
theorem openingLevel?_of_openingBracket_append {body : List Char}
    (hFront : openingBracket level ++ body <+: cs) :
    openingLevel? cs = some level ∧ body <+: cs.drop (level + 2) := by
  obtain ⟨rest, rfl⟩ := hFront
  refine ⟨openingLevel?_eq_some_iff.mpr ⟨body ++ rest, by rw [append_assoc]⟩, ?_⟩
  rw [← length_openingBracket, append_assoc, drop_left]
  exact prefix_append body rest

section LongBracket

variable {level n : Nat}

theorem take_longBracket_mem (hLevel : openingLevel? cs = some level)
    (hThrough : lengthThrough (closingBracket level) (cs.drop (level + 2)) = some n) :
    cs.take (level + 2 + n) ∈ longBracket := by
  obtain ⟨-, hEnds⟩ := endsFirst_of_lengthThrough (closingBracket_ne_nil level) hThrough
  refine ⟨level, (cs.drop (level + 2)).take n, ?_, hEnds⟩
  nth_rewrite 1 [← openingBracket_append_drop hLevel]
  rw [← length_openingBracket, take_length_add_append]

/-- A described long bracket is the one that is found. -/
theorem exists_of_longBracket (hw : w ∈ longBracket) (hFront : w <+: cs) :
    ∃ level n, openingLevel? cs = some level ∧
      lengthThrough (closingBracket level) (cs.drop (level + 2)) = some n ∧
      w.length = level + 2 + n := by
  obtain ⟨level, body, rfl, hEnds⟩ := hw
  obtain ⟨hLevel, hBody⟩ := openingLevel?_of_openingBracket_append hFront
  cases hThrough : lengthThrough (closingBracket level) (cs.drop (level + 2)) with
  | none =>
    refine absurd ?_ ((lengthThrough_eq_none_iff (closingBracket_ne_nil level)).mp hThrough)
    exact hEnds.ends.isInfix.trans hBody.isInfix
  | some n =>
    obtain ⟨hLe, hEnds'⟩ := endsFirst_of_lengthThrough (closingBracket_ne_nil level) hThrough
    have hEq := hEnds.eq hEnds' hBody (List.take_prefix n _)
    refine ⟨level, n, hLevel, hThrough, ?_⟩
    rw [length_append, length_openingBracket, hEq, length_take, Nat.min_eq_left hLe]

/-! ## Comments -/

theorem take_commentLength_mem :
    cs.take (commentLength cs) ∈ longBracket + openLongBracket + restOfLine := by
  unfold commentLength
  cases hLevel : openingLevel? cs with
  | some level =>
    simp only
    cases hThrough : lengthThrough (closingBracket level) (cs.drop (level + 2)) with
    | some n => exact .inl (.inl (take_longBracket_mem hLevel hThrough))
    | none =>
      refine .inl (.inr ⟨level, cs.drop (level + 2), ?_,
        (lengthThrough_eq_none_iff (closingBracket_ne_nil level)).mp hThrough⟩)
      rw [take_length, openingBracket_append_drop hLevel]
  | none =>
    refine .inr ⟨fun hBreak => ?_, fun level hOpening => ?_⟩
    · have hNot := all_take_runLength (p := (· ≠ '\n')) _ hBreak
      simp at hNot
    · have hSome := openingLevel?_eq_some_iff.mpr (hOpening.trans (List.take_prefix _ cs))
      rw [hLevel] at hSome
      cases hSome

theorem length_le_commentLength (hw : w ∈ longBracket + openLongBracket + restOfLine)
    (hFront : w <+: cs) : w.length ≤ commentLength cs := by
  have hLength := hFront.length_le
  rcases hw with (hw | hw) | hw
  · obtain ⟨level, n, hLevel, hThrough, hEq⟩ := exists_of_longBracket hw hFront
    simp only [commentLength, hLevel, hThrough, hEq, Nat.le_refl]
  · obtain ⟨level, body, rfl, hOpen⟩ := hw
    obtain ⟨hLevel, hBody⟩ := openingLevel?_of_openingBracket_append hFront
    simp only [commentLength, hLevel]
    cases hThrough : lengthThrough (closingBracket level) (cs.drop (level + 2)) with
    | none => exact hLength
    | some n =>
      obtain ⟨-, hEnds⟩ := endsFirst_of_lengthThrough (closingBracket_ne_nil level) hThrough
      -- a body that reaches the closing bracket would hold it
      have hShort : body.length ≤ n := by
        by_contra hLong
        have hTake := prefix_of_prefix_length_le (List.take_prefix n _) hBody (by
          rw [length_take]
          omega)
        exact hOpen (hEnds.ends.isInfix.trans hTake.isInfix)
      simp only [length_append, length_openingBracket]
      omega
  · obtain ⟨hBreak, hOpening⟩ := hw
    unfold commentLength
    cases hLevel : openingLevel? cs with
    | none =>
      refine length_le_runLength (fun c hc => ?_) hFront
      simp only [decide_eq_true_eq]
      rintro rfl
      exact hBreak hc
    | some level =>
      -- the line would reach beyond an opening bracket
      have hShort : w.length < level + 2 := by
        by_contra hLong
        refine hOpening level (prefix_of_prefix_length_le
          (openingLevel?_eq_some_iff.mp hLevel) hFront ?_)
        rw [length_openingBracket]
        omega
      simp only
      cases lengthThrough (closingBracket level) (cs.drop (level + 2)) with
      | none => exact hLength
      | some n =>
        simp only
        omega

end LongBracket

end LuaShape.Token
