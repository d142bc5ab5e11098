import LuaShape.Proofs.Token.Described

/-!
# Tokens are longest matches

Scanning takes, at the front of a text, the longest part that any pattern describes, and a
keyword rather than a name (`IsLongest`).  Where it reports an error, the text is at fault in
one of four ways, each with the extent that is reported (`IsFault`).

The pieces of a source follow on one another from its first byte to its last
(`Span.Tile`), each of them a longest match or a fault of what is left of the text.
-/

namespace LuaShape.Token

open List

open LuaShape.Text Pattern
open scoped Computability

variable {w cs : List Char} {k : Option Kind}

/-! ## Bounds -/

theorem exponentLength_le (lower upper : Char) (cs : List Char) :
    exponentLength lower upper cs ≤ cs.length := by
  cases cs with
  | nil => exact Nat.le_refl 0
  | cons mark rest =>
    have hSign : signLength rest ≤ rest.length := by
      cases rest with
      | nil => exact Nat.le_refl 0
      | cons c rest =>
        simp only [signLength, length_cons]
        split <;> omega
    have hRun := runLength_le Char.isDigit (rest.drop (signLength rest))
    rw [length_drop] at hRun
    rw [exponentLength_cons, length_cons]
    split
    · split <;> omega
    · omega

theorem numeralLength_le (digit : Char → Bool) (lower upper : Char) (cs : List Char) :
    numeralLength digit lower upper cs ≤ cs.length := by
  have hWhole := runLength_le digit cs
  have hFraction := fractionLength_le digit (cs.drop (runLength digit cs))
  have hExponent := exponentLength_le lower upper
    (cs.drop (runLength digit cs + fractionLength digit (cs.drop (runLength digit cs))))
  rw [length_drop] at hFraction hExponent
  simp only [numeralLength]
  omega

theorem numberLength_le (cs : List Char) : numberLength cs ≤ cs.length := by
  unfold numberLength
  split
  next x rest =>
    split
    · have hLe := numeralLength_le isHexDigit 'p' 'P' rest
      simp only [length_cons]
      omega
    · exact numeralLength_le _ _ _ _
  next => exact numeralLength_le _ _ _ _

theorem commentLength_le (cs : List Char) : commentLength cs ≤ cs.length := by
  unfold commentLength
  cases hLevel : openingLevel? cs with
  | none => exact runLength_le _ cs
  | some level =>
    simp only
    cases hThrough : lengthThrough (closingBracket level) (cs.drop (level + 2)) with
    | none => exact Nat.le_refl _
    | some n =>
      obtain ⟨hLe, -⟩ := endsFirst_of_lengthThrough (closingBracket_ne_nil level) hThrough
      have hOpening := length_of_openingLevel? hLevel
      rw [length_drop] at hLe
      simp only
      omega

/-! ## Longest matches and faults -/

/-- A text at the front is the longest that any pattern describes, and only a pattern of names
describes it apart from its own. -/
structure IsLongest (k : Option Kind) (w cs : List Char) : Prop where
  front : w <+: cs
  mem : w ∈ pattern k
  longest : ∀ k' w', w' ∈ pattern k' → w' <+: cs → w'.length ≤ w.length
  keyword : ∀ k', w ∈ pattern k' → k' = k ∨ k' = some .ident

/-- The ways in which a text is at fault at its front, with the part that is reported: a short
string that breaks off, a bracket with stray equals signs, a long bracket that is not closed,
and a character that starts nothing. -/
inductive IsFault : List Char → List Char → Prop where
  | quote {quote : Char} {body rest : List Char} (hQuote : isQuote quote = true)
      (hBody : body ∈ (quotedUnit quote)∗) (hRest : BreaksOff rest) :
      IsFault (quote :: body) (quote :: (body ++ rest))
  | stray {level : Nat} {rest : List Char} (hEqual : rest.head? ≠ some '=')
      (hOpening : rest.head? ≠ some '[') :
      IsFault ('[' :: List.replicate (level + 1) '=')
        ('[' :: (List.replicate (level + 1) '=' ++ rest))
  | unclosed {level : Nat} {body : List Char} (h : ¬ closingBracket level <:+: body) :
      IsFault (openingBracket level ++ body) (openingBracket level ++ body)
  | character {c : Char} {rest : List Char} (h : ∀ k w, c :: w ∉ pattern k) :
      IsFault [c] (c :: rest)

theorem IsFault.front (h : IsFault w cs) : w <+: cs := by
  cases h with
  | quote => exact cons_prefix_cons.mpr ⟨rfl, prefix_append _ _⟩
  | stray => exact cons_prefix_cons.mpr ⟨rfl, prefix_append _ _⟩
  | unclosed => exact prefix_refl _
  | character => exact ⟨_, rfl⟩

theorem IsFault.ne_nil (h : IsFault w cs) : w ≠ [] := by
  cases h with
  | unclosed => simp [openingBracket]
  | _ => exact cons_ne_nil _ _

/-- A described text is not empty. -/
theorem ne_nil_of_mem (hw : w ∈ pattern k) : w ≠ [] := by
  cases shape_of_mem hw with
  | blanks h => exact (mem_some.mp h).1
  | comment h | hashLine h =>
    obtain ⟨v, -, rfl⟩ := mem_exactly_mul.mp h
    exact cons_ne_nil _ _
  | name h =>
    obtain ⟨c, v, -, -, rfl⟩ := mem_name.mp h
    exact cons_ne_nil c v
  | keyword h =>
    obtain ⟨c, v, -, -, rfl⟩ := mem_name.mp (name_of_keyword h)
    exact cons_ne_nil c v
  | symbol h =>
    obtain ⟨c, v, rfl, -⟩ := symbol_starts h
    exact cons_ne_nil c v
  | number h =>
    rintro rfl
    cases (length_le_numberLength h (prefix_refl [])).1
  | string hQuote h =>
    obtain ⟨v, -, u, ⟨c, -, rfl⟩, rfl⟩ := Language.mem_mul.mp h
    simp
  | longString h =>
    obtain ⟨level, body, rfl, -⟩ := h
    simp [openingBracket]

/-! ## What scanning finds -/

/-- A result of scanning is right: what it takes is described, or it is a fault. -/
inductive Found (cs : List Char) : Option Kind × Nat → Prop where
  | described {k : Option Kind} {n : Nat} (hLe : n ≤ cs.length) (hMem : cs.take n ∈ pattern k) :
      Found cs (k, n)
  | fault {w : List Char} (h : IsFault w cs) : Found cs (some .error, w.length)

section Branches

variable {c : Char} {rest : List Char}

theorem found_skip (h : skipLength cs ≠ 0) : Found cs (none, skipLength cs) := by
  unfold skipLength at h ⊢
  split
  next rest =>
    have hLe := commentLength_le rest
    refine .described (by simp only [length_cons]; omega) (.inl (.inr ?_))
    rw [Nat.add_comm, take_succ_cons, take_succ_cons]
    exact mem_exactly_mul.mpr ⟨_, take_commentLength_mem, rfl⟩
  next rest =>
    have hLe := runLength_le (fun c => decide (c ≠ '\n')) rest
    refine .described (by simp only [length_cons]; omega) (.inr ?_)
    rw [Nat.add_comm, take_succ_cons, take_succ_cons]
    refine mem_exactly_mul.mpr ⟨_, mem_star_one.mpr fun c hc => ?_, rfl⟩
    simpa using all_take_runLength c hc
  next hDash hHash =>
    split at h
    next => exact absurd rfl (hDash _)
    next => exact absurd rfl (hHash _)
    next =>
      refine .described (runLength_le _ _) (.inl (.inl ?_))
      rw [blanks, blank_eq]
      refine mem_some.mpr ⟨fun hNil => h ?_, all_take_runLength⟩
      rw [take_runLength] at hNil
      rw [runLength, hNil]
      rfl

theorem found_name (hc : isNameStart c = true) : Found (c :: rest) (scan (c :: rest)) := by
  rw [scan_name hc]
  have hLe := runLength_le isNamePart rest
  have hTake : (c :: rest).take (1 + runLength isNamePart rest) =
      c :: rest.take (runLength isNamePart rest) := by
    rw [Nat.add_comm, take_succ_cons]
  refine .described (by simp only [length_cons]; omega) ?_
  rcases ofWord_eq_ident_or_mem (String.ofList ((c :: rest).take (1 + runLength isNamePart rest)))
    with hKind | hKind
  · rw [hKind, hTake]
    exact mem_name.mpr ⟨c, _, hc, all_take_runLength, rfl⟩
  · exact mem_pattern_of_spelling? (spelling?_of_mem (mem_append_left _ hKind))

theorem found_number (h : startsNumber cs = true) : Found cs (scan cs) := by
  rw [scan_number h]
  exact .described (numberLength_le cs) (take_numberLength_mem h)

/-- Units between two quotes are a string. -/
theorem string_mem_pattern (hc : isQuote c = true) {inside : List Char}
    (hInside : inside ∈ (quotedUnit c)∗) : [c] ++ inside ++ [c] ∈ pattern (some .string) := by
  have hOne : [c] ∈ oneOf [c] := ⟨c, by simp, rfl⟩
  have hMem : [c] ++ inside ++ [c] ∈ quoted c :=
    Language.append_mem_mul (Language.append_mem_mul hOne hInside) hOne
  simp only [isQuote, Bool.or_eq_true, decide_eq_true_eq] at hc
  rcases hc with rfl | rfl
  · exact .inl hMem
  · exact .inr hMem

theorem found_quote (hc : isQuote c = true) : Found (c :: rest) (scan (c :: rest)) := by
  rw [scan_quote hc]
  obtain ⟨inside, behind, hInside, rfl, hEnd⟩ := exists_of_quotedLength c rest
  rcases hEnd with ⟨hLength, tail, rfl⟩ | ⟨hLength, hBreaks⟩
  · rw [hLength]
    refine .described (by simp) ?_
    have hTake :
        (c :: (inside ++ c :: tail)).take (inside.length + 1 + 1) = [c] ++ inside ++ [c] := by
      rw [take_succ_cons, take_length_add_append]
      rfl
    rw [hTake]
    exact string_mem_pattern hc hInside
  · rw [hLength]
    exact .fault (.quote hc hInside hBreaks)

theorem found_bracket : Found ('[' :: rest) (scan ('[' :: rest)) := by
  rw [scan_bracket]
  unfold scanBracket
  cases hLevel : openingLevel? ('[' :: rest) with
  | some level =>
    have hOpening := length_of_openingLevel? hLevel
    simp only
    cases hThrough : lengthThrough (closingBracket level) (('[' :: rest).drop (level + 2)) with
    | some n =>
      obtain ⟨hLe, -⟩ := endsFirst_of_lengthThrough (closingBracket_ne_nil level) hThrough
      rw [length_drop] at hLe
      have hAll : level + 2 + n ≤ ('[' :: rest).length := by omega
      exact .described hAll (take_longBracket_mem hLevel hThrough)
    | none =>
      have hFault := IsFault.unclosed
        ((lengthThrough_eq_none_iff (closingBracket_ne_nil level)).mp hThrough)
      rw [openingBracket_append_drop hLevel] at hFault
      exact .fault hFault
  | none =>
    simp only [drop_succ_cons, drop_zero]
    cases hRun : runLength (· = '=') rest with
    | zero => exact .described (by simp) (rfl : Kind.leftBracket.spelling? = some "[")
    | succ level =>
      have hEquals : rest.takeWhile (· = '=') = List.replicate (level + 1) '=' :=
        eq_replicate_iff.mpr ⟨hRun, fun c hc => by simpa using mem_takeWhile_imp hc⟩
      have hRest : rest = List.replicate (level + 1) '=' ++ rest.dropWhile (· = '=') := by
        rw [← hEquals, takeWhile_append_dropWhile]
      have hFault : IsFault ('[' :: List.replicate (level + 1) '=') ('[' :: rest) := by
        rw [hRest]
        refine .stray (fun hHead => ?_) (fun hHead => ?_)
        · have hNot := head?_dropWhile_not (· = '=') rest
          rw [hHead] at hNot
          cases hNot
        · obtain ⟨tail, hTail⟩ := head?_eq_some_iff.mp hHead
          have hSome : openingLevel? ('[' :: rest) = some (level + 1) := by
            refine openingLevel?_eq_some_iff.mpr ⟨tail, ?_⟩
            rw [hRest, hTail]
            simp [openingBracket]
          rw [hLevel] at hSome
          cases hSome
      have hFound := Found.fault hFault
      rwa [length_cons, length_replicate] at hFound

/-- The first character of a symbol is a symbol. -/
theorem symbol_of_first {v : List Char} {kind : Kind}
    (h : (String.ofList (c :: v), kind) ∈ Kind.symbols) :
    ∃ kind', (String.ofList [c], kind') ∈ Kind.symbols := by
  have hAll : (Kind.symbols.all fun entry => Kind.symbols.any fun entry' =>
      entry'.1.toList = entry.1.toList.take 1) = true := by decide
  obtain ⟨⟨text, kind'⟩, hMem, hText⟩ := any_eq_true.mp (all_eq_true.1 hAll _ h)
  simp only [String.toList_ofList, take_succ_cons, take_zero, decide_eq_true_eq] at hText
  rw [← hText, String.ofList_toList]
  exact ⟨kind', hMem⟩

/-- A character that is no symbol and starts no blank, name, number or string starts nothing. -/
theorem not_mem_pattern_of_first {k : Option Kind} {w : List Char} (hBlank : isAsciiBlank c = false)
    (hName : isNameStart c = false) (hDigit : c.isDigit = false) (hQuote : isQuote c = false)
    (hNotSymbol : ∀ kind, (String.ofList [c], kind) ∉ Kind.symbols) : c :: w ∉ pattern k := by
  intro hw
  cases shape_of_mem hw with
  | blanks h =>
    rw [blanks, blank_eq] at h
    have hc := (mem_some.mp h).2 c (by simp)
    rw [hBlank] at hc
    cases hc
  | comment h =>
    obtain ⟨v, -, hEq⟩ := mem_exactly_mul.mp h
    obtain rfl : c = '-' := (List.cons.inj hEq).1
    exact hNotSymbol .minus (by decide)
  | hashLine h =>
    obtain ⟨v, -, hEq⟩ := mem_exactly_mul.mp h
    obtain rfl : c = '#' := (List.cons.inj hEq).1
    exact hNotSymbol .hash (by decide)
  | name h =>
    obtain ⟨d, v, hd, -, hEq⟩ := mem_name.mp h
    rw [(List.cons.inj hEq).1, hd] at hName
    cases hName
  | keyword h =>
    obtain ⟨d, v, hd, -, hEq⟩ := mem_name.mp (name_of_keyword h)
    rw [(List.cons.inj hEq).1, hd] at hName
    cases hName
  | symbol h =>
    obtain ⟨kind, hMem⟩ := symbol_of_first h
    exact hNotSymbol kind hMem
  | number h =>
    have hStart := (length_le_numberLength h (prefix_refl (c :: w))).1
    rcases isDigit_of_startsNumber hStart with hFirst | ⟨rfl, -⟩
    · rw [hDigit] at hFirst
      cases hFirst
    · exact hNotSymbol .dot (by decide)
  | @string _ quote hq h =>
    obtain ⟨_, hOpened, _, -, hEq⟩ := Language.mem_mul.mp h
    obtain ⟨first, inside, hFirst, -, rfl⟩ := mem_one_mul.mp hOpened
    obtain rfl : first = c := (List.cons.inj hEq).1
    obtain rfl : first = quote := by simpa using hFirst
    rw [hq] at hQuote
    cases hQuote
  | longString h =>
    obtain ⟨level, body, hEq, -⟩ := h
    obtain rfl : c = '[' := (List.cons.inj hEq).1
    exact hNotSymbol .leftBracket (by decide)

theorem found_symbol (hSkip : skipLength (c :: rest) = 0) (hName : isNameStart c = false)
    (hNumber : startsNumber (c :: rest) = false) (hQuote : isQuote c = false) (hBracket : c ≠ '[') :
    Found (c :: rest) (scan (c :: rest)) := by
  rw [scan_symbol hSkip hName hNumber hQuote hBracket]
  by_cases hSymbol : ∃ w kind, (String.ofList w, kind) ∈ Kind.symbols ∧ w <+: c :: rest
  · obtain ⟨w, kind, hw, hFront⟩ := hSymbol
    obtain ⟨v, kind', hv, hPrefix, hAt, -⟩ := symbolAt?_of_mem hw hFront
    rw [hAt, Option.getD_some]
    refine .described hPrefix.length_le ?_
    rw [← prefix_iff_eq_take.mp hPrefix]
    exact mem_pattern_of_spelling? (spelling?_of_mem (mem_append_right _ hv))
  · have hNone : symbolAt? (c :: rest) = none := by
      rw [symbolAt?, Option.map_eq_none_iff, find?_eq_none]
      intro entry hEntry hFront
      refine hSymbol ⟨entry.1.toList, entry.2, ?_, isPrefixOf_iff_prefix.mp hFront⟩
      rwa [String.ofList_toList]
    have hBlank := ((skipLength_eq_zero_iff c rest).mp hSkip).1
    have hDigit : c.isDigit = false := by
      by_contra hFirst
      simp [startsNumber, hFirst] at hNumber
    rw [hNone]
    refine .fault (.character fun k w => ?_)
    exact not_mem_pattern_of_first hBlank hName hDigit hQuote fun kind hMem =>
      hSymbol ⟨[c], kind, hMem, rest, rfl⟩

end Branches

/-- **What scanning takes is described, or it is a fault.** -/
theorem found_scan (hNonempty : cs ≠ []) : Found cs (scan cs) := by
  obtain ⟨c, rest, rfl⟩ := exists_cons_of_ne_nil hNonempty
  by_cases hSkip : skipLength (c :: rest) = 0
  · by_cases hName : isNameStart c = true
    · exact found_name hName
    by_cases hNumber : startsNumber (c :: rest) = true
    · exact found_number hNumber
    by_cases hQuote : isQuote c = true
    · exact found_quote hQuote
    by_cases hBracket : c = '['
    · subst hBracket
      exact found_bracket
    · simp only [Bool.not_eq_true] at hName hNumber hQuote
      exact found_symbol hSkip hName hNumber hQuote hBracket
  · obtain ⟨n, hn⟩ := Nat.exists_eq_succ_of_ne_zero hSkip
    have hFound := found_skip hSkip
    rwa [hn, ← scan_of_skip hn] at hFound

theorem error_notMem_pattern : w ∉ pattern (some .error) := by
  intro hw
  cases (hw : Kind.error.spelling? = some (String.ofList w))

theorem pos_of_scan {n : Nat} (hNonempty : cs ≠ []) (h : scan cs = (k, n)) :
    0 < n ∧ n ≤ cs.length := by
  have hFound := found_scan hNonempty
  rw [h] at hFound
  cases hFound with
  | described hLe hMem =>
    refine ⟨Nat.pos_of_ne_zero ?_, hLe⟩
    rintro rfl
    exact ne_nil_of_mem hMem rfl
  | fault hFault =>
    exact ⟨length_pos_iff.mpr hFault.ne_nil, hFault.front.length_le⟩

/-- **What scanning takes is the longest match**, errors apart. -/
theorem isLongest_of_scan {n : Nat} (hNonempty : cs ≠ []) (h : scan cs = (k, n))
    (hKind : k ≠ some .error) : IsLongest k (cs.take n) cs := by
  have hFound := found_scan hNonempty
  rw [h] at hFound
  cases hFound with
  | fault => exact absurd rfl hKind
  | described hLe hMem =>
    have hLength : (cs.take n).length = n := by rw [length_take, Nat.min_eq_left hLe]
    refine ⟨List.take_prefix n cs, hMem, fun k' w' hw' hFront => ?_, fun k' hw' => ?_⟩
    · have hLe := (takesAtLeast_of_mem hw' hFront).length_le
      rw [hLength]
      rwa [h] at hLe
    · have hSame := (takesAtLeast_of_mem hw' (List.take_prefix n cs)).kind
      rw [h, hLength] at hSame
      exact (hSame rfl).imp_left Eq.symm

theorem isFault_of_scan {n : Nat} (hNonempty : cs ≠ []) (h : scan cs = (some .error, n)) :
    IsFault (cs.take n) cs := by
  have hFound := found_scan hNonempty
  rw [h] at hFound
  cases hFound with
  | described hLe hMem => exact absurd hMem error_notMem_pattern
  | fault hFault => rwa [← prefix_iff_eq_take.mp hFault.front]

/-- **A fault is reported, with its extent.** -/
theorem scan_of_isFault (h : IsFault w cs) : scan cs = (some .error, w.length) := by
  cases h with
  | @quote quote body rest hQuote hBody hRest =>
    have hLength : quotedLength quote (body ++ rest) = (false, body.length) := by
      rw [quotedLength_units_append hBody, quotedLength_of_breaksOff hQuote hRest, Nat.zero_add]
    rw [scan_quote hQuote, hLength]
    rfl
  | @stray level rest hEqual hOpening =>
    have hStops : runLength (· = '=') rest = 0 := by
      cases rest with
      | nil => rfl
      | cons c rest => simpa [runLength] using hEqual
    have hRun : runLength (· = '=') (List.replicate (level + 1) '=' ++ rest) = level + 1 := by
      rw [runLength_append_of_all (by simp), hStops, length_replicate]
    have hDrop : (List.replicate (level + 1) '=' ++ rest).drop (level + 1) = rest :=
      drop_left' length_replicate
    have hLevel : openingLevel? ('[' :: (List.replicate (level + 1) '=' ++ rest)) = none := by
      simp only [openingLevel?, hRun, hDrop]
      cases rest with
      | nil => rfl
      | cons c rest =>
        have hc : c ≠ '[' := by simpa using hOpening
        simp [hc]
    rw [scan_bracket, scanBracket, hLevel]
    simp only [drop_succ_cons, drop_zero, hRun, length_cons, length_replicate]
  | @unclosed level body hOpen =>
    have hLevel : openingLevel? (openingBracket level ++ body) = some level :=
      openingLevel?_eq_some_iff.mpr (prefix_append _ _)
    have hDrop : (openingBracket level ++ body).drop (level + 2) = body := by
      rw [← length_openingBracket, drop_left]
    have hBracket : scanBracket (openingBracket level ++ body) =
        (.error, (openingBracket level ++ body).length) := by
      rw [scanBracket, hLevel]
      simp only [hDrop, (lengthThrough_eq_none_iff (closingBracket_ne_nil level)).mpr hOpen]
    rw [openingBracket, cons_append] at hBracket ⊢
    rw [scan_bracket, hBracket]
  | @character c rest hNone =>
    have hFound := found_scan (cons_ne_nil c rest)
    have hBracket : c ≠ '[' := by
      rintro rfl
      exact hNone (some .leftBracket) [] (rfl : Kind.leftBracket.spelling? = some "[")
    generalize scan (c :: rest) = result at hFound
    cases hFound with
    | @described k n hLe hMem =>
      cases n with
      | zero => exact absurd rfl (ne_nil_of_mem hMem)
      | succ n => exact absurd hMem (hNone k _)
    | fault hFault =>
      generalize hText : c :: rest = text at hFault
      cases hFault with
      | quote hQuote =>
        obtain rfl := (List.cons.inj hText).1
        exact absurd (string_mem_pattern hQuote (Language.nil_mem_kstar _)) (hNone _ _)
      | stray => exact absurd (List.cons.inj hText).1 hBracket
      | unclosed => exact absurd (List.cons.inj hText).1 hBracket
      | character => rfl

end LuaShape.Token
