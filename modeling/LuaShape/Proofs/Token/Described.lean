import LuaShape.Proofs.Token.Quotation

/-!
# Described texts are taken whole

Where a pattern describes a text at the front, scanning takes at least as much
(`takesAtLeast_of_mem`).  If it takes just that text, it gives it the kind of the pattern,
or that of a keyword where the text is also a name.

The patterns are taken one after the other, each with the branch of the scanner that its
first characters lead to.
-/

namespace LuaShape.Token

open List

open LuaShape.Text Pattern
open scoped Computability

variable {w cs : List Char} {k : Option Kind}

/-! ## What a pattern describes -/

/-- The kinds of texts that patterns describe. -/
inductive Shape : Option Kind → List Char → Prop where
  | blanks {w : List Char} (h : w ∈ Pattern.blanks) : Shape none w
  | comment {w : List Char} (h : w ∈ Pattern.comment) : Shape none w
  | hashLine {w : List Char} (h : w ∈ Pattern.hashLine) : Shape none w
  | name {w : List Char} (h : w ∈ Pattern.name) : Shape (some .ident) w
  | keyword {w : List Char} {kind : Kind} (h : (String.ofList w, kind) ∈ Kind.keywords) :
      Shape (some kind) w
  | symbol {w : List Char} {kind : Kind} (h : (String.ofList w, kind) ∈ Kind.symbols) :
      Shape (some kind) w
  | number {w : List Char} (h : w ∈ Pattern.number) : Shape (some .number) w
  | string {w : List Char} {quote : Char} (hQuote : isQuote quote = true)
      (h : w ∈ Pattern.quoted quote) : Shape (some .string) w
  | longString {w : List Char} (h : w ∈ Pattern.longBracket) : Shape (some .longString) w

variable {kind : Kind}

theorem mem_of_spelling? {text : String} (h : kind.spelling? = some text) :
    (text, kind) ∈ Kind.keywords ++ Kind.symbols := by
  obtain ⟨entry, hFind, rfl⟩ := Option.map_eq_some_iff.mp h
  have hKind := find?_some hFind
  obtain rfl : entry.2 = kind := of_decide_eq_true hKind
  exact mem_of_find?_eq_some hFind

theorem spelling?_of_mem {text : String} (h : (text, kind) ∈ Kind.keywords ++ Kind.symbols) :
    kind.spelling? = some text := by
  have hAll : ((Kind.keywords ++ Kind.symbols).all fun entry =>
      entry.2.spelling? = some entry.1) = true := by decide
  exact of_decide_eq_true (all_eq_true.1 hAll _ h)

theorem shape_of_mem (h : w ∈ pattern k) : Shape k w := by
  have hSpelled : ∀ {kind : Kind},
      kind.spelling? = some (String.ofList w) → Shape (some kind) w := by
    intro kind hSpelling
    rcases mem_append.mp (mem_of_spelling? hSpelling) with hMem | hMem
    · exact .keyword hMem
    · exact .symbol hMem
  cases k with
  | none =>
    rcases h with (h | h) | h
    · exact .blanks h
    · exact .comment h
    · exact .hashLine h
  | some kind =>
    cases kind with
    | ident => exact .name h
    | number => exact .number h
    | string =>
      rcases h with h | h
      · exact .string (by decide) h
      · exact .string (by decide) h
    | longString => exact .longString h
    | _ => exact hSpelled h

theorem mem_pattern_of_spelling? (h : kind.spelling? = some (String.ofList w)) :
    w ∈ pattern (some kind) := by
  cases kind with
  | ident | number | string | longString => cases h
  | _ => exact h

/-! ## The branches of the scanner -/

theorem scan_of_skip {n : Nat} (h : skipLength cs = n + 1) : scan cs = (none, n + 1) := by
  simp only [scan, h]

theorem scan_of_token (h : skipLength cs = 0) :
    scan cs = (some (scanToken cs).1, (scanToken cs).2) := by
  simp only [scan, h]

section Branches

variable {c : Char} {rest : List Char}

theorem isDigit_of_isNameStart (hc : isNameStart c = true) : c.isDigit = false := by
  simp only [isNameStart_eq, Bool.or_eq_true, Bool.and_eq_true, decide_eq_true_eq,
    UInt32.le_iff_toNat_le, ge_iff_le] at hc
  rw [Bool.eq_false_iff]
  intro hDigit
  simp only [Char.isDigit, Bool.and_eq_true, decide_eq_true_eq, UInt32.le_iff_toNat_le,
    ge_iff_le] at hDigit
  rcases hc with (hc | hc) | rfl
  · have hUpper : 65 ≤ c.val.toNat := hc.1
    have hNine : c.val.toNat ≤ 57 := hDigit.2
    omega
  · have hLower : 97 ≤ c.val.toNat := hc.1
    have hNine : c.val.toNat ≤ 57 := hDigit.2
    omega
  · exact absurd hDigit (by decide)

theorem isAsciiBlank_of_isNameStart (hc : isNameStart c = true) : isAsciiBlank c = false := by
  by_contra hBlank
  have hPart := isNamePart_of_isAsciiBlank (Bool.eq_true_of_not_eq_false hBlank)
  simp only [isNamePart, Char.isAlphanum, Bool.or_eq_false_iff] at hPart
  simp [isNameStart, hPart.1.1, hPart.2] at hc

theorem skipLength_blank (hc : isAsciiBlank c = true) (rest : List Char) :
    skipLength (c :: rest) = runLength isAsciiBlank (c :: rest) := by
  unfold skipLength
  split
  next heq =>
    cases heq
    cases hc
  next heq =>
    cases heq
    cases hc
  next => rfl

theorem scan_name (hc : isNameStart c = true) (rest : List Char) :
    scan (c :: rest) = (some (Kind.ofWord (String.ofList ((c :: rest).take
      (1 + runLength isNamePart rest)))), 1 + runLength isNamePart rest) := by
  have hSkip : skipLength (c :: rest) = 0 := by
    refine (skipLength_eq_zero_iff c rest).mpr ⟨isAsciiBlank_of_isNameStart hc, ?_, ?_⟩
    · rintro rfl
      cases hc
    · rintro rfl
      cases hc
  rw [scan_of_token hSkip]
  simp only [scanToken, if_pos hc]

theorem scan_number (h : startsNumber cs = true) : scan cs = (some .number, numberLength cs) := by
  cases cs with
  | nil => cases h
  | cons c rest =>
    rcases isDigit_of_startsNumber h with hDigit | ⟨rfl, -⟩
    · have hName : ¬ isNameStart c = true := fun hName => by
        rw [isDigit_of_isNameStart hName] at hDigit
        cases hDigit
      have hBlank : isAsciiBlank c = false := by
        by_contra hBlank
        rw [isDigit_of_isAsciiBlank (Bool.eq_true_of_not_eq_false hBlank)] at hDigit
        cases hDigit
      have hSkip : skipLength (c :: rest) = 0 := by
        refine (skipLength_eq_zero_iff c rest).mpr ⟨hBlank, ?_, ?_⟩
        · rintro rfl
          cases hDigit
        · rintro rfl
          cases hDigit
      rw [scan_of_token hSkip]
      simp only [scanToken, if_neg hName, if_pos h]
    · have hSkip : skipLength ('.' :: rest) = 0 := rfl
      have hName : ¬ isNameStart '.' = true := by decide
      rw [scan_of_token hSkip]
      simp only [scanToken, if_neg hName, if_pos h]

theorem scan_quote (hc : isQuote c = true) (rest : List Char) :
    scan (c :: rest) = (some (if (quotedLength c rest).1 then .string else .error),
      (quotedLength c rest).2 + 1) := by
  simp only [isQuote, Bool.or_eq_true, decide_eq_true_eq] at hc
  rcases hc with rfl | rfl <;> rfl

theorem scan_bracket (rest : List Char) : scan ('[' :: rest) =
    (some (scanBracket ('[' :: rest)).1, (scanBracket ('[' :: rest)).2) := rfl

/-- Where nothing else starts, a symbol does or nothing. -/
theorem scan_symbol (hSkip : skipLength (c :: rest) = 0) (hName : isNameStart c = false)
    (hNumber : startsNumber (c :: rest) = false) (hQuote : isQuote c = false) (hBracket : c ≠ '[') :
    scan (c :: rest) = (some ((symbolAt? (c :: rest)).getD (.error, 1)).1,
      ((symbolAt? (c :: rest)).getD (.error, 1)).2) := by
  rw [scan_of_token hSkip]
  simp only [scanToken, hName, hNumber, hQuote, Bool.false_eq_true, if_false, if_neg hBracket]

end Branches

/-! ## No described text is longer -/

/-- Scanning takes at least as much as a text that a pattern describes; if it takes the same,
the kinds agree, keywords apart; and only an opening bracket can be described where it finds
an error. -/
structure TakesAtLeast (k : Option Kind) (w cs : List Char) : Prop where
  length_le : w.length ≤ (scan cs).2
  kind : w.length = (scan cs).2 → (scan cs).1 = k ∨ k = some .ident
  error : (scan cs).1 = some .error → w = ['[']

theorem takesAtLeast_of_scan {n : Nat} (h : scan cs = (k, n)) (hKind : k ≠ some .error)
    (hLe : w.length ≤ n) : TakesAtLeast k w cs where
  length_le := by rwa [h]
  kind _ := .inl (by rw [h])
  error hError := absurd (by rw [← hError, h]) hKind

theorem mem_name : w ∈ name ↔
    ∃ c v, isNameStart c = true ∧ (∀ d ∈ v, isNamePart d = true) ∧ w = c :: v := by
  rw [name, letter_add_digit_eq, letter_eq, mem_one_mul]
  simp only [mem_star_one]

theorem ofWord_eq_ident_or_mem (text : String) :
    Kind.ofWord text = .ident ∨ (text, Kind.ofWord text) ∈ Kind.keywords := by
  unfold Kind.ofWord
  cases hFind : Kind.keywords.find? fun entry => entry.1 = text with
  | none => exact .inl rfl
  | some entry =>
    obtain rfl : entry.1 = text := of_decide_eq_true (find?_some hFind :)
    exact .inr (mem_of_find?_eq_some hFind)

variable {kind : Kind}

theorem ofWord_of_mem {text : String} (h : (text, kind) ∈ Kind.keywords) :
    Kind.ofWord text = kind := by
  have hAll : (Kind.keywords.all fun entry => Kind.ofWord entry.1 = entry.2) = true := by
    decide
  exact of_decide_eq_true (all_eq_true.1 hAll _ h)

theorem ofWord_ne_error (text : String) : Kind.ofWord text ≠ .error := by
  rcases ofWord_eq_ident_or_mem text with h | h
  · rw [h]
    simp
  · intro hError
    rw [hError] at h
    have hAll : (Kind.keywords.all fun entry => entry.2 ≠ .error) = true := by decide
    exact absurd rfl (of_decide_eq_true (all_eq_true.1 hAll _ h))

theorem name_of_keyword (h : (String.ofList w, kind) ∈ Kind.keywords) : w ∈ name := by
  have hAll : (Kind.keywords.all fun entry => !entry.1.toList.isEmpty &&
      (entry.1.toList.take 1).all isNameStart &&
        (entry.1.toList.drop 1).all isNamePart) = true := by
    decide
  have hw := all_eq_true.1 hAll _ h
  simp only [String.toList_ofList] at hw
  cases w with
  | nil => cases hw
  | cons c v =>
    refine mem_name.mpr ⟨c, v, ?_⟩
    simpa using hw

theorem takesAtLeast_name (hw : w ∈ name) (hFront : w <+: cs)
    (hKind : k = some .ident ∨ k = some (Kind.ofWord (String.ofList w))) : TakesAtLeast k w cs := by
  obtain ⟨c, v, hc, hv, rfl⟩ := mem_name.mp hw
  obtain ⟨rest, rfl⟩ := hFront
  have hScan := scan_name hc (v ++ rest)
  rw [← cons_append] at hScan
  have hLe := length_le_runLength hv (prefix_append v rest)
  constructor
  · rw [hScan, length_cons]
    omega
  · intro hEq
    rcases hKind with rfl | rfl
    · exact .inr rfl
    · rw [hScan] at hEq ⊢
      simp only at hEq
      rw [← hEq, take_left]
      exact .inl rfl
  · intro hError
    rw [hScan] at hError
    exact absurd (Option.some.inj hError) (ofWord_ne_error _)

theorem takesAtLeast_blanks (hw : w ∈ blanks) (hFront : w <+: cs) : TakesAtLeast none w cs := by
  rw [blanks, blank_eq] at hw
  obtain ⟨hNonempty, hw⟩ := mem_some.mp hw
  have hLe := length_le_runLength hw hFront
  obtain ⟨c, v, rfl⟩ := exists_cons_of_ne_nil hNonempty
  obtain ⟨rest, rfl⟩ := hFront
  have hSkip := skipLength_blank (hw c (by simp)) (v ++ rest)
  simp only [length_cons, cons_append] at hLe ⊢
  obtain ⟨n, hn⟩ : ∃ n, runLength isAsciiBlank (c :: (v ++ rest)) = n + 1 :=
    ⟨runLength isAsciiBlank (c :: (v ++ rest)) - 1, by omega⟩
  refine takesAtLeast_of_scan (scan_of_skip (hSkip.trans hn)) (by simp) ?_
  simp only [length_cons]
  omega

theorem takesAtLeast_comment (hw : w ∈ comment) (hFront : w <+: cs) : TakesAtLeast none w cs := by
  obtain ⟨v, hv, rfl⟩ := mem_exactly_mul.mp hw
  obtain ⟨rest, rfl⟩ := hFront
  have hLe := length_le_commentLength hv (prefix_append v rest)
  have hSkip : skipLength ("--".toList ++ v ++ rest) = 1 + commentLength (v ++ rest) + 1 := by
    show 2 + commentLength (v ++ rest) = _
    omega
  refine takesAtLeast_of_scan (scan_of_skip hSkip) (by simp) ?_
  show v.length + 2 ≤ _
  omega

theorem takesAtLeast_hashLine (hw : w ∈ hashLine) (hFront : w <+: cs) : TakesAtLeast none w cs := by
  obtain ⟨v, hv, rfl⟩ := mem_exactly_mul.mp hw
  obtain ⟨rest, rfl⟩ := hFront
  have hAll : ∀ c ∈ v, (decide (c ≠ '\n')) = true := by
    simpa using mem_star_one.mp hv
  have hLe := length_le_runLength hAll (prefix_append v rest)
  have hSkip : skipLength ("#!".toList ++ v ++ rest) =
      1 + runLength (fun c => decide (c ≠ '\n')) (v ++ rest) + 1 := by
    show 2 + runLength (fun c => decide (c ≠ '\n')) (v ++ rest) = _
    omega
  refine takesAtLeast_of_scan (scan_of_skip hSkip) (by simp) ?_
  show v.length + 2 ≤ _
  omega

theorem takesAtLeast_number (hw : w ∈ number) (hFront : w <+: cs) :
    TakesAtLeast (some .number) w cs := by
  obtain ⟨hStart, hLe⟩ := length_le_numberLength hw hFront
  exact takesAtLeast_of_scan (scan_number hStart) (by simp) hLe

theorem takesAtLeast_string {quote : Char} (hQuote : isQuote quote = true) (hw : w ∈ quoted quote)
    (hFront : w <+: cs) : TakesAtLeast (some .string) w cs := by
  obtain ⟨_, hOpened, _, ⟨last, hLast, rfl⟩, rfl⟩ := Language.mem_mul.mp hw
  obtain ⟨first, inside, hFirst, hInside, rfl⟩ := mem_one_mul.mp hOpened
  obtain rfl : first = quote := by simpa using hFirst
  obtain rfl : last = first := by simpa using hLast
  obtain ⟨rest, rfl⟩ := hFront
  have hEscape : last ≠ '\\' := by
    rintro rfl
    cases hQuote
  have hClosed : quotedLength last (inside ++ (last :: rest)) = (true, 1 + inside.length) := by
    rw [quotedLength_units_append hInside, quotedLength_closed hEscape]
  have hScan := scan_quote hQuote (inside ++ (last :: rest))
  rw [hClosed, if_pos rfl] at hScan
  have hText : last :: inside ++ [last] ++ rest = last :: (inside ++ (last :: rest)) := by simp
  rw [← hText] at hScan
  refine takesAtLeast_of_scan hScan (by simp) ?_
  simp only [cons_append, length_cons, length_append, length_nil]
  omega

theorem takesAtLeast_longString (hw : w ∈ longBracket) (hFront : w <+: cs) :
    TakesAtLeast (some .longString) w cs := by
  obtain ⟨level, n, hLevel, hThrough, hLength⟩ := exists_of_longBracket hw hFront
  obtain ⟨rest, rfl⟩ : ∃ rest, cs = '[' :: rest := by
    obtain ⟨tail, rfl⟩ := openingLevel?_eq_some_iff.mp hLevel
    exact ⟨_, rfl⟩
  have hBracket : scanBracket ('[' :: rest) = (.longString, level + 2 + n) := by
    simp only [scanBracket, hLevel, hThrough]
  refine takesAtLeast_of_scan (n := level + 2 + n) ?_ (by simp) hLength.le
  rw [scan_bracket, hBracket]

/-! ### Symbols -/

theorem symbols_sorted :
    Kind.symbols.Pairwise fun entry entry' => entry'.1.toList.length ≤ entry.1.toList.length := by
  decide

theorem symbols_spelled_once {text : String} {kind kind' : Kind} (h : (text, kind) ∈ Kind.symbols)
    (h' : (text, kind') ∈ Kind.symbols) : kind = kind' := by
  have hAll : (Kind.symbols.all fun entry => Kind.symbols.all fun entry' =>
      entry.1 ≠ entry'.1 || entry.2 = entry'.2) = true := by decide
  simpa using all_eq_true.1 (all_eq_true.1 hAll _ h) _ h'

/-- How a symbol starts: with no character that starts anything else, a point apart; and
where its first character may start something longer, it is that character alone. -/
theorem symbol_starts (h : (String.ofList w, kind) ∈ Kind.symbols) :
    ∃ c v, w = c :: v ∧ isAsciiBlank c = false ∧ isNameStart c = false ∧ c.isDigit = false ∧
      isQuote c = false ∧ (c = '-' ∨ c = '#' ∨ c = '[' → v = []) ∧ ∀ d ∈ v, d.isDigit = false := by
  have hAll : (Kind.symbols.all fun entry => !entry.1.toList.isEmpty &&
      (entry.1.toList.take 1).all (fun c => !isAsciiBlank c && !isNameStart c && !c.isDigit &&
        !isQuote c && (!(c = '-' || c = '#' || c = '[') || (entry.1.toList.drop 1).isEmpty)) &&
      (entry.1.toList.drop 1).all fun d => !d.isDigit) = true := by
    decide
  have hw := all_eq_true.1 hAll _ h
  simp only [String.toList_ofList] at hw
  cases w with
  | nil => cases hw
  | cons c v =>
    refine ⟨c, v, rfl, ?_⟩
    simp only [isEmpty_cons, Bool.not_false, Bool.true_and, take_succ_cons, take_zero,
      all_cons, all_nil, Bool.and_true, drop_succ_cons, drop_zero,
      Bool.and_eq_true, Bool.not_eq_true', Bool.or_eq_true, Bool.or_eq_false_iff,
      decide_eq_false_iff_not, List.isEmpty_iff, List.all_eq_true] at hw
    obtain ⟨⟨⟨⟨⟨hBlank, hName⟩, hDigit⟩, hQuote⟩, hAlone⟩, hDigits⟩ := hw
    refine ⟨hBlank, hName, hDigit, hQuote, fun hc => ?_, hDigits⟩
    rcases hAlone with hAlone | hAlone
    · exact absurd hc (by simpa [and_assoc] using hAlone)
    · exact hAlone

/-- The symbol that is found is the longest. -/
theorem symbolAt?_of_mem (h : (String.ofList w, kind) ∈ Kind.symbols) (hFront : w <+: cs) :
    ∃ v kind', (String.ofList v, kind') ∈ Kind.symbols ∧ v <+: cs ∧
      symbolAt? cs = some (kind', v.length) ∧ w.length ≤ v.length ∧
      (w.length = v.length → kind' = kind) := by
  cases hFind : Kind.symbols.find? fun entry => entry.1.toList.isPrefixOf cs with
  | none =>
    have hNot := find?_eq_none.mp hFind _ h
    rw [String.toList_ofList, isPrefixOf_iff_prefix] at hNot
    exact absurd hFront hNot
  | some entry =>
    obtain ⟨hPrefix, before, after, hSplit, hBefore⟩ := find?_eq_some_iff_append.mp hFind
    have hEntry : entry ∈ Kind.symbols := mem_of_find?_eq_some hFind
    have hv : entry.1.toList <+: cs := isPrefixOf_iff_prefix.mp hPrefix
    refine ⟨entry.1.toList, entry.2, ?_, hv, ?_, ?_⟩
    · rwa [String.ofList_toList]
    · rw [symbolAt?, hFind, Option.map_some, String.length_toList]
    have hLe : w.length ≤ entry.1.toList.length := by
      have hSorted := symbols_sorted
      rw [hSplit, pairwise_append, pairwise_cons] at hSorted
      rw [hSplit, mem_append, mem_cons] at h
      rcases h with h | h | h
      · have hNot := hBefore _ h
        rw [String.toList_ofList, Bool.not_eq_true', Bool.eq_false_iff, Ne,
          isPrefixOf_iff_prefix] at hNot
        exact absurd hFront hNot
      · rw [← h, String.toList_ofList]
      · simpa using hSorted.2.1.1 _ h
    refine ⟨hLe, fun hEq => ?_⟩
    have hSame : w = entry.1.toList :=
      (prefix_of_prefix_length_le hFront hv hLe).eq_of_length hEq
    rw [hSame, String.ofList_toList] at h
    exact symbols_spelled_once hEntry h

theorem scanBracket_cases (rest : List Char) :
    scanBracket ('[' :: rest) = (.leftBracket, 1) ∧ rest.head? ≠ some '=' ∧ rest.head? ≠ some '[' ∨
      2 ≤ (scanBracket ('[' :: rest)).2 := by
  unfold scanBracket
  cases hLevel : openingLevel? ('[' :: rest) with
  | some level =>
    have hLength := length_of_openingLevel? hLevel
    refine .inr ?_
    simp only
    cases lengthThrough (closingBracket level) (('[' :: rest).drop (level + 2)) with
    | some n => exact Nat.le_trans (Nat.le_add_left 2 level) (Nat.le_add_right _ _)
    | none => exact Nat.le_trans (Nat.le_add_left 2 level) hLength
  | none =>
    simp only [drop_succ_cons, drop_zero]
    cases hRun : runLength (· = '=') rest with
    | succ level => exact .inr (Nat.le_add_left 2 level)
    | zero =>
      refine .inl ⟨rfl, ?_, ?_⟩
      · intro hHead
        obtain ⟨tail, rfl⟩ := head?_eq_some_iff.mp hHead
        simp [runLength] at hRun
      · intro hHead
        obtain ⟨tail, rfl⟩ := head?_eq_some_iff.mp hHead
        have hSome : openingLevel? ('[' :: '[' :: tail) = some 0 :=
          openingLevel?_eq_some_iff.mpr ⟨tail, rfl⟩
        rw [hSome] at hLevel
        cases hLevel

/-- What is skipped behind a dash or a hash is longer than that. -/
theorem two_le_skipLength {c : Char} {rest : List Char} (hBlank : isAsciiBlank c = false)
    (h : skipLength (c :: rest) ≠ 0) :
    (c = '-' ∨ c = '#') ∧ scan (c :: rest) = (none, skipLength (c :: rest)) ∧
      2 ≤ skipLength (c :: rest) := by
  have hScan : scan (c :: rest) = (none, skipLength (c :: rest)) := by
    obtain ⟨n, hn⟩ := Nat.exists_eq_succ_of_ne_zero h
    rw [scan_of_skip hn, hn]
  have hCases : (c = '-' ∧ rest.head? = some '-') ∨ (c = '#' ∧ rest.head? = some '!') := by
    by_contra hNot
    refine h ((skipLength_eq_zero_iff c rest).mpr ⟨hBlank, fun hc hHead => ?_, fun hc hHead => ?_⟩)
    · exact hNot (.inl ⟨hc, hHead⟩)
    · exact hNot (.inr ⟨hc, hHead⟩)
  refine ⟨hCases.imp And.left And.left, hScan, ?_⟩
  rcases hCases with ⟨rfl, hHead⟩ | ⟨rfl, hHead⟩ <;>
    obtain ⟨tail, rfl⟩ := head?_eq_some_iff.mp hHead
  · exact Nat.le_add_right 2 _
  · exact Nat.le_add_right 2 _

theorem pointed_mem_number {d : Char} (hd : d.isDigit = true) : ['.', d] ∈ number := by
  have hStart : startsNumber ['.', d] = true := by simpa [startsNumber] using hd
  have hLength : numeralLength Char.isDigit 'e' 'E' ['.', d] = 2 := by
    simp [numeralLength, runLength, fractionLength, exponentLength, hd]
  have hMem := take_decimal_mem hStart
  rwa [hLength] at hMem

theorem takesAtLeast_symbol (h : (String.ofList w, kind) ∈ Kind.symbols) (hFront : w <+: cs) :
    TakesAtLeast (some kind) w cs := by
  obtain ⟨c, v, rfl, hBlank, hName, hDigit, hQuote, hAlone, hDigits⟩ := symbol_starts h
  have hFound := symbolAt?_of_mem h hFront
  obtain ⟨rest, rfl⟩ := hFront
  rw [cons_append] at hFound ⊢
  -- where more than one character is found, a symbol of one character is shorter
  have hLonger : v = [] → 2 ≤ (scan (c :: (v ++ rest))).2 →
      ((scan (c :: (v ++ rest))).1 = some .error → c = '[') →
      TakesAtLeast (some kind) (c :: v) (c :: (v ++ rest)) := by
    rintro rfl hTwo hError
    refine ⟨?_, fun hOne => ?_, fun hScan => by rw [hError hScan]⟩
    · simp only [length_singleton]
      omega
    · simp only [length_singleton] at hOne
      omega
  by_cases hSkip : skipLength (c :: (v ++ rest)) = 0
  · by_cases hNumber : startsNumber (c :: (v ++ rest)) = true
    · rcases isDigit_of_startsNumber hNumber with hFirst | ⟨rfl, d, tail, hRest, hd⟩
      · rw [hDigit] at hFirst
        cases hFirst
      · have hv : v = [] := by
          cases v with
          | nil => rfl
          | cons x v =>
            have hx := hDigits x (by simp)
            rw [(List.cons.inj hRest).1, hd] at hx
            cases hx
        have hTwo : ['.', d].length ≤ numberLength ('.' :: (v ++ rest)) :=
          (length_le_numberLength (pointed_mem_number hd) ⟨tail, by rw [hRest]; rfl⟩).2
        refine hLonger hv ?_ ?_
        · rw [scan_number hNumber]
          exact hTwo
        · rw [scan_number hNumber]
          simp
    · by_cases hBracket : c = '['
      · subst hBracket
        rcases scanBracket_cases (v ++ rest) with ⟨hOne, -⟩ | hTwo
        · obtain rfl := hAlone (by simp)
          obtain rfl : kind = .leftBracket :=
            symbols_spelled_once h (by decide : ("[", Kind.leftBracket) ∈ Kind.symbols)
          refine takesAtLeast_of_scan (n := 1) ?_ (by simp) (by simp)
          rw [scan_bracket, hOne]
        · exact hLonger (hAlone (by simp)) (by rwa [scan_bracket]) fun _ => rfl
      · obtain ⟨u, kind', hu, -, hSymbol, hLe, hKind⟩ := hFound
        have hScan := scan_symbol hSkip hName (Bool.eq_false_iff.mpr hNumber) hQuote hBracket
        rw [hSymbol, Option.getD_some] at hScan
        refine ⟨by rwa [hScan], fun hEq => ?_, fun hError => ?_⟩
        · rw [hScan] at hEq ⊢
          rw [hKind hEq]
          exact .inl rfl
        · rw [hScan] at hError
          have hAll : (Kind.symbols.all fun entry => entry.2 ≠ .error) = true := by decide
          exact absurd (Option.some.inj hError) (of_decide_eq_true (all_eq_true.1 hAll _ hu))
  · obtain ⟨hc, hScan, hTwo⟩ := two_le_skipLength hBlank hSkip
    refine hLonger (hAlone (hc.imp_right .inl)) (by rwa [hScan]) fun hError => ?_
    rw [hScan] at hError
    cases hError

/-- **No text at the front that a pattern describes is longer than what scanning takes.** -/
theorem takesAtLeast_of_mem (hw : w ∈ pattern k) (hFront : w <+: cs) : TakesAtLeast k w cs := by
  cases shape_of_mem hw with
  | blanks h => exact takesAtLeast_blanks h hFront
  | comment h => exact takesAtLeast_comment h hFront
  | hashLine h => exact takesAtLeast_hashLine h hFront
  | name h => exact takesAtLeast_name h hFront (.inl rfl)
  | keyword h =>
    exact takesAtLeast_name (name_of_keyword h) hFront (.inr (by rw [ofWord_of_mem h]))
  | symbol h => exact takesAtLeast_symbol h hFront
  | number h => exact takesAtLeast_number h hFront
  | string hQuote h => exact takesAtLeast_string hQuote h hFront
  | longString h => exact takesAtLeast_longString h hFront

end LuaShape.Token
