import LuaShape.Proofs.Chunk.Found
import LuaShape.Proofs.Token.Neighbours
import LuaShape.Term.Basic

/-!
# Reading back the text of a string

A string is written as source text in two ways.  Between double quotes it is written byte by
byte, so that what is read back has a character for each byte (`bytewise`): the string itself
exactly if all its characters are ASCII.  Between long brackets of a level whose closing bracket
does not come up earlier it is written as it is, and loses a line break at its start; every
string has such a level.
-/

namespace LuaShape

open List

open Token Pattern
open scoped Computability

/-! ## Texts that start with a piece -/

/-- What is scanned first is a piece, and behind it the text is cut as if it stood alone. -/
theorem Token.pieces_of_scan {k : Option Kind} {text rest : String} (hText : text ≠ "")
    (hScan : scan (text.toList ++ rest.toList) = (k, text.toList.length)) :
    pieces (text ++ rest) = ⟨k, 0, text⟩ :: (pieces rest).map (Piece.shift text.utf8ByteSize) := by
  have hCut := cut_pieces (text ++ rest)
  rw [String.toList_append] at hCut
  exact hCut.unique (.of_scan hText hScan ((cut_pieces rest).shift text.utf8ByteSize))

/-- A text that is one piece. -/
theorem Token.pieces_of_scan_all {k : Option Kind} {text : String} (hText : text ≠ "")
    (hScan : scan text.toList = (k, text.toList.length)) : pieces text = [⟨k, 0, text⟩] := by
  have hPieces : pieces (text ++ "") = ⟨k, 0, text⟩ :: _ :=
    pieces_of_scan hText (by simpa using hScan)
  rwa [String.append_empty] at hPieces

/-- A text that is one string token is an expression with the value of that token. -/
theorem Expr.parse_of_stream {text value : String} {t : Token} (hStream : stream text = [t])
    (hValue : t.stringValue? = some value) :
    Expr.parse text = .ok (.string ⟨0, t.span⟩ value) := by
  have hAdvance := Cursor.advance_of_rest (c := Cursor.ofSource text) hStream
  have hString := Production.string.derives (c := Cursor.ofSource text)
    (.slot ⟨t, [], hStream, .string hValue⟩ (Cursor.derives_mint _))
  have hRun := Parser.operation_of_derives (hString.expr_of_nil rfl (by rw [hAdvance]; rfl))
    (Nat.le_refl _)
  have hSpan : (Cursor.ofSource text).span.merge (Cursor.ofSource text).advance.previous = t.span := by
    rw [Cursor.span, show (Cursor.ofSource text).rest = [t] from hStream, hAdvance, Span.merge_self]
  show Except.map Prod.fst (Parser.operation _ 0 (Cursor.ofSource text)) = _
  rw [hRun, Cursor.previous_minted, hSpan, hAdvance]
  rfl

/-! ## Between double quotes -/

/-- The character with the number of a byte. -/
def Literal.byteChar (b : UInt8) : Char := Char.ofNat b.toNat

/-- The text that has a character for each byte of a text. -/
def Literal.bytewise (s : String) : String :=
  String.ofList (s.toByteArray.data.toList.map byteChar)

namespace Literal

theorem bytes_eq_flatMap (s : String) :
    s.toByteArray.data.toList = s.toList.flatMap String.utf8EncodeChar := by
  rw [← String.utf8Encode_toList, List.utf8Encode, data_toByteArray]

theorem quote_eq (s : String) : quote s =
    String.ofList ('\x22' :: (s.toByteArray.data.toList.flatMap quoteByte ++ ['\x22'])) := by
  rw [bytes_eq_flatMap, flatMap_assoc]
  rfl

theorem toNat_byteChar (b : UInt8) : (byteChar b).toNat = b.toNat := by
  have hb := b.toNat_lt
  have hValid : b.toNat.isValidChar := .inl (by omega)
  rw [byteChar, Char.ofNat, dif_pos hValid]
  rfl

/-- The decimal digits of an escape. -/
def digit (d : Nat) : Char := Char.ofNat ('0'.toNat + d)

theorem isDigit_digit {d : Nat} (h : d < 10) : (digit d).isDigit = true := by
  revert d
  decide

theorem toNat_digit {d : Nat} (h : d < 10) : (digit d).toNat - '0'.toNat = d := by
  revert d
  decide

variable {c : Char}

/-- An escape that starts with a digit takes up to three of them. -/
theorem escape?_of_isDigit (hc : c.isDigit = true) (rest : List Char) :
    Escape.escape? (c :: rest) =
      let digits := c :: (rest.take 2).takeWhile Char.isDigit
      if Text.decimalNumber digits > 255 then none
      else (Escape.scalar? (Text.decimalNumber digits)).map fun d =>
        ([d], rest.drop (digits.length - 1)) := by
  unfold Escape.escape?
  split
  next h => cases h
  next h =>
    cases h
    exact absurd hc (by decide)
  next h =>
    cases h
    exact absurd hc (by decide)
  next h =>
    cases h
    exact absurd hc (by decide)
  next h =>
    cases h
    exact absurd hc (by decide)
  next h =>
    cases h
    rw [if_pos hc]

theorem escape?_threeDigits (b : UInt8) (rest : List Char) :
    Escape.escape? (threeDigits b.toNat ++ rest) = some ([byteChar b], rest) := by
  have hb := b.toNat_lt
  have h₁ : b.toNat / 100 < 10 := by omega
  have h₂ : b.toNat / 10 % 10 < 10 := by omega
  have h₃ : b.toNat % 10 < 10 := by omega
  have hNumber : Text.decimalNumber
      [digit (b.toNat / 100), digit (b.toNat / 10 % 10), digit (b.toNat % 10)] = b.toNat := by
    simp only [Text.decimalNumber, foldl_cons, foldl_nil, toNat_digit h₁, toNat_digit h₂,
      toNat_digit h₃]
    omega
  have hScalar : Escape.scalar? b.toNat = some (byteChar b) := if_pos (.inl (by omega))
  show Escape.escape? (digit (b.toNat / 100) ::
    (digit (b.toNat / 10 % 10) :: digit (b.toNat % 10) :: rest)) = _
  rw [escape?_of_isDigit (isDigit_digit h₁)]
  simp only [take_succ_cons, take_zero, takeWhile_cons, takeWhile_nil,
    isDigit_digit h₂, isDigit_digit h₃, if_true, hNumber, hScalar, Option.map_some]
  rw [if_neg (by omega)]
  rfl

theorem byteChar_of_toNat {b : UInt8} (h : b.toNat = c.toNat) : byteChar b = c := by
  rw [byteChar, h, Char.ofNat_toNat]

theorem byteChar_ne {b : UInt8} (h : b.toNat ≠ c.toNat) : byteChar b ≠ c := by
  rintro rfl
  exact h (toNat_byteChar b).symm

/-- A byte is written as an escape that stands for its character, or as that character. -/
theorem quoteByte_cases (b : UInt8) :
    (∃ d ds, quoteByte b = '\\' :: d :: ds ∧ (∀ d' ∈ ds, d'.isDigit = true) ∧
      ∀ rest, Escape.escape? (d :: (ds ++ rest)) = some ([byteChar b], rest)) ∨
    (quoteByte b = [byteChar b] ∧ byteChar b ≠ '\x22' ∧ byteChar b ≠ '\\' ∧ byteChar b ≠ '\n') := by
  unfold quoteByte
  simp only
  split_ifs with hQuote hSlash hBreak hReturn hTab hPrintable
  · refine .inl ⟨'\x22', [], rfl, by simp, fun rest => ?_⟩
    rw [byteChar_of_toNat (c := '\x22') hQuote]
    rfl
  · refine .inl ⟨'\\', [], rfl, by simp, fun rest => ?_⟩
    rw [byteChar_of_toNat (c := '\\') hSlash]
    rfl
  · refine .inl ⟨'n', [], rfl, by simp, fun rest => ?_⟩
    rw [byteChar_of_toNat (c := '\n') hBreak]
    rfl
  · refine .inl ⟨'r', [], rfl, by simp, fun rest => ?_⟩
    rw [byteChar_of_toNat (c := '\r') hReturn]
    rfl
  · refine .inl ⟨'t', [], rfl, by simp, fun rest => ?_⟩
    rw [byteChar_of_toNat (c := '\t') hTab]
    rfl
  · exact .inr ⟨rfl, byteChar_ne hQuote, byteChar_ne hSlash, byteChar_ne hBreak⟩
  · have hb := b.toNat_lt
    refine .inl ⟨_, _, rfl, ?_, escape?_threeDigits b⟩
    simp only [map_cons, map_nil, mem_cons, not_mem_nil, or_false]
    rintro d (rfl | rfl)
    · exact isDigit_digit (by omega)
    · exact isDigit_digit (by omega)

theorem mem_quotedUnit_of_isDigit {d : Char} (h : d.isDigit = true) :
    [d] ∈ quotedUnit '\x22' := by
  refine mem_quotedUnit.mpr (.inl ⟨d, ?_, ?_, ?_, rfl⟩) <;> rintro rfl <;> exact absurd h (by decide)

theorem digits_append_mem_star {ds w : List Char} (hDigits : ∀ d ∈ ds, d.isDigit = true)
    (hw : w ∈ (quotedUnit '\x22')∗) : ds ++ w ∈ (quotedUnit '\x22')∗ := by
  induction ds with
  | nil => exact hw
  | cons d ds ih =>
    exact append_mem_star (v := [d]) (mem_quotedUnit_of_isDigit (hDigits d (by simp)))
      (ih fun d' hd' => hDigits d' (by simp [hd']))

/-- Written bytes neither close the string they stand in nor break it off. -/
theorem flatMap_quoteByte_mem_star (bytes : List UInt8) :
    bytes.flatMap quoteByte ∈ (quotedUnit '\x22')∗ := by
  induction bytes with
  | nil => exact Language.nil_mem_kstar _
  | cons b bytes ih =>
    rw [flatMap_cons]
    rcases quoteByte_cases b with ⟨d, ds, hByte, hDigits, -⟩ | ⟨hByte, hQuote, hSlash, hBreak⟩
    · rw [hByte]
      exact append_mem_star (v := ['\\', d]) (mem_quotedUnit.mpr (.inr ⟨d, rfl⟩))
        (digits_append_mem_star hDigits ih)
    · rw [hByte]
      exact append_mem_star (mem_quotedUnit.mpr (.inl ⟨_, hQuote, hSlash, hBreak, rfl⟩)) ih

/-- Written bytes are decoded to their characters. -/
theorem decodeFrom_flatMap_quoteByte (bytes : List UInt8) (limit : Nat)
    (hLimit : (bytes.flatMap quoteByte).length ≤ limit) :
    Escape.decodeFrom limit (bytes.flatMap quoteByte) = some (bytes.map byteChar) := by
  induction bytes generalizing limit with
  | nil => cases limit <;> rfl
  | cons b bytes ih =>
    rw [flatMap_cons] at hLimit ⊢
    rcases quoteByte_cases b with ⟨d, ds, hByte, -, hEscape⟩ | ⟨hByte, -, hSlash, -⟩
    · rw [hByte] at hLimit ⊢
      simp only [cons_append, length_cons, length_append] at hLimit ⊢
      obtain ⟨limit, rfl⟩ : ∃ l, limit = l + 1 := ⟨limit - 1, by omega⟩
      simp [Escape.decodeFrom, hEscape, ih limit (by omega)]
    · rw [hByte] at hLimit ⊢
      simp only [singleton_append, length_cons] at hLimit ⊢
      obtain ⟨limit, rfl⟩ : ∃ l, limit = l + 1 := ⟨limit - 1, by omega⟩
      simp [Escape.decodeFrom, hSlash, ih limit (by omega)]

theorem shortValue?_quote (s : String) : Escape.shortValue? (quote s) = some (bytewise s) := by
  rw [quote_eq, Escape.shortValue?, Escape.decode?]
  simp only [String.toList_ofList, drop_one, tail_cons, dropLast_concat]
  rw [decodeFrom_flatMap_quoteByte _ _ (Nat.le_refl _), Option.map_some, bytewise]

theorem scan_quote_text (s : String) :
    scan (quote s).toList = (some .string, (quote s).toList.length) := by
  have hUnits := flatMap_quoteByte_mem_star s.toByteArray.data.toList
  have hLength := quotedLength_units_append hUnits ['\x22']
  rw [quotedLength_closed (by decide)] at hLength
  rw [quote_eq, String.toList_ofList, scan_quote (by decide), hLength]
  simp only [if_true, length_cons, length_append, length_nil]
  refine Prod.ext rfl ?_
  show 1 + _ + 1 = _ + 1 + 1
  omega

/-! ### Texts that come back as they were -/

theorem utf8Size_eq_one_iff_toNat : c.utf8Size = 1 ↔ c.toNat < 128 := by
  rw [Char.utf8Size_eq_one_iff, UInt32.le_iff_toNat_le]
  exact Nat.lt_succ_iff.symm

theorem map_byteChar_utf8EncodeChar (h : c.toNat < 128) :
    (String.utf8EncodeChar c).map byteChar = [c] := by
  rw [String.utf8EncodeChar_eq_singleton (utf8Size_eq_one_iff_toNat.mpr h), map_singleton,
    byteChar_of_toNat]
  rw [UInt32.toNat_toUInt8]
  exact Nat.mod_eq_of_lt (Nat.lt_trans h (by decide))

theorem length_le_flatMap_utf8EncodeChar (cs : List Char) :
    cs.length ≤ (cs.flatMap String.utf8EncodeChar).length := by
  induction cs with
  | nil => exact Nat.le_refl _
  | cons c cs ih =>
    have hPos := c.utf8Size_pos
    rw [flatMap_cons, length_append, String.length_utf8EncodeChar, length_cons]
    omega

theorem ascii_of_length_flatMap {cs : List Char}
    (h : (cs.flatMap String.utf8EncodeChar).length = cs.length) : ∀ c ∈ cs, c.toNat < 128 := by
  induction cs with
  | nil => simp
  | cons c cs ih =>
    have hPos := c.utf8Size_pos
    have hLe := length_le_flatMap_utf8EncodeChar cs
    rw [flatMap_cons, length_append, String.length_utf8EncodeChar,
      length_cons] at h
    have hc : c.toNat < 128 := utf8Size_eq_one_iff_toNat.mp (by omega)
    simpa [hc] using ih (by omega)

theorem bytewise_eq_self_iff (s : String) : bytewise s = s ↔ ∀ c ∈ s.toList, c.toNat < 128 := by
  have hList : bytewise s = s ↔ (s.toList.flatMap String.utf8EncodeChar).map byteChar = s.toList := by
    rw [bytewise, bytes_eq_flatMap, ← String.toList_inj, String.toList_ofList]
  rw [hList]
  constructor
  · intro h
    refine ascii_of_length_flatMap ?_
    rw [← length_map byteChar, h]
  · intro h
    rw [map_flatMap]
    calc s.toList.flatMap (fun c => (String.utf8EncodeChar c).map byteChar)
        = s.toList.flatMap (fun c => [c]) :=
          flatMap_congr fun c hc => map_byteChar_utf8EncodeChar (h c hc)
      _ = s.toList := flatMap_singleton' _

/-- The source text of a string is one string token from end to end, and as an expression it is
the string with a character for each byte: the string itself exactly if it is ASCII. -/
theorem string_read_back (s : String) : ∃ text, (Literal.string s).sourceText? = some text ∧
    pieces text = [⟨some .string, 0, text⟩] ∧
    stream text = [⟨.string, 0, text⟩] ∧
    Expr.parse text = .ok (.string ⟨0, ⟨0, text.utf8ByteSize⟩⟩ (bytewise s)) ∧
    (bytewise s = s ↔ ∀ c ∈ s.toList, c.toNat < 128) := by
  have hText : quote s ≠ "" := by
    rw [quote_eq]
    intro h
    have hList := congrArg String.toList h
    simp at hList
  have hPieces := pieces_of_scan_all hText (scan_quote_text s)
  have hStream : stream (quote s) = [⟨.string, 0, quote s⟩] := by
    rw [stream, hPieces]
    rfl
  refine ⟨quote s, rfl, hPieces, hStream, ?_, bytewise_eq_self_iff s⟩
  rw [Expr.parse_of_stream hStream (shortValue?_quote s), Token.span, Nat.zero_add]

end Literal

/-! ## Between long brackets -/

/-- A text between the long brackets of a level. -/
def Literal.longText (level : Nat) (content : String) : String :=
  String.ofList (openingBracket level ++ (content.toList ++ closingBracket level))

/-- A text without one line break at its start. -/
def Literal.withoutLineBreak (content : String) : String :=
  if ['\r', '\n'] <+: content.toList then String.ofList (content.toList.drop 2)
  else if ['\n'] <+: content.toList then String.ofList (content.toList.drop 1)
  else content

namespace Literal

variable {level : Nat} {content : String}

theorem toList_longText (level : Nat) (content : String) :
    (longText level content).toList =
      openingBracket level ++ (content.toList ++ closingBracket level) :=
  String.toList_ofList

theorem longText_ne_empty (level : Nat) (content : String) : longText level content ≠ "" := by
  intro h
  have hList := congrArg String.toList h
  simp [toList_longText, openingBracket] at hList

theorem length_closingBracket (level : Nat) : (closingBracket level).length = level + 2 := by
  simp [closingBracket]

/-- A closing bracket longer than the text before it is not found early: its last character
would fall on one of the `=` of the bracket at the end. -/
theorem endsFirst_closingBracket_length (cs : List Char) :
    EndsFirst (closingBracket cs.length) (cs ++ closingBracket cs.length) := by
  refine ⟨suffix_append _ _, fun v hv hClosed => hv.eq_of_length ?_⟩
  by_contra hShort
  have hLength := hv.length_le
  obtain ⟨front, rfl⟩ := hClosed
  obtain ⟨tail, hTail⟩ := hv
  simp only [length_append, length_closingBracket] at hLength hShort
  have hLast : (cs ++ closingBracket cs.length)[front.length + (cs.length + 1)]? = some ']' := by
    rw [← hTail, append_assoc, getElem?_append_right (by omega), Nat.add_sub_cancel_left,
      getElem?_append_left (by rw [length_closingBracket]; omega)]
    simp [closingBracket]
  have hEqual : (cs ++ closingBracket cs.length)[front.length + (cs.length + 1)]? = some '=' := by
    have hIndex : front.length + (cs.length + 1) - cs.length = front.length + 1 := by omega
    have hInside : front.length < cs.length := by omega
    rw [getElem?_append_right (by omega), hIndex, closingBracket, getElem?_cons_succ,
      getElem?_append_left (by rwa [length_replicate]), getElem?_replicate,
      if_pos hInside]
  rw [hLast] at hEqual
  exact absurd hEqual (by decide)

section Closed

variable (hEnds : EndsFirst (closingBracket level) (content.toList ++ closingBracket level))
include hEnds

/-- The brackets of a text are found whatever follows them. -/
theorem exists_of_longText (rest : List Char) :
    ∃ l n, openingLevel? ((longText level content).toList ++ rest) = some l ∧
      lengthThrough (closingBracket l)
        (((longText level content).toList ++ rest).drop (l + 2)) = some n ∧
      (longText level content).toList.length = l + 2 + n :=
  exists_of_longBracket ⟨level, _, toList_longText level content, hEnds⟩ (prefix_append _ rest)

theorem scan_longText (rest : List Char) :
    scan ((longText level content).toList ++ rest) =
      (some .longString, (longText level content).toList.length) := by
  obtain ⟨l, n, hLevel, hThrough, hLength⟩ := exists_of_longText hEnds rest
  have hBracket : scanBracket ((longText level content).toList ++ rest) =
      (.longString, (longText level content).toList.length) := by
    simp only [scanBracket, hLevel, hThrough, hLength]
  rw [toList_longText, openingBracket, cons_append, cons_append] at hBracket ⊢
  rw [scan_bracket, hBracket]

theorem scan_comment_longText (rest : List Char) :
    scan (("--" ++ longText level content).toList ++ rest) =
      (none, ("--" ++ longText level content).toList.length) := by
  obtain ⟨l, n, hLevel, hThrough, hLength⟩ := exists_of_longText hEnds rest
  have hComment : commentLength ((longText level content).toList ++ rest) =
      (longText level content).toList.length := by
    simp only [commentLength, hLevel, hThrough, hLength]
  have hSkip : skipLength (("--" ++ longText level content).toList ++ rest) =
      1 + (longText level content).toList.length + 1 := by
    rw [← hComment, String.toList_append, append_assoc]
    show 2 + commentLength ((longText level content).toList ++ rest) = _
    omega
  rw [scan_of_skip hSkip, String.toList_append, length_append]
  refine Prod.ext rfl ?_
  show _ = 2 + _
  omega

end Closed

theorem longValue_longText (level : Nat) (content : String) :
    Escape.longValue (longText level content) = withoutLineBreak content := by
  have hRun : runLength (· = '=') ((longText level content).toList.drop 1) = level := by
    rw [toList_longText, openingBracket, cons_append, drop_one, tail_cons,
      append_assoc, runLength_append_of_all (by simp), length_replicate]
    rfl
  have hDrop : (longText level content).toList.drop (level + 2) =
      content.toList ++ closingBracket level := by
    rw [toList_longText, ← length_openingBracket, drop_left]
  have hCount : (longText level content).toList.length - (level + 2) - (level + 2) =
      content.toList.length := by
    rw [toList_longText]
    simp only [length_append, length_openingBracket, length_closingBracket]
    omega
  unfold Escape.longValue
  simp only [hRun, hDrop, hCount, take_left]
  unfold withoutLineBreak
  split
  next rest h => simp [h]
  next rest h => simp [h]
  next hReturn hBreak =>
    rw [if_neg, if_neg, String.ofList_toList]
    · rintro ⟨rest, h⟩
      exact hBreak rest h.symm
    · rintro ⟨rest, h⟩
      exact hReturn rest h.symm

theorem stringValue?_longText (offset : Nat) :
    (Token.mk .longString offset (longText level content)).stringValue? =
      some (withoutLineBreak content) := by
  rw [← longValue_longText level content]
  rfl

/-- Every text can be written between the long brackets of some level.  Where the first closing
bracket is the one at the end, the text between the brackets is one long string token whatever
follows, its value is the text without one line break at its start, and behind `--` it is one
comment. -/
theorem long_text_read_back (content : String) :
    (∃ level, EndsFirst (closingBracket level) (content.toList ++ closingBracket level)) ∧
    ∀ level, EndsFirst (closingBracket level) (content.toList ++ closingBracket level) →
      Expr.parse (longText level content) = .ok (.string
        ⟨0, ⟨0, (longText level content).utf8ByteSize⟩⟩ (withoutLineBreak content)) ∧
      ∀ rest,
        pieces (longText level content ++ rest) =
          ⟨some .longString, 0, longText level content⟩ ::
            (pieces rest).map (Piece.shift (longText level content).utf8ByteSize) ∧
        Parser.stringValue (Cursor.ofSource (longText level content ++ rest)) = .ok
          (withoutLineBreak content, (Cursor.ofSource (longText level content ++ rest)).advance) ∧
        pieces ("--" ++ longText level content ++ rest) =
          ⟨none, 0, "--" ++ longText level content⟩ ::
            (pieces rest).map (Piece.shift ("--" ++ longText level content).utf8ByteSize) := by
  refine ⟨⟨_, endsFirst_closingBracket_length content.toList⟩, fun level hEnds => ?_⟩
  have hText := longText_ne_empty level content
  refine ⟨?_, fun rest => ?_⟩
  · have hPieces := pieces_of_scan_all hText (by simpa using scan_longText hEnds [])
    have hStream : stream (longText level content) = [⟨.longString, 0, longText level content⟩] := by
      rw [stream, hPieces]
      rfl
    rw [Expr.parse_of_stream hStream (stringValue?_longText 0), Token.span, Nat.zero_add]
  · have hPieces := pieces_of_scan hText (scan_longText hEnds rest.toList)
    have hStream : (Cursor.ofSource (longText level content ++ rest)).rest =
        ⟨.longString, 0, longText level content⟩ :: (stream (longText level content ++ rest)).tail := by
      show stream _ = _
      rw [stream, hPieces]
      rfl
    refine ⟨hPieces, (Parser.stringValue_run ⟨_, _, hStream, .string (stringValue?_longText 0)⟩).2,
      pieces_of_scan (fun h => ?_) (scan_comment_longText hEnds rest.toList)⟩
    have hList := congrArg String.toList h
    simp at hList

/-- Two brackets behind a line break close no bracket of the first level. -/
theorem long_text_read_back_brackets :
    EndsFirst (closingBracket 1) ("\n]]".toList ++ closingBracket 1) ∧
      Expr.parse (longText 1 "\n]]") = .ok (.string ⟨0, ⟨0, 9⟩⟩ "]]") := by
  have hThrough : lengthThrough (closingBracket 1) ("\n]]".toList ++ closingBracket 1) = some 6 := by
    decide
  have hEnds := (endsFirst_of_lengthThrough (closingBracket_ne_nil 1) hThrough).2
  have hParse := ((long_text_read_back "\n]]").2 1 hEnds).1
  exact ⟨hEnds, hParse⟩

end Literal

end LuaShape
