import LuaShape.Proofs.Token.Rescan
import Mathlib.Computability.Language
import Mathlib.Data.List.TakeWhile

/-!
# Patterns of tokens

`pattern` says what the texts of a kind of token look like, and what is skipped between
tokens: classes of characters, put together by sum, product and star of languages.  Nothing
here knows how a text is scanned.  A long bracket is described together with what it
encloses, up to the first closing bracket of its level.

The length functions of the scanner are then compared with the patterns, here those of names,
blanks and numbers: what a length function takes is described (`take_numberLength_mem`), and
it takes at least as much as any text at the front that is described
(`length_le_numberLength`).
-/

namespace LuaShape.Token

open List

open LuaShape.Text
open scoped Computability

/-! ## Building blocks -/

namespace Pattern

/-- One character of a class. -/
def one (p : Char → Prop) : Language Char := {w | ∃ c, p c ∧ w = [c]}

/-- One character between two others, ends included. -/
def range (lo hi : Char) : Language Char := one fun c => lo ≤ c ∧ c ≤ hi

/-- One of some characters. -/
def oneOf (cs : List Char) : Language Char := one (· ∈ cs)

/-- One character other than some. -/
def noneOf (cs : List Char) : Language Char := one (· ∉ cs)

/-- A fixed text. -/
def exactly (s : String) : Language Char := {s.toList}

/-- What a pattern describes, or nothing. -/
def optional (l : Language Char) : Language Char := l + 1

/-! ## Names, numbers and blanks -/

/-- Letters and the underscore. -/
def letter : Language Char := range 'A' 'Z' + range 'a' 'z' + exactly "_"

/-- Decimal digits. -/
def digit : Language Char := range '0' '9'

/-- Hexadecimal digits. -/
def hexDigit : Language Char := range '0' '9' + range 'a' 'f' + range 'A' 'F'

/-- Names, keywords included. -/
def name : Language Char := letter * (letter + digit)∗

/-- An exponent behind one of some marks. -/
def exponent (marks : List Char) : Language Char :=
  oneOf marks * optional (oneOf ['+', '-']) * (digit * digit∗)

/-- What may follow the whole part of a number. -/
def behindWhole (digit : Language Char) (marks : List Char) : Language Char :=
  optional (exactly "." * digit∗) * optional (exponent marks)

/-- Numbers: decimal ones, those that start with a point, and hexadecimal ones. -/
def number : Language Char :=
  digit * digit∗ * behindWhole digit ['e', 'E'] +
  exactly "." * (digit * digit∗) * optional (exponent ['e', 'E']) +
  exactly "0" * oneOf ['x', 'X'] * hexDigit∗ * behindWhole hexDigit ['p', 'P']

/-- Blanks between tokens. -/
def blanks : Language Char :=
  oneOf [' ', '\t', '\r', '\n', '\x0c', '\x0b'] * (oneOf [' ', '\t', '\r', '\n', '\x0c', '\x0b'])∗

/-! ## Strings and comments -/

/-- What stands for one character inside a short string: a character that neither ends the
string nor breaks it off, or a backslash with any character behind it. -/
def quotedUnit (quote : Char) : Language Char :=
  noneOf [quote, '\\', '\n'] + exactly "\\" * one fun _ => True

/-- A short string between two quotes. -/
def quoted (quote : Char) : Language Char :=
  oneOf [quote] * (quotedUnit quote)∗ * oneOf [quote]

/-- The opening bracket of a level. -/
def openingBracket (level : Nat) : List Char := '[' :: (List.replicate level '=' ++ ['['])

/-- A text ends with `close` and has no shorter part at its front that does. -/
structure EndsFirst (close w : List Char) : Prop where
  ends : close <:+ w
  first : ∀ v, v <+: w → close <:+ v → v = w

/-- A long bracket through the first closing bracket of its level. -/
def longBracket : Language Char :=
  {w | ∃ level body, w = openingBracket level ++ body ∧ EndsFirst (closingBracket level) body}

/-- A long bracket whose closing bracket is missing. -/
def openLongBracket : Language Char :=
  {w | ∃ level body, w = openingBracket level ++ body ∧ ¬ closingBracket level <:+: body}

/-- The rest of a line that does not start with a long bracket. -/
def restOfLine : Language Char := {w | '\n' ∉ w ∧ ∀ level, ¬ openingBracket level <+: w}

/-- Comments: a long bracket, closed or not, or the rest of a line. -/
def comment : Language Char := exactly "--" * (longBracket + openLongBracket + restOfLine)

/-- A `#!` line. -/
def hashLine : Language Char := exactly "#!" * (noneOf ['\n'])∗

end Pattern

open Pattern in
/-- The texts of a kind of token; without a kind, what is skipped between tokens.  No text is
of kind `error`, and keywords and symbols have their one spelling. -/
def pattern : Option Kind → Language Char
  | none => blanks + comment + hashLine
  | some .ident => name
  | some .number => number
  | some .string => quoted '\x22' + quoted '\x27'
  | some .longString => longBracket
  | some kind => {w | kind.spelling? = some (String.ofList w)}

namespace Pattern

/-! ## Membership -/

variable {p q : Char → Prop} {w cs : List Char} {l m : Language Char}

theorem mem_one : w ∈ one p ↔ ∃ c, p c ∧ w = [c] := Iff.rfl

theorem one_add_one : one p + one q = one fun c => p c ∨ q c := by
  ext w
  simp only [Language.mem_add, mem_one, or_and_right, exists_or]

theorem one_congr (h : ∀ c, p c ↔ q c) : one p = one q :=
  congrArg one (funext fun c => propext (h c))

theorem mem_star_one : w ∈ (one p)∗ ↔ ∀ c ∈ w, p c := by
  rw [Language.mem_kstar]
  constructor
  · rintro ⟨words, rfl, hWords⟩ c hc
    obtain ⟨word, hWord, hMem⟩ := mem_flatten.mp hc
    obtain ⟨d, hd, rfl⟩ := hWords word hWord
    rw [mem_singleton.mp hMem]
    exact hd
  · intro h
    refine ⟨w.map fun c => [c], (flatMap_singleton' w).symm, fun word hWord => ?_⟩
    obtain ⟨c, hc, rfl⟩ := mem_map.mp hWord
    exact ⟨c, h c hc, rfl⟩

/-- One or more characters of a class. -/
theorem mem_some : w ∈ one p * (one p)∗ ↔ w ≠ [] ∧ ∀ c ∈ w, p c := by
  rw [Language.mem_mul]
  constructor
  · rintro ⟨_, ⟨c, hc, rfl⟩, v, hv, rfl⟩
    simpa using And.intro hc (mem_star_one.mp hv)
  · rintro ⟨hNonempty, hAll⟩
    obtain ⟨c, v, rfl⟩ := exists_cons_of_ne_nil hNonempty
    simp only [mem_cons, forall_eq_or_imp] at hAll
    exact ⟨[c], ⟨c, hAll.1, rfl⟩, v, mem_star_one.mpr hAll.2, rfl⟩

theorem mem_one_mul : w ∈ one p * l ↔ ∃ c v, p c ∧ v ∈ l ∧ w = c :: v := by
  rw [Language.mem_mul]
  constructor
  · rintro ⟨_, ⟨c, hc, rfl⟩, v, hv, rfl⟩
    exact ⟨c, v, hc, hv, rfl⟩
  · rintro ⟨c, v, hc, hv, rfl⟩
    exact ⟨[c], ⟨c, hc, rfl⟩, v, hv, rfl⟩

theorem mem_exactly {s : String} : w ∈ exactly s ↔ w = s.toList := Iff.rfl

theorem mem_exactly_mul {s : String} : w ∈ exactly s * l ↔ ∃ v ∈ l, w = s.toList ++ v := by
  rw [Language.mem_mul]
  constructor
  · rintro ⟨_, rfl, v, hv, rfl⟩
    exact ⟨v, hv, rfl⟩
  · rintro ⟨v, hv, rfl⟩
    exact ⟨_, rfl, v, hv, rfl⟩

theorem mem_optional : w ∈ optional l ↔ w ∈ l ∨ w = [] := Iff.rfl

/-! ## Classes of the scanner -/

theorem exactly_underscore : exactly "_" = one (· = '_') := by
  ext w
  simp [mem_exactly, mem_one]

theorem digit_eq : digit = one fun c => c.isDigit = true := by
  refine one_congr fun c => ?_
  simp [Char.isDigit, Char.le_def]

/-- What starts a name, as ranges of code points. -/
theorem isNameStart_eq (c : Char) : isNameStart c =
    ((decide (c.val ≥ 'A'.val ∧ c.val ≤ 'Z'.val) ||
      decide (c.val ≥ 'a'.val) && decide (c.val ≤ 'z'.val)) || decide (c = '_')) := rfl

theorem letter_eq : letter = one fun c => isNameStart c = true := by
  rw [letter, range, range, exactly_underscore, one_add_one, one_add_one]
  refine one_congr fun c => ?_
  simp [isNameStart_eq, Char.le_def]

theorem letter_add_digit_eq : letter + digit = one fun c => isNamePart c = true := by
  rw [letter_eq, digit_eq, one_add_one]
  refine one_congr fun c => ?_
  simp only [isNameStart, isNamePart, Char.isAlphanum, Bool.or_eq_true]
  tauto

theorem hexDigit_eq : hexDigit = one fun c => isHexDigit c = true := by
  rw [hexDigit, range, range, range, one_add_one, one_add_one]
  refine one_congr fun c => ?_
  simp [isHexDigit, Char.isDigit, Char.le_def]

theorem blank_eq :
    oneOf [' ', '\t', '\r', '\n', '\x0c', '\x0b'] = one fun c => isAsciiBlank c = true := by
  refine one_congr fun c => ⟨fun h => ?_, fun h => ?_⟩
  · have hAll : ([' ', '\t', '\r', '\n', '\x0c', '\x0b'].all fun c => isAsciiBlank c) = true := by
      decide
    exact all_eq_true.1 hAll c h
  · have hc := mem_of_isAsciiBlank h
    simp only [mem_cons, not_mem_nil, or_false] at hc ⊢
    tauto

end Pattern

/-! ## Runs of characters -/

variable {p : Char → Bool} {w cs : List Char}

theorem runLength_of_all (h : ∀ c ∈ w, p c = true) : runLength p w = w.length := by
  rw [runLength, takeWhile_eq_self_iff.mpr h]

theorem runLength_append_of_all (h : ∀ c ∈ w, p c = true) :
    runLength p (w ++ cs) = w.length + runLength p cs := by
  rw [runLength, takeWhile_append_of_pos h, length_append, runLength]

theorem length_le_runLength (h : ∀ c ∈ w, p c = true) (hFront : w <+: cs) :
    w.length ≤ runLength p cs := by
  obtain ⟨rest, rfl⟩ := hFront
  rw [runLength_append_of_all h]
  exact Nat.le_add_right _ _

theorem take_runLength : cs.take (runLength p cs) = cs.takeWhile p :=
  (prefix_iff_eq_take.mp (List.takeWhile_prefix p)).symm

theorem all_take_runLength : ∀ c ∈ cs.take (runLength p cs), p c = true := by
  intro c hc
  rw [take_runLength] at hc
  exact mem_takeWhile_imp hc

/-! ## Numbers -/

namespace Pattern

theorem mem_exponent {marks : List Char} : w ∈ exponent marks ↔
    ∃ mark sign digits, mark ∈ marks ∧ (sign = [] ∨ sign = ['+'] ∨ sign = ['-']) ∧ digits ≠ [] ∧
      (∀ c ∈ digits, c.isDigit = true) ∧ w = mark :: (sign ++ digits) := by
  rw [exponent, mul_assoc, oneOf, mem_one_mul, digit_eq]
  constructor
  · rintro ⟨mark, _, hMark, hBehind, rfl⟩
    obtain ⟨sign, hSign, digits, hDigits, rfl⟩ := Language.mem_mul.mp hBehind
    obtain ⟨hNonempty, hDigits⟩ := mem_some.mp hDigits
    refine ⟨mark, sign, digits, hMark, ?_, hNonempty, hDigits, rfl⟩
    rcases hSign with ⟨c, hc, rfl⟩ | rfl
    · simpa using hc
    · exact .inl rfl
  · rintro ⟨mark, sign, digits, hMark, hSign, hNonempty, hDigits, rfl⟩
    refine ⟨mark, _, hMark, Language.append_mem_mul ?_ (mem_some.mpr ⟨hNonempty, hDigits⟩), rfl⟩
    rcases hSign with rfl | rfl | rfl
    · exact .inr rfl
    · exact .inl ⟨'+', by simp, rfl⟩
    · exact .inl ⟨'-', by simp, rfl⟩

theorem mem_behindWhole {digit : Char → Prop} {marks : List Char} :
    w ∈ behindWhole (one digit) marks ↔ ∃ fraction last,
      (fraction = [] ∨ ∃ digits, (∀ c ∈ digits, digit c) ∧ fraction = '.' :: digits) ∧
      (last = [] ∨ last ∈ exponent marks) ∧ w = fraction ++ last := by
  rw [behindWhole, Language.mem_mul]
  simp only [mem_optional, mem_exactly_mul, mem_star_one]
  constructor
  · rintro ⟨fraction, hFraction, last, hLast, rfl⟩
    exact ⟨fraction, last, hFraction.symm, hLast.symm, rfl⟩
  · rintro ⟨fraction, last, hFraction, hLast, rfl⟩
    exact ⟨fraction, hFraction.symm, last, hLast.symm, rfl⟩

end Pattern

open Pattern

section Numbers

variable {lower upper : Char}

/-- The length of the sign at the front of a text. -/
def signLength : List Char → Nat
  | c :: _ => if c = '+' || c = '-' then 1 else 0
  | [] => 0

theorem exponentLength_cons (mark : Char) (rest : List Char) :
    exponentLength lower upper (mark :: rest) =
      if mark = lower || mark = upper then
        if runLength Char.isDigit (rest.drop (signLength rest)) = 0 then 0
        else 1 + signLength rest + runLength Char.isDigit (rest.drop (signLength rest))
      else 0 := by
  cases rest <;> rfl

theorem take_signLength : cs.take (signLength cs) = [] ∨ cs.take (signLength cs) = ['+'] ∨
    cs.take (signLength cs) = ['-'] := by
  cases cs with
  | nil => exact .inl rfl
  | cons c rest =>
    simp only [signLength]
    split
    next h => simpa using h
    next => exact .inl rfl

theorem take_exponentLength_mem :
    cs.take (exponentLength lower upper cs) ∈ optional (exponent [lower, upper]) := by
  cases cs with
  | nil => exact .inr rfl
  | cons mark rest =>
    rw [exponentLength_cons]
    split
    next hMark =>
      split
      next => exact .inr rfl
      next hDigits =>
        refine .inl (mem_exponent.mpr ⟨mark, rest.take (signLength rest), (rest.drop
          (signLength rest)).take (runLength Char.isDigit (rest.drop (signLength rest))),
          by simpa using hMark, take_signLength, ?_, all_take_runLength, ?_⟩)
        · intro hNil
          rw [take_runLength] at hNil
          exact hDigits (by rw [runLength, hNil]; rfl)
        · rw [Nat.add_assoc, Nat.add_comm 1, take_succ_cons, take_add]
    next => exact .inr rfl

theorem length_le_exponentLength (hw : w ∈ exponent [lower, upper]) (hFront : w <+: cs) :
    w.length ≤ exponentLength lower upper cs := by
  obtain ⟨rest, rfl⟩ := hFront
  obtain ⟨mark, sign, digits, hMark, hSign, hNonempty, hDigits, rfl⟩ := mem_exponent.mp hw
  have hRun : digits.length ≤ runLength Char.isDigit (digits ++ rest) :=
    length_le_runLength hDigits (prefix_append _ _)
  have hPositive : 0 < digits.length := length_pos_iff.mpr hNonempty
  have hLength : signLength (sign ++ (digits ++ rest)) = sign.length := by
    rcases hSign with rfl | rfl | rfl
    · obtain ⟨d, ds, rfl⟩ := exists_cons_of_ne_nil hNonempty
      have hd : d.isDigit = true := hDigits d (by simp)
      have hNot : ¬ (d = '+' || d = '-') = true := by
        simp only [Bool.or_eq_true, decide_eq_true_eq]
        rintro (rfl | rfl) <;> cases hd
      simp only [nil_append, cons_append, signLength, if_neg hNot, length_nil]
    · rfl
    · rfl
  have hMark : (mark = lower || mark = upper) = true := by simpa using hMark
  rw [cons_append, append_assoc, exponentLength_cons, if_pos hMark, hLength,
    drop_left, if_neg (by omega)]
  simp only [length_cons, length_append]
  omega

section Numeral

variable {digit : Char → Bool}

theorem take_fractionLength : cs.take (fractionLength digit cs) = [] ∨
    ∃ digits, (∀ c ∈ digits, digit c = true) ∧
      cs.take (fractionLength digit cs) = '.' :: digits := by
  unfold fractionLength
  split
  next rest =>
    exact .inr ⟨rest.take (runLength digit rest), all_take_runLength, by
      rw [Nat.add_comm, take_succ_cons]⟩
  next => exact .inl rfl

/-- What a numeral takes behind its whole part. -/
theorem take_behindWhole_mem :
    cs.take (fractionLength digit cs +
        exponentLength lower upper (cs.drop (fractionLength digit cs))) ∈
      behindWhole (one fun c => digit c = true) [lower, upper] := by
  rw [take_add, mem_behindWhole]
  exact ⟨_, _, take_fractionLength, take_exponentLength_mem.symm, rfl⟩

theorem take_numeralLength : cs.take (numeralLength digit lower upper cs) =
    cs.take (runLength digit cs) ++ (cs.drop (runLength digit cs)).take
      (fractionLength digit (cs.drop (runLength digit cs)) +
        exponentLength lower upper ((cs.drop (runLength digit cs)).drop
          (fractionLength digit (cs.drop (runLength digit cs))))) := by
  simp only [numeralLength, drop_drop]
  rw [Nat.add_assoc, take_add]

variable (hPoint : digit '.' = false) (hLower : digit lower = false)
  (hUpper : digit upper = false) (hMarks : lower ≠ '.' ∧ upper ≠ '.')
include hPoint hLower hUpper hMarks

omit hPoint in
/-- An exponent starts with a mark, which is neither a digit nor a point. -/
theorem exists_mark_of_exponent (hw : w ∈ exponent [lower, upper]) :
    ∃ mark v, w = mark :: v ∧ digit mark = false ∧ mark ≠ '.' := by
  obtain ⟨mark, sign, digits, hMem, -, -, -, rfl⟩ := mem_exponent.mp hw
  refine ⟨mark, _, rfl, ?_⟩
  simp only [mem_cons, not_mem_nil, or_false] at hMem
  rcases hMem with rfl | rfl
  · exact ⟨hLower, hMarks.1⟩
  · exact ⟨hUpper, hMarks.2⟩

theorem head_of_behindWhole (hw : w ∈ behindWhole (one fun c => digit c = true) [lower, upper])
    (hNonempty : w ≠ []) : ∃ c v, w = c :: v ∧ digit c = false := by
  obtain ⟨fraction, last, hFraction, hLast, rfl⟩ := mem_behindWhole.mp hw
  rcases hFraction with rfl | ⟨digits, -, rfl⟩
  · rcases hLast with rfl | hLast
    · exact absurd rfl hNonempty
    · obtain ⟨mark, v, rfl, hMark, -⟩ := exists_mark_of_exponent hLower hUpper hMarks hLast
      exact ⟨mark, v, rfl, hMark⟩
  · exact ⟨'.', _, rfl, hPoint⟩

omit hPoint in
theorem length_le_behindWhole (hw : w ∈ behindWhole (one fun c => digit c = true) [lower, upper])
    (hFront : w <+: cs) :
    w.length ≤ fractionLength digit cs +
      exponentLength lower upper (cs.drop (fractionLength digit cs)) := by
  obtain ⟨rest, rfl⟩ := hFront
  obtain ⟨fraction, last, hFraction, hLast, rfl⟩ := mem_behindWhole.mp hw
  rcases hFraction with rfl | ⟨digits, hDigits, rfl⟩
  · rcases hLast with rfl | hLast
    · exact Nat.zero_le _
    · have hExponent := length_le_exponentLength hLast (prefix_append last rest)
      obtain ⟨mark, v, rfl, -, hNotPoint⟩ := exists_mark_of_exponent hLower hUpper hMarks hLast
      have hNone : fractionLength digit (mark :: (v ++ rest)) = 0 := by
        simp [fractionLength, hNotPoint]
      rw [nil_append, cons_append, hNone, drop_zero, Nat.zero_add]
      exact hExponent
  · simp only [cons_append, fractionLength, append_assoc]
    rcases hLast with rfl | hLast
    · have hRun := length_le_runLength hDigits (prefix_append digits rest)
      simp only [nil_append, append_nil, length_cons]
      omega
    · have hExponent := length_le_exponentLength hLast (prefix_append last rest)
      obtain ⟨mark, v, rfl, hMark, -⟩ := exists_mark_of_exponent hLower hUpper hMarks hLast
      -- the digits end where the exponent starts
      rw [cons_append, runLength_append_stop hMark, runLength_of_all hDigits, Nat.add_comm 1,
        drop_succ_cons, drop_left]
      simp only [length_cons, length_append, cons_append] at hExponent ⊢
      omega

/-- A numeral takes all of a whole part with what is behind it. -/
theorem length_le_numeralLength {whole behind : List Char} (hWhole : ∀ c ∈ whole, digit c = true)
    (hBehind : behind ∈ behindWhole (one fun c => digit c = true) [lower, upper])
    (hFront : whole ++ behind <+: cs) :
    (whole ++ behind).length ≤ numeralLength digit lower upper cs := by
  obtain ⟨rest, rfl⟩ := hFront
  rw [append_assoc, length_append]
  by_cases hNonempty : behind = []
  · have hRun := length_le_runLength hWhole (prefix_append whole (behind ++ rest))
    simp only [numeralLength, hNonempty, length_nil] at hRun ⊢
    omega
  · obtain ⟨c, v, rfl, hc⟩ := head_of_behindWhole hPoint hLower hUpper hMarks hBehind hNonempty
    have hLe := length_le_behindWhole hLower hUpper hMarks hBehind
      (prefix_append (c :: v) rest)
    simp only [numeralLength, cons_append] at hLe ⊢
    rw [runLength_append_stop hc, runLength_of_all hWhole, ← drop_drop, drop_left]
    omega

end Numeral

/-! ### Decimal and hexadecimal numbers -/

theorem isDigit_of_startsNumber {c : Char} {rest : List Char}
    (h : startsNumber (c :: rest) = true) :
    c.isDigit = true ∨ c = '.' ∧ ∃ d tail, rest = d :: tail ∧ d.isDigit = true := by
  simp only [startsNumber, Bool.or_eq_true, Bool.and_eq_true, decide_eq_true_eq] at h
  rcases h with h | ⟨rfl, h⟩
  · exact .inl h
  · cases rest with
    | nil => cases h
    | cons d tail => exact .inr ⟨rfl, d, tail, rfl, h⟩

/-- A decimal numeral takes a number where one starts. -/
theorem take_decimal_mem (h : startsNumber cs = true) :
    cs.take (numeralLength Char.isDigit 'e' 'E' cs) ∈ number := by
  obtain ⟨c, rest, rfl⟩ : ∃ c rest, cs = c :: rest := by
    cases cs with
    | nil => cases h
    | cons c rest => exact ⟨c, rest, rfl⟩
  rw [take_numeralLength, number, digit_eq]
  rcases isDigit_of_startsNumber h with hDigit | ⟨rfl, d, tail, rfl, hDigit⟩
  · refine .inl (.inl (Language.append_mem_mul (mem_some.mpr ⟨?_, all_take_runLength⟩)
      take_behindWhole_mem))
    simp [runLength, hDigit]
  · refine .inl (.inr ?_)
    have hRun : runLength Char.isDigit ('.' :: d :: tail) = 0 := rfl
    rw [hRun, take_zero, drop_zero, nil_append, take_add]
    refine Language.append_mem_mul (mem_exactly_mul.mpr ⟨(d :: tail).take
      (runLength Char.isDigit (d :: tail)), mem_some.mpr ⟨?_, all_take_runLength⟩, ?_⟩)
      take_exponentLength_mem
    · simp [runLength, hDigit]
    · rw [fractionLength, Nat.add_comm, take_succ_cons]
      rfl

/-- A number that starts with `0` and a mark of hexadecimal numbers. -/
theorem numberLength_hex {x : Char} (hx : (x = 'x' || x = 'X') = true) (rest : List Char) :
    numberLength ('0' :: x :: rest) = 2 + numeralLength isHexDigit 'p' 'P' rest := by
  simp only [numberLength, if_pos hx]

theorem numberLength_decimal (h : ∀ x rest, cs = '0' :: x :: rest → (x = 'x' || x = 'X') = false) :
    numberLength cs = numeralLength Char.isDigit 'e' 'E' cs := by
  unfold numberLength
  split
  next x rest => rw [if_neg (by simp [h x rest rfl])]
  next => rfl

theorem take_numberLength_mem (h : startsNumber cs = true) :
    cs.take (numberLength cs) ∈ number := by
  by_cases hHex : ∃ x rest, cs = '0' :: x :: rest ∧ (x = 'x' || x = 'X') = true
  · obtain ⟨x, rest, rfl, hx⟩ := hHex
    rw [numberLength_hex hx, number, hexDigit_eq]
    refine .inr ?_
    rw [Nat.add_comm, take_succ_cons, take_succ_cons, take_numeralLength]
    have hStart : ['0', x] ∈ exactly "0" * oneOf ['x', 'X'] :=
      mem_exactly_mul.mpr ⟨[x], ⟨x, by simpa using hx, rfl⟩, rfl⟩
    exact Language.append_mem_mul (Language.append_mem_mul hStart
      (mem_star_one.mpr all_take_runLength)) take_behindWhole_mem
  · rw [numberLength_decimal fun x rest hcs => by simpa using fun hx => hHex ⟨x, rest, hcs, hx⟩]
    exact take_decimal_mem h

/-- Behind `0` and a mark of hexadecimal numbers no decimal number goes on. -/
theorem numeralLength_hex {x : Char} (hx : (x = 'x' || x = 'X') = true) (rest : List Char) :
    numeralLength Char.isDigit 'e' 'E' ('0' :: x :: rest) = 1 := by
  simp only [Bool.or_eq_true, decide_eq_true_eq] at hx
  rcases hx with rfl | rfl <;> rfl

theorem length_le_decimal {whole behind : List Char} (hWhole : ∀ c ∈ whole, c.isDigit = true)
    (hBehind : behind ∈ behindWhole (one fun c => c.isDigit = true) ['e', 'E'])
    (hFront : whole ++ behind <+: cs) : (whole ++ behind).length ≤ numberLength cs := by
  have hLe := length_le_numeralLength rfl rfl rfl (by decide) hWhole hBehind hFront
  by_cases hHex : ∃ x rest, cs = '0' :: x :: rest ∧ (x = 'x' || x = 'X') = true
  · obtain ⟨x, rest, rfl, hx⟩ := hHex
    rw [numeralLength_hex hx] at hLe
    rw [numberLength_hex hx]
    omega
  · rwa [numberLength_decimal fun x rest hcs => by simpa using fun hx => hHex ⟨x, rest, hcs, hx⟩]

theorem length_le_numberLength (hw : w ∈ number) (hFront : w <+: cs) :
    startsNumber cs = true ∧ w.length ≤ numberLength cs := by
  rw [number, digit_eq, hexDigit_eq] at hw
  rcases hw with (hw | hw) | hw
  · obtain ⟨whole, hWhole, behind, hBehind, rfl⟩ := Language.mem_mul.mp hw
    obtain ⟨hNonempty, hWhole⟩ := mem_some.mp hWhole
    refine ⟨?_, length_le_decimal hWhole hBehind hFront⟩
    obtain ⟨d, ds, rfl⟩ := exists_cons_of_ne_nil hNonempty
    obtain ⟨rest, rfl⟩ := hFront
    simp [startsNumber, hWhole d (by simp)]
  · obtain ⟨pointed, hPointed, last, hLast, rfl⟩ := Language.mem_mul.mp hw
    obtain ⟨digits, hDigits, rfl⟩ := mem_exactly_mul.mp hPointed
    obtain ⟨hNonempty, hDigits⟩ := mem_some.mp hDigits
    have hBehind : '.' :: digits ++ last ∈ behindWhole (one fun c => c.isDigit = true) ['e', 'E'] :=
      mem_behindWhole.mpr ⟨'.' :: digits, last, .inr ⟨digits, hDigits, rfl⟩, hLast.symm, rfl⟩
    refine ⟨?_, (length_le_decimal (forall_mem_nil _) hBehind hFront :)⟩
    obtain ⟨d, ds, rfl⟩ := exists_cons_of_ne_nil hNonempty
    obtain ⟨rest, rfl⟩ := hFront
    simp [startsNumber, hDigits d (by simp)]
  · obtain ⟨_, hHead, behind, hBehind, rfl⟩ := Language.mem_mul.mp hw
    obtain ⟨_, hMark, whole, hWhole, rfl⟩ := Language.mem_mul.mp hHead
    obtain ⟨_, ⟨x, hx, rfl⟩, rfl⟩ := mem_exactly_mul.mp hMark
    obtain ⟨rest, rfl⟩ := hFront
    have hLe := length_le_numeralLength rfl rfl rfl (by decide) (mem_star_one.mp hWhole) hBehind
      (prefix_append (whole ++ behind) rest)
    have hNumber := numberLength_hex (x := x) (by simpa using hx) (whole ++ behind ++ rest)
    refine ⟨rfl, ?_⟩
    show ('0' :: x :: (whole ++ behind)).length ≤
      numberLength ('0' :: x :: (whole ++ behind ++ rest))
    rw [hNumber, length_cons, length_cons]
    omega

end Numbers

end LuaShape.Token
