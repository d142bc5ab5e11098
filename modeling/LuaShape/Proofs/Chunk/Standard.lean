import LuaShape.Proofs.Chunk.Printing

/-!
# Words from tokens

Where no function is among them, the tokens of an expression determine its words: whatever a
layout leaves open can be settled token by token.  A string or a brace directly behind an operand
is an argument without parentheses, a separator before a closing brace is a trailing one, and
these are the only tokens that are not words already.  `Token.standardWords` puts the words in
place; `Layout.Moves` follows it through a layout.
-/

namespace LuaShape

open List

open Token (Word)

namespace Token

namespace Kind

/-- Kinds with which an operand ends, functions apart. -/
def endsOperand : Kind → Bool
  | kwNil | kwTrue | kwFalse | ellipsis | number | string | longString | ident | rightParen
  | rightBracket | rightBrace => true
  | _ => false

/-- Kinds of tokens that are words whatever stands around them. -/
def isSettled : Kind → Bool
  | string | longString | leftBrace | rightBrace | comma | semicolon | ident | number => false
  | _ => true

end Kind

/-- The words of an argument: in parentheses if it stands directly behind an operand. -/
def enclosed (behind : Bool) (ws : List Word) : List Word :=
  if behind then .ofKind .leftParen :: (ws ++ [.ofKind .rightParen]) else ws

/-- The words of the tokens of an expression.  `behind` says whether an operand has just ended,
and `opened` for each open brace whether it opens an argument. -/
def standardWords (behind : Bool) (opened : List Bool) : List Token → List Word
  | [] => []
  | t :: rest =>
    match t.kind with
    | .string | .longString =>
      enclosed behind [⟨.string, Escape.quoted (t.stringValue?.getD "")⟩] ++
        standardWords true opened rest
    | .leftBrace =>
      (if behind then [.ofKind .leftParen] else []) ++
        .ofKind .leftBrace :: standardWords false (behind :: opened) rest
    | .rightBrace =>
      .ofKind .rightBrace :: ((if opened.headD false then [.ofKind .rightParen] else []) ++
        standardWords true opened.tail rest)
    | .comma | .semicolon =>
      (if rest.head?.map Token.kind = some .rightBrace then [] else [.ofKind .comma]) ++
        standardWords false opened rest
    | .ident | .number => ⟨t.kind, t.text⟩ :: standardWords true opened rest
    | kind => .ofKind kind :: standardWords kind.endsOperand opened rest

variable {behind : Bool} {opened : List Bool} {t : Token} {rest : List Token}

theorem standardWords_settled (h : t.kind.isSettled = true) :
    standardWords behind opened (t :: rest) =
      .ofKind t.kind :: standardWords t.kind.endsOperand opened rest := by
  rw [standardWords]
  split <;> simp_all [Kind.isSettled]

theorem standardWords_string {value : String} (h : t.stringValue? = some value) :
    standardWords behind opened (t :: rest) =
      enclosed behind [⟨.string, Escape.quoted value⟩] ++ standardWords true opened rest := by
  have hKind : t.kind = .string ∨ t.kind = .longString := by
    unfold Token.stringValue? at h
    split at h <;> simp_all
  rw [standardWords]
  rcases hKind with hKind | hKind <;> simp [hKind, h]

theorem standardWords_text (h : t.kind = .ident ∨ t.kind = .number) :
    standardWords behind opened (t :: rest) =
      ⟨t.kind, t.text⟩ :: standardWords true opened rest := by
  rw [standardWords]
  rcases h with h | h <;> simp [h]

theorem standardWords_separator (h : t.kind = .comma ∨ t.kind = .semicolon) :
    standardWords behind opened (t :: rest) =
      (if rest.head?.map Token.kind = some .rightBrace then [] else [.ofKind .comma]) ++
        standardWords false opened rest := by
  rw [standardWords]
  rcases h with h | h <;> simp [h]

theorem standardWords_leftBrace (h : t.kind = .leftBrace) :
    standardWords behind opened (t :: rest) =
      (if behind then [.ofKind .leftParen] else []) ++
        .ofKind .leftBrace :: standardWords false (behind :: opened) rest := by
  rw [standardWords]
  simp [h]

theorem standardWords_rightBrace (h : t.kind = .rightBrace) :
    standardWords behind opened (t :: rest) =
      .ofKind .rightBrace :: ((if opened.headD false then [.ofKind .rightParen] else []) ++
        standardWords true opened.tail rest) := by
  rw [standardWords]
  simp [h]

/-- There is no function among the tokens. -/
def NoFunction (ts : List Token) : Prop := ∀ t ∈ ts, t.kind ≠ .kwFunction

theorem noFunction_append {ts ts' : List Token} :
    NoFunction (ts ++ ts') ↔ NoFunction ts ∧ NoFunction ts' :=
  forall_mem_append

end Token

open Token (standardWords NoFunction noFunction_append)

namespace Layout

variable {layout layout' : Layout} {ts : List Token}

/-! ## Tokens that fill a layout -/

variable {slot : Slot} {text : String} {kind : Token.Kind} {layouts : List Layout}

/-- Names and numbers are single tokens and keep their text. -/
theorem Fits.of_text (hSlot : slot = .name text ∨ slot = .number text)
    (h : Fits (slot :: layout) ts) :
    ∃ t rest, ts = t :: rest ∧ (t.kind = .ident ∨ t.kind = .number) ∧
      slot.words = [⟨t.kind, t.text⟩] ∧ Fits layout rest := by
  obtain ⟨first, rest, rfl, hFirst, hRest⟩ := h.of_cons
  rcases hSlot with rfl | rfl
  · cases hFirst with
    | name hKind => exact ⟨_, rest, rfl, .inl hKind, by rw [hKind]; rfl, hRest⟩
  · cases hFirst with
    | number hKind => exact ⟨_, rest, rfl, .inr hKind, by rw [hKind]; rfl, hRest⟩

/-! ## Layouts and their words -/

/-- The tokens of a layout become its words, and lead from one state to another. -/
def Moves (behind : Bool) (layout : Layout) (after : Bool) : Prop :=
  ∀ ts, layout.Fits ts → NoFunction ts → ∀ opened rest,
    standardWords behind opened (ts ++ rest) = layout.words ++ standardWords after opened rest

/-- The tokens of a layout start with one that is no closing brace. -/
def StartsInside (layout : Layout) : Prop :=
  ∀ ts, layout.Fits ts → ∃ t rest, ts = t :: rest ∧ t.kind ≠ .rightBrace

variable {a b c : Bool}

theorem Moves.append (h : Moves a layout b) (h' : Moves b layout' c) :
    Moves a (layout ++ layout') c := by
  intro ts hFits hNone opened rest
  obtain ⟨first, second, rfl, hFirst, hSecond⟩ := hFits.of_append
  rw [noFunction_append] at hNone
  rw [append_assoc, h _ hFirst hNone.1, h' _ hSecond hNone.2, words_append, append_assoc]

theorem moves_token (h : kind.isSettled = true) : Moves a [.token kind] kind.endsOperand := by
  intro ts hFits _ opened rest
  obtain ⟨t, rfl, rfl⟩ := hFits.exists_token
  rw [singleton_append, Token.standardWords_settled h]
  rfl

theorem moves_operator (h : kind.isSettled = true) (hEnds : kind.endsOperand = false) :
    Moves a [.token kind] false := by
  rw [← hEnds]
  exact moves_token h

theorem moves_text (h : slot = .name text ∨ slot = .number text) : Moves a [slot] true := by
  intro ts hFits _ opened rest
  obtain ⟨t, others, rfl, hKind, hWords, hNil⟩ := hFits.of_text h
  cases hNil
  rw [singleton_append, Token.standardWords_text hKind, words_cons, hWords]
  rfl

/-- Two layouts with a separator between them. -/
theorem Moves.separated {separator : Slot} (h : Moves a layout true) (h' : Moves false layout' c)
    (hStarts : layout'.StartsInside) (hWords : separator.words = [.ofKind .comma])
    (hSeparator : ∀ ts, separator.Fits ts → ∃ t : Token, ts = [t] ∧
      (t.kind = .comma ∨ t.kind = .semicolon)) :
    Moves a (layout ++ separator :: layout') c := by
  intro ts hFits hNone opened rest
  obtain ⟨first, second, rfl, hFirst, hSecond⟩ := hFits.of_append
  obtain ⟨comma, others, rfl, hComma, hOthers⟩ := hSecond.of_cons
  obtain ⟨t, rfl, hKind⟩ := hSeparator _ hComma
  obtain ⟨u, tail, rfl, hBrace⟩ := hStarts _ hOthers
  simp only [noFunction_append] at hNone
  rw [append_assoc, h _ hFirst hNone.1, append_assoc, singleton_append,
    Token.standardWords_separator hKind, h' _ hOthers hNone.2.2, words_append, words_cons, hWords,
    if_neg (by simpa using hBrace)]
  simp

theorem startsInside_append (h : StartsInside layout) : StartsInside (layout ++ layout') := by
  intro ts hFits
  obtain ⟨first, second, rfl, hFirst, -⟩ := hFits.of_append
  obtain ⟨t, rest, rfl, hKind⟩ := h _ hFirst
  exact ⟨t, rest ++ second, rfl, hKind⟩

theorem startsInside_token (h : kind ≠ .rightBrace) : StartsInside (.token kind :: layout) := by
  intro ts hFits
  obtain ⟨t, rest, rfl, rfl, -⟩ := hFits.of_token
  exact ⟨t, rest, rfl, h⟩

theorem startsInside_text (h : slot = .name text ∨ slot = .number text) :
    StartsInside (slot :: layout) := by
  intro ts hFits
  obtain ⟨t, rest, rfl, hKind, -⟩ := hFits.of_text h
  refine ⟨t, rest, rfl, ?_⟩
  rcases hKind with hKind | hKind <;> simp [hKind]

/-- What is needed of an expression or an entry inside a list. -/
structure Standard (layout : Layout) : Prop where
  moves : Moves false layout true
  starts : StartsInside layout

theorem standard_function : Standard (.token .kwFunction :: layout) where
  moves ts hFits hNone := by
    obtain ⟨t, rest, rfl, hKind, -⟩ := hFits.of_token
    exact absurd hKind (hNone t (by simp))
  starts := startsInside_token (by simp)

theorem standard_joined {separator : Slot} (hNonempty : layouts ≠ [])
    (h : ∀ layout ∈ layouts, Standard layout) (hWords : separator.words = [.ofKind .comma])
    (hSeparator : ∀ ts, separator.Fits ts → ∃ t : Token, ts = [t] ∧
      (t.kind = .comma ∨ t.kind = .semicolon)) : Standard (joined separator layouts) := by
  induction layouts with
  | nil => exact absurd rfl hNonempty
  | cons first others ih =>
    have hFirst := h first (by simp)
    cases others with
    | nil =>
      rw [joined_singleton]
      exact hFirst
    | cons second others =>
      have hOthers := ih (by simp) fun layout hl => h layout (by simp [hl])
      rw [joined_cons (by simp)]
      exact ⟨hFirst.moves.separated hOthers.moves hOthers.starts hWords hSeparator,
        startsInside_append hFirst.starts⟩

theorem separator_comma (ts : List Token) (h : (Slot.token .comma).Fits ts) :
    ∃ t : Token, ts = [t] ∧ (t.kind = .comma ∨ t.kind = .semicolon) := by
  obtain ⟨t, rfl, hKind⟩ := (Fits.single h).exists_token
  exact ⟨t, rfl, .inl hKind⟩

theorem separator_field (ts : List Token) (h : Slot.fieldSeparator.Fits ts) :
    ∃ t : Token, ts = [t] ∧ (t.kind = .comma ∨ t.kind = .semicolon) := by
  cases h with
  | fieldSeparator hKind => exact ⟨_, rfl, hKind⟩

theorem standard_commas (hNonempty : layouts ≠ []) (h : ∀ layout ∈ layouts, Standard layout) :
    Standard (commas layouts) :=
  standard_joined hNonempty h rfl separator_comma

/-! ## Tables and arguments -/

/-- The entries of a table, up to its closing brace. -/
theorem standardWords_entries (h : ∀ layout ∈ layouts, Standard layout)
    (hFits : Fits (entries layouts) ts) (hNone : NoFunction ts) {brace : Token}
    (hBrace : brace.kind = .rightBrace) (opened : List Bool) (rest : List Token) :
    standardWords false opened (ts ++ brace :: rest) =
      (entries layouts).words ++ standardWords true opened (brace :: rest) := by
  have hIgnored : ∀ behind, standardWords behind opened (brace :: rest) =
      standardWords true opened (brace :: rest) := fun behind => by
    rw [Token.standardWords_rightBrace hBrace, Token.standardWords_rightBrace hBrace]
  cases layouts with
  | nil =>
    cases hFits
    exact hIgnored false
  | cons first others =>
    have hJoined := standard_joined (by simp) h rfl separator_field
    obtain ⟨inside, last, rfl, hInside, hLast⟩ := hFits.of_append
    rw [noFunction_append] at hNone
    rw [append_assoc, hJoined.moves _ hInside hNone.1, entries, words_append,
      append_assoc]
    obtain ⟨separator, none, rfl, hSeparator, hNil⟩ := hLast.of_cons
    cases hNil
    cases hSeparator with
    | noLastFieldSeparator => rfl
    | lastFieldSeparator hKind =>
      -- a separator before the closing brace is dropped
      rw [append_nil, singleton_append, Token.standardWords_separator hKind,
        if_pos (by simp [hBrace]), hIgnored false]
      rfl

/-- A table; behind an operand it is an argument. -/
theorem standardWords_table (h : ∀ layout ∈ layouts, Standard layout)
    (hFits : Fits (.token .leftBrace :: (entries layouts ++ [.token .rightBrace])) ts)
    (hNone : NoFunction ts) (behind : Bool) (opened : List Bool) (rest : List Token) :
    standardWords behind opened (ts ++ rest) =
      Token.enclosed behind
        (words (.token .leftBrace :: (entries layouts ++ [.token .rightBrace]))) ++
        standardWords true opened rest := by
  obtain ⟨left, others, rfl, hLeft, hOthers⟩ := hFits.of_token
  obtain ⟨inside, last, rfl, hInside, hLast⟩ := hOthers.of_append
  obtain ⟨right, rfl, hRight⟩ := hLast.exists_token
  have hNone' : NoFunction inside := fun t ht => hNone t (by simp [ht])
  rw [cons_append, Token.standardWords_leftBrace hLeft, append_assoc,
    singleton_append, standardWords_entries h hInside hNone' hRight,
    Token.standardWords_rightBrace hRight]
  cases behind <;> simp [Token.enclosed]

end Layout

open Layout (Moves Standard StartsInside moves_token moves_operator moves_text)

/-- The tokens of an expression become its words, also where it is an argument without
parentheses. -/
structure Expr.Standard (e : Expr) : Prop extends e.layout.Standard where
  argument : Expr.standAlone [e] = true → ∀ ts, e.layout.Fits ts → NoFunction ts →
    ∀ opened rest, standardWords true opened (ts ++ rest) =
      Token.enclosed true e.layout.words ++ standardWords true opened rest

namespace Expr

theorem Standard.of_layout {e : Expr} (h : e.layout.Standard) (hAlone : standAlone [e] = false) :
    e.Standard :=
  ⟨h, fun hTrue => by
    rw [hAlone] at hTrue
    cases hTrue⟩

theorem standard_string (m : Mark) (value : String) : (Expr.string m value).Standard := by
  have hWords : ∀ ts, Layout.Fits [.string value] ts → ∀ behind opened rest,
      standardWords behind opened (ts ++ rest) =
        Token.enclosed behind [⟨.string, Escape.quoted value⟩] ++ standardWords true opened rest := by
    intro ts hFits behind opened rest
    obtain ⟨first, none, rfl, hSlot, hNil⟩ := hFits.of_cons
    cases hNil
    cases hSlot with
    | string hValue =>
      rw [append_nil, singleton_append, Token.standardWords_string hValue]
  refine ⟨⟨fun ts hFits _ => hWords ts hFits false, fun ts hFits => ?_⟩,
    fun _ ts hFits _ => hWords ts hFits true⟩
  obtain ⟨first, rest, rfl, hSlot, -⟩ := Layout.Fits.of_cons hFits
  cases hSlot with
  | string hValue =>
    refine ⟨_, rest, rfl, fun hKind => ?_⟩
    simp [Token.stringValue?, hKind] at hValue

theorem standard_table {m : Mark} {fields : List Field}
    (h : ∀ layout ∈ fieldLayouts fields, layout.Standard) : (Expr.table m fields).Standard :=
  ⟨⟨fun _ hFits hNone => Layout.standardWords_table h hFits hNone false,
    Layout.startsInside_token (by simp)⟩,
    fun _ _ hFits hNone => Layout.standardWords_table h hFits hNone true⟩

theorem exists_of_standAlone {args : List Expr} (h : standAlone args = true) :
    ∃ e, args = [e] ∧ standAlone [e] = true := by
  unfold standAlone at h
  split at h
  next => exact ⟨_, rfl, rfl⟩
  next => exact ⟨_, rfl, rfl⟩
  next => cases h

section Arguments

variable {args : List Expr} (h : ∀ e ∈ args, e.Standard)
include h

theorem standardWords_inside {inside : List Token} {left right : Token}
    (hFits : (Layout.commas (exprLayouts args)).Fits inside) (hNone : NoFunction inside)
    (hLeft : left.kind = .leftParen) (hRight : right.kind = .rightParen) (opened : List Bool)
    (rest : List Token) :
    standardWords true opened (left :: (inside ++ [right]) ++ rest) =
      (Layout.arguments args (Layout.commas (exprLayouts args))).words ++
        standardWords true opened rest := by
  have hClose : ∀ behind, standardWords behind opened (right :: rest) =
      .ofKind .rightParen :: standardWords true opened rest := fun behind => by
    rw [Token.standardWords_settled (by rw [hRight]; rfl), hRight]
    rfl
  have hInside : standardWords false opened (inside ++ right :: rest) =
      (Layout.commas (exprLayouts args)).words ++
        .ofKind .rightParen :: standardWords true opened rest := by
    cases args with
    | nil =>
      cases hFits
      exact hClose false
    | cons e es =>
      have hList : ∀ layout ∈ exprLayouts (e :: es), layout.Standard := by
        rw [exprLayouts_eq_map, forall_mem_map]
        exact fun e' he' => (h e' he').toStandard
      have hMoves := (Layout.standard_commas (by simp [exprLayouts]) hList).moves
      rw [hMoves inside hFits hNone, hClose true]
  rw [Layout.words_arguments, cons_append, Token.standardWords_settled (by rw [hLeft]; rfl),
    hLeft, append_assoc, singleton_append]
  show _ :: standardWords false opened _ = _
  rw [hInside]
  simp

/-- Arguments, in parentheses or not. -/
theorem moves_arguments :
    Moves true (Layout.arguments args (Layout.commas (exprLayouts args))) true := by
  intro ts hFits hNone opened rest
  by_cases hAlone : standAlone args = true
  · have hLayout : Layout.arguments args (Layout.commas (exprLayouts args)) =
        [.argument (Layout.commas (exprLayouts args))] := if_pos hAlone
    rw [hLayout] at hFits
    obtain ⟨first, none, rfl, hSlot, hNil⟩ := hFits.of_cons
    cases hNil
    rw [append_nil] at hNone ⊢
    cases hSlot with
    | bare hBare =>
      obtain ⟨e, rfl, hOne⟩ := exists_of_standAlone hAlone
      rw [exprLayouts, exprLayouts, Layout.commas_singleton] at hBare
      rw [(h e (by simp)).argument hOne first hBare hNone, Layout.words_arguments, exprLayouts,
        exprLayouts, Layout.commas_singleton]
      rfl
    | enclosed hLeft hInside hRight =>
      exact standardWords_inside h hInside (fun t ht => hNone t (by simp [ht])) hLeft hRight _ _
  · have hLayout : Layout.arguments args (Layout.commas (exprLayouts args)) =
        .token .leftParen :: (Layout.commas (exprLayouts args) ++ [.token .rightParen]) :=
      if_neg hAlone
    rw [hLayout] at hFits
    obtain ⟨left, others, rfl, hLeft, hOthers⟩ := hFits.of_token
    obtain ⟨inside, last, rfl, hInside, hLast⟩ := hOthers.of_append
    obtain ⟨right, rfl, hRight⟩ := hLast.exists_token
    exact standardWords_inside h hInside (fun t ht => hNone t (by simp [ht])) hLeft hRight _ _

end Arguments

end Expr

/-! ## Expressions -/

mutual

theorem Expr.standard : (e : Expr) → e.Standard
  | .nil _ | .boolean _ true | .boolean _ false | .vararg _ =>
    .of_layout ⟨moves_token rfl, Layout.startsInside_token (by simp)⟩ rfl
  | .number _ _ => .of_layout ⟨moves_text (.inr rfl), Layout.startsInside_text (.inr rfl)⟩ rfl
  | .name _ _ => .of_layout ⟨moves_text (.inl rfl), Layout.startsInside_text (.inl rfl)⟩ rfl
  | .string m value => Expr.standard_string m value
  | .function _ _ => .of_layout Layout.standard_function rfl
  | .table _ fields => Expr.standard_table (standard_fieldLayouts fields)
  | .member _ object _ => .of_layout
      ⟨object.standard.moves.append ((moves_token rfl).append (moves_text (.inl rfl))),
        Layout.startsInside_append object.standard.starts⟩ rfl
  | .index _ object key => .of_layout
      ⟨object.standard.moves.append ((moves_token rfl).append (key.standard.moves.append
        (moves_token rfl))), Layout.startsInside_append object.standard.starts⟩ rfl
  | .call _ callee args => .of_layout
      ⟨callee.standard.moves.append (Expr.moves_arguments (standard_exprs args)),
        Layout.startsInside_append callee.standard.starts⟩ rfl
  | .methodCall _ object _ args => .of_layout
      ⟨object.standard.moves.append ((moves_token rfl).append ((moves_text (.inl rfl)).append
        (Expr.moves_arguments (standard_exprs args)))),
        Layout.startsInside_append object.standard.starts⟩ rfl
  | .binary _ op left right => .of_layout
      ⟨left.standard.moves.append ((moves_operator (by cases op <;> rfl) (by cases op <;> rfl)).append
        right.standard.moves),
        Layout.startsInside_append left.standard.starts⟩ rfl
  | .unary _ op operand => .of_layout
      ⟨(moves_operator (by cases op <;> rfl) (by cases op <;> rfl)).append operand.standard.moves,
        Layout.startsInside_token (by cases op <;> simp [UnaryOp.token])⟩ rfl
  | .paren _ inner => .of_layout
      ⟨(moves_token rfl).append (inner.standard.moves.append (moves_token rfl)),
        Layout.startsInside_token (by simp)⟩ rfl

theorem standard_exprs : (es : List Expr) → ∀ e ∈ es, e.Standard
  | [] => by simp
  | e :: rest => forall_mem_cons.mpr ⟨e.standard, standard_exprs rest⟩

theorem Field.standard : (f : Field) → f.layout.Standard
  | .named _ value =>
    ⟨(moves_text (.inl rfl)).append ((moves_token rfl).append value.standard.moves),
      Layout.startsInside_text (.inl rfl)⟩
  | .keyed key value =>
    ⟨(moves_token rfl).append (key.standard.moves.append ((moves_token rfl).append
      ((moves_token rfl).append value.standard.moves))), Layout.startsInside_token (by simp)⟩
  | .positional value => value.standard.toStandard

theorem standard_fieldLayouts : (fields : List Field) →
    ∀ layout ∈ fieldLayouts fields, layout.Standard
  | [] => by simp [fieldLayouts]
  | f :: rest => forall_mem_cons.mpr ⟨f.standard, standard_fieldLayouts rest⟩

end

/-- Tokens without functions determine the words of the expressions whose layout they fill. -/
theorem Expr.words_eq_of_fits {e e' : Expr} {ts : List Token} (hNone : NoFunction ts)
    (h : e.layout.Fits ts) (h' : e'.layout.Fits ts) : e'.layout.words = e.layout.words := by
  have hWords : ∀ e'' : Expr, e''.layout.Fits ts → standardWords false [] ts = e''.layout.words := by
    intro e'' hFits
    have hMoves := e''.standard.moves ts hFits hNone [] []
    rwa [append_nil, standardWords, append_nil] at hMoves
  rw [← hWords e h, ← hWords e' h']

end LuaShape
