import LuaShape.Proofs.Chunk.Layout
import LuaShape.Proofs.Token.Rescan
import Mathlib.Data.List.TakeWhile

/-!
# Printing trees

A chunk is printed as the words of its layout, with one choice made in each slot: a
semicolon behind every statement, parentheses around all arguments, commas between the
entries of a table and none behind the last, strings in double quotes.

`bare` forgets the numbers and places of a tree.  `Node.isWellFormed` is what a tree must
be like to come from a text at all.
-/

namespace LuaShape

open List

/-! ## Words of a layout -/

open Token (Word)

/-- The word of a kind with one spelling. -/
def Token.Word.ofKind (kind : Token.Kind) : Word := ⟨kind, kind.spelling?.getD ""⟩

namespace Escape

/-- How a character is written between double quotes. -/
def quotedChar (c : Char) : List Char :=
  if c = '\x22' || c = '\\' then ['\\', c] else if c = '\n' then ['\\', 'n'] else [c]

/-- A string between double quotes. -/
def quoted (value : String) : String :=
  String.ofList ('\x22' :: (value.toList.flatMap quotedChar ++ ['\x22']))

end Escape

mutual

/-- The words that fill a slot when a tree is printed. -/
@[simp]
def Slot.words : Slot → List Word
  | .token kind => [.ofKind kind]
  | .name text => [⟨.ident, text⟩]
  | .number text => [⟨.number, text⟩]
  | .string value => [⟨.string, Escape.quoted value⟩]
  | .leading | .localAttribute | .lastFieldSeparator => []
  | .separators | .lastSeparator => [.ofKind .semicolon]
  | .fieldSeparator => [.ofKind .comma]
  | .argument inside => .ofKind .leftParen :: (Layout.words inside ++ [.ofKind .rightParen])

/-- The words that fill a layout when a tree is printed. -/
def Layout.words : Layout → List Word
  | [] => []
  | slot :: rest => slot.words ++ Layout.words rest

end

namespace Layout

@[simp]
theorem words_nil : words [] = [] := rfl

@[simp]
theorem words_cons (slot : Slot) (layout : Layout) :
    words (slot :: layout) = slot.words ++ layout.words := rfl

@[simp]
theorem words_append (layout layout' : Layout) :
    (layout ++ layout').words = layout.words ++ layout'.words := by
  induction layout with
  | nil => rfl
  | cons slot layout ih => rw [cons_append, words_cons, words_cons, ih, append_assoc]

theorem words_arguments (args : List Expr) (inside : Layout) :
    (arguments args inside).words =
      .ofKind .leftParen :: (inside.words ++ [.ofKind .rightParen]) := by
  unfold arguments
  split
  next => simp
  next => simp

theorem words_entries (layouts : List Layout) : (entries layouts).words = (commas layouts).words := by
  have hFlat : ∀ layouts : List Layout,
      words (layouts.flatMap fun layout => .fieldSeparator :: layout) =
        words (layouts.flatMap fun layout => .token .comma :: layout) := by
    intro layouts
    induction layouts with
    | nil => rfl
    | cons first rest ih => simp [ih]
  cases layouts with
  | nil => rfl
  | cons first rest => simp [entries, commas, joined, hFlat]

end Layout

/-- A chunk as source text. -/
def Chunk.print (chunk : Chunk) : String := Word.print chunk.layout.words

/-! ## Trees without numbers and places -/

namespace FunctionName

/-- The name in a function statement without its place. -/
def bare (name : FunctionName) : FunctionName := { name with span := default }

end FunctionName

mutual

/-- An expression without numbers and places. -/
def Expr.bare : Expr → Expr
  | .nil _ => .nil default
  | .boolean _ value => .boolean default value
  | .number _ text => .number default text
  | .string _ value => .string default value
  | .vararg _ => .vararg default
  | .function _ body => .function default body.bare
  | .table _ fields => .table default (bareFields fields)
  | .name _ text => .name default text
  | .member _ object text => .member default object.bare text
  | .index _ object key => .index default object.bare key.bare
  | .call _ callee args => .call default callee.bare (bareExprs args)
  | .methodCall _ object method args => .methodCall default object.bare method (bareExprs args)
  | .binary _ op left right => .binary default op left.bare right.bare
  | .unary _ op operand => .unary default op operand.bare
  | .paren _ inner => .paren default inner.bare

/-- Expressions without numbers and places. -/
def bareExprs : List Expr → List Expr
  | [] => []
  | e :: rest => e.bare :: bareExprs rest

/-- An entry of a table without numbers and places. -/
def Field.bare : Field → Field
  | .named name value => .named name value.bare
  | .keyed key value => .keyed key.bare value.bare
  | .positional value => .positional value.bare

/-- Entries of a table without numbers and places. -/
def bareFields : List Field → List Field
  | [] => []
  | f :: rest => f.bare :: bareFields rest

/-- A function without numbers and places. -/
def FunctionBody.bare : FunctionBody → FunctionBody
  | .mk _ params isVararg body _ => .mk 0 params isVararg body.bare default

/-- A block without numbers and places. -/
def Block.bare : Block → Block
  | .mk statements _ => .mk (bareStmts statements) default

/-- Statements without numbers and places. -/
def bareStmts : List Stmt → List Stmt
  | [] => []
  | s :: rest => s.bare :: bareStmts rest

/-- A statement without numbers and places. -/
def Stmt.bare : Stmt → Stmt
  | .localVars _ names values => .localVars default names (bareExprs values)
  | .assign _ targets values => .assign default (bareExprs targets) (bareExprs values)
  | .call _ e => .call default e.bare
  | .doBlock _ body => .doBlock default body.bare
  | .whileLoop _ condition body => .whileLoop default condition.bare body.bare
  | .repeatLoop _ body condition => .repeatLoop default body.bare condition.bare
  | .ifElse _ clauses otherwise => .ifElse default (bareClauses clauses) (bareOtherwise otherwise)
  | .numericFor _ var start limit step body =>
    .numericFor default var start.bare limit.bare (bareStep step) body.bare
  | .genericFor _ names iterators body => .genericFor default names (bareExprs iterators) body.bare
  | .function _ name body => .function default name.bare body.bare
  | .localFunction _ name body => .localFunction default name body.bare
  | .returnValues _ values => .returnValues default (bareExprs values)
  | .breakLoop _ => .breakLoop default
  | .goto _ label => .goto default label
  | .label _ name => .label default name

/-- A guarded block without numbers and places. -/
def Clause.bare : Clause → Clause
  | .mk condition body => .mk condition.bare body.bare

/-- Guarded blocks without numbers and places. -/
def bareClauses : List Clause → List Clause
  | [] => []
  | clause :: rest => clause.bare :: bareClauses rest

/-- An `else` block without numbers and places. -/
def bareOtherwise : Option Block → Option Block
  | none => none
  | some body => some body.bare

/-- The step of a `for` loop without numbers and places. -/
def bareStep : Option Expr → Option Expr
  | none => none
  | some e => some e.bare

end

/-! ## Well-formed trees -/

namespace Token

/-- Whether a text is a name: a letter or `_`, then letters, digits and `_`, and no keyword. -/
def isName (text : String) : Bool :=
  match text.toList with
  | [] => false
  | c :: cs => isNameStart c && cs.all isNamePart && Kind.ofWord text = .ident

/-- Whether a text is one number. -/
def isNumeral (text : String) : Bool := (Word.mk .number text).standsAlone

end Token

namespace Node

/-- Names are names and numbers are numbers. -/
@[simp]
def spellsWell : Node → Bool
  | .expr (.name _ text) | .expr (.member _ _ text) | .expr (.methodCall _ _ text _) =>
    Token.isName text
  | .expr (.number _ text) => Token.isNumeral text
  | .field (.named name _) => Token.isName name
  | .function body => body.params.all Token.isName
  | .statement (.localVars _ names _) | .statement (.genericFor _ names _ _) =>
    names.all Token.isName
  | .statement (.numericFor _ name _ _ _ _) | .statement (.localFunction _ name _)
  | .statement (.goto _ name) | .statement (.label _ name) => Token.isName name
  | .statement (.function _ name _) =>
    Token.isName name.root && name.members.all Token.isName && name.method.all Token.isName
  | _ => true

/-- What a part of a tree must be like to come from a text. -/
def isWellFormed (n : Node) : Bool :=
  n.isRegular && n.spellsWell && n.prefixesFit && n.operatorsNest && n.listsFilled

theorem isShaped_of_isWellFormed {n : Node} (h : n.isWellFormed = true) : n.isShaped = true := by
  simp only [isWellFormed, Bool.and_eq_true] at h
  exact isShaped_iff.mpr ⟨h.1.1.1.1, h.1.1.2, h.1.2, h.2⟩

end Node

/-! ## Printed words stand alone -/

namespace Token

namespace Kind

/-- Whether a kind has one spelling. -/
@[simp]
def isFixed : Kind → Bool
  | ident | number | string | longString | error => false
  | _ => true

end Kind

theorem Word.standsAlone_ofKind {kind : Kind} (h : kind.isFixed = true) :
    (ofKind kind).standsAlone = true := by
  revert h
  cases kind <;> decide +kernel

theorem Word.standsAlone_of_isName {text : String} (h : isName text = true) :
    (Word.mk .ident text).standsAlone = true := by
  unfold isName at h
  cases hText : text.toList with
  | nil => simp [hText] at h
  | cons c cs =>
    simp only [hText, Bool.and_eq_true, decide_eq_true_eq] at h
    obtain ⟨⟨hStart, hParts⟩, hKind⟩ := h
    have hSkip : skipLength (c :: cs) = 0 := by
      rw [skipLength_eq_zero_iff]
      refine ⟨?_, ?_, ?_⟩
      · by_contra hBlank
        have hPart := isNamePart_of_isAsciiBlank (Bool.not_eq_false _ ▸ hBlank)
        simp only [isNameStart, Bool.or_eq_true] at hStart
        simp only [isNamePart, Char.isAlphanum, Bool.or_eq_false_iff] at hPart
        simp [hPart.1.1, hPart.2] at hStart
      · rintro rfl
        exact absurd hStart (by decide)
      · rintro rfl
        exact absurd hStart (by decide)
    have hLength : 1 + runLength isNamePart cs = (c :: cs).length := by
      rw [runLength, takeWhile_eq_self_iff.mpr (by simpa using hParts), length_cons,
        Nat.add_comm]
    have hToken : scanToken (c :: cs) = (.ident, (c :: cs).length) := by
      simp only [scanToken, if_pos hStart, hLength, take_length]
      rw [← hText, String.ofList_toList, hKind]
    simp only [Word.standsAlone, hText, scan, hSkip, hToken]
    simp

end Token

namespace Escape

/-- A character is written as an escape that stands for it, or as it is. -/
theorem quotedChar_cases (c : Char) :
    (∃ d, quotedChar c = ['\\', d] ∧ ∀ rest, escape? (d :: rest) = some ([c], rest)) ∨
      (quotedChar c = [c] ∧ c ≠ '\x22' ∧ c ≠ '\\' ∧ c ≠ '\n') := by
  by_cases hQuote : c = '\x22'
  · subst hQuote
    exact .inl ⟨'\x22', rfl, fun rest => rfl⟩
  by_cases hSlash : c = '\\'
  · subst hSlash
    exact .inl ⟨'\\', rfl, fun rest => rfl⟩
  by_cases hBreak : c = '\n'
  · subst hBreak
    exact .inl ⟨'n', rfl, fun rest => rfl⟩
  · exact .inr ⟨by simp [quotedChar, hQuote, hSlash, hBreak], hQuote, hSlash, hBreak⟩

theorem quotedLength_quoted (cs rest : List Char) :
    Token.quotedLength '\x22' (cs.flatMap quotedChar ++ '\x22' :: rest) =
      (true, (cs.flatMap quotedChar).length + 1) := by
  induction cs with
  | nil => simp [Token.quotedLength]
  | cons c cs ih =>
    rw [flatMap_cons, append_assoc]
    rcases quotedChar_cases c with ⟨d, hChar, -⟩ | ⟨hChar, hQuote, hSlash, hBreak⟩
    · rw [hChar]
      simp only [cons_append, nil_append, Token.quotedLength, ih, length_cons]
    · rw [hChar, singleton_append, Token.quotedLength_cons hSlash, if_neg hQuote,
        if_neg hBreak, ih, singleton_append, length_cons]

theorem decodeFrom_quoted (cs : List Char) (limit : Nat)
    (hLimit : (cs.flatMap quotedChar).length ≤ limit) :
    decodeFrom limit (cs.flatMap quotedChar) = some cs := by
  induction cs generalizing limit with
  | nil => cases limit <;> rfl
  | cons c cs ih =>
    rw [flatMap_cons] at hLimit ⊢
    rcases quotedChar_cases c with ⟨d, hChar, hEscape⟩ | ⟨hChar, -, hSlash, -⟩
    · rw [hChar] at hLimit ⊢
      simp only [cons_append, nil_append, length_cons] at hLimit ⊢
      obtain ⟨limit, rfl⟩ : ∃ l, limit = l + 1 := ⟨limit - 1, by omega⟩
      simp [decodeFrom, hEscape, ih limit (by omega)]
    · rw [hChar] at hLimit ⊢
      simp only [singleton_append, length_cons] at hLimit ⊢
      obtain ⟨limit, rfl⟩ : ∃ l, limit = l + 1 := ⟨limit - 1, by omega⟩
      simp [decodeFrom, hSlash, ih limit (by omega)]

/-- A string in double quotes has the value it was written for. -/
theorem shortValue?_quoted (value : String) : shortValue? (quoted value) = some value := by
  unfold shortValue? decode? quoted
  simp only [String.toList_ofList, drop_one, tail_cons, dropLast_concat]
  rw [decodeFrom_quoted _ _ (Nat.le_refl _), Option.map_some, String.ofList_toList]

theorem standsAlone_quoted (value : String) :
    (Token.Word.mk .string (quoted value)).standsAlone = true := by
  have hSkip : Token.skipLength ('\x22' :: (value.toList.flatMap quotedChar ++ ['\x22'])) = 0 := by
    rw [Token.skipLength_eq_zero_iff]
    refine ⟨by decide, ?_, ?_⟩ <;> intro h <;> exact absurd h (by decide)
  have hToken : Token.scanToken ('\x22' :: (value.toList.flatMap quotedChar ++ ['\x22'])) =
      (.string, (value.toList.flatMap quotedChar).length + 2) := by
    have hQuoted := quotedLength_quoted value.toList []
    simp only [Token.scanToken, hQuoted]
    rfl
  simp [Token.Word.standsAlone, quoted, Token.scan, hSkip, hToken]

end Escape

mutual

/-- Whether the words that fill a slot are tokens. -/
@[simp]
def Slot.isSpelled : Slot → Bool
  | .token kind => kind.isFixed
  | .name text => Token.isName text
  | .number text => Token.isNumeral text
  | .argument inside => Layout.isSpelled inside
  | _ => true

/-- Whether the words that fill a layout are tokens. -/
@[simp]
def Layout.isSpelled : Layout → Bool
  | [] => true
  | slot :: rest => slot.isSpelled && Layout.isSpelled rest

end

mutual

theorem Slot.standsAlone_of_isSpelled :
    (slot : Slot) → slot.isSpelled = true → ∀ w ∈ slot.words, w.standsAlone = true
  | .token kind, h => by simpa [Slot.words] using Token.Word.standsAlone_ofKind h
  | .name text, h => by simpa [Slot.words] using Token.Word.standsAlone_of_isName h
  | .number text, h => by
      simp only [Slot.words, forall_mem_singleton]
      exact h
  | .string value, _ => by simpa [Slot.words] using Escape.standsAlone_quoted value
  | .leading, _ | .localAttribute, _ | .lastFieldSeparator, _ => by simp [Slot.words]
  | .separators, _ | .lastSeparator, _ | .fieldSeparator, _ => by
      simp only [Slot.words, forall_mem_singleton]
      exact Token.Word.standsAlone_ofKind rfl
  | .argument inside, h => by
      have hInside := Layout.standsAlone_of_isSpelled inside h
      simp only [Slot.words, mem_cons, mem_append, not_mem_nil, or_false]
      rintro w (rfl | hw | rfl)
      · exact Token.Word.standsAlone_ofKind rfl
      · exact hInside w hw
      · exact Token.Word.standsAlone_ofKind rfl

theorem Layout.standsAlone_of_isSpelled :
    (layout : Layout) → layout.isSpelled = true → ∀ w ∈ layout.words, w.standsAlone = true
  | [], _ => by simp [Layout.words]
  | slot :: rest, h => by
      simp only [Layout.isSpelled, Bool.and_eq_true] at h
      simp only [Layout.words, mem_append]
      rintro w (hw | hw)
      · exact Slot.standsAlone_of_isSpelled slot h.1 w hw
      · exact Layout.standsAlone_of_isSpelled rest h.2 w hw

end

namespace Layout

@[simp]
theorem isSpelled_append (layout layout' : Layout) :
    (layout ++ layout').isSpelled = (layout.isSpelled && layout'.isSpelled) := by
  induction layout with
  | nil => simp
  | cons slot layout ih => simp [ih, Bool.and_assoc]

theorem isSpelled_joined {separator : Slot} (h : separator.isSpelled = true) (layouts : List Layout) :
    (joined separator layouts).isSpelled = layouts.all isSpelled := by
  have hFlat : ∀ layouts : List Layout,
      isSpelled (layouts.flatMap fun layout => separator :: layout) = layouts.all isSpelled := by
    intro layouts
    induction layouts with
    | nil => rfl
    | cons first rest ih => simp [h, ih]
  cases layouts with
  | nil => rfl
  | cons first rest => simp [joined, hFlat]

@[simp]
theorem isSpelled_commas (layouts : List Layout) :
    (commas layouts).isSpelled = layouts.all isSpelled :=
  isSpelled_joined rfl layouts

@[simp]
theorem isSpelled_entries (layouts : List Layout) :
    (entries layouts).isSpelled = layouts.all isSpelled := by
  cases layouts with
  | nil => rfl
  | cons first rest =>
    rw [entries, isSpelled_append, isSpelled_joined rfl]
    simp

@[simp]
theorem isSpelled_arguments (args : List Expr) (inside : Layout) :
    (arguments args inside).isSpelled = inside.isSpelled := by
  unfold arguments
  split
  next => simp
  next => simp

@[simp]
theorem isSpelled_names (names : List String) {behind : Layout} (h : behind.isSpelled = true) :
    (Layout.names names behind).isSpelled = names.all Token.isName := by
  simp [Layout.names, h, Function.comp_def]

@[simp]
theorem isSpelled_params (names : List String) (isVararg : Bool) :
    (Layout.params names isVararg).isSpelled = names.all Token.isName := by
  cases isVararg <;> simp [Layout.params, Function.comp_def]

@[simp]
theorem isSpelled_initializers (layouts : List Layout) :
    (initializers layouts).isSpelled = layouts.all isSpelled := by
  unfold initializers
  split
  next h => simp [List.isEmpty_iff.mp h]
  next => simp

end Layout

@[simp]
theorem FunctionName.isSpelled_layout (name : FunctionName) : name.layout.isSpelled =
    (Token.isName name.root && name.members.all Token.isName &&
      name.method.all Token.isName) := by
  have hFlat : ∀ members : List String,
      Layout.isSpelled (members.flatMap fun member => [.token .dot, .name member]) =
        members.all Token.isName := by
    intro members
    induction members with
    | nil => rfl
    | cons member members ih => simp [ih]
  cases hMethod : name.method <;> simp [FunctionName.layout, hFlat, hMethod, Bool.and_assoc]

@[simp]
theorem Stmt.isSpelled_ending (s : Stmt) : s.ending.isSpelled = true := by
  unfold Stmt.ending
  split <;> rfl

@[simp]
theorem BinaryOp.isFixed_token (op : BinaryOp) : op.token.isFixed = true := by cases op <;> rfl

@[simp]
theorem UnaryOp.isFixed_token (op : UnaryOp) : op.token.isFixed = true := by cases op <;> rfl

section Spelling

attribute [local simp] Expr.layout exprLayouts Field.layout fieldLayouts FunctionBody.layout
  Block.layout stmtsLayout Stmt.layout Clause.layout clauseLayouts otherwiseLayout stepLayout
  Expr.parts exprParts Field.parts fieldParts FunctionBody.parts Block.parts stmtParts Stmt.parts
  Clause.parts clauseParts otherwiseParts stepParts

mutual

/-- The words of an expression are tokens exactly if its parts spell theirs well. -/
theorem Expr.isSpelled_layout : (e : Expr) → e.layout.isSpelled = e.parts.all Node.spellsWell
  | .nil _ | .boolean _ true | .boolean _ false | .string _ _ | .vararg _ => rfl
  | .number _ _ | .name _ _ => by simp
  | .function _ body => by simp [FunctionBody.isSpelled_layout body]
  | .table _ fields => by simp [isSpelled_fieldLayouts fields]
  | .member _ object _ => by simp [Expr.isSpelled_layout object]
  | .index _ object key => by simp [Expr.isSpelled_layout object, Expr.isSpelled_layout key]
  | .call _ callee args => by simp [Expr.isSpelled_layout callee, isSpelled_exprLayouts args]
  | .methodCall _ object _ args => by
      simp [Expr.isSpelled_layout object, isSpelled_exprLayouts args, Bool.and_comm]
  | .binary _ _ left right => by
      simp [-Token.Kind.isFixed, Expr.isSpelled_layout left, Expr.isSpelled_layout right]
  | .unary _ _ operand => by simp [-Token.Kind.isFixed, Expr.isSpelled_layout operand]
  | .paren _ inner => by simp [Expr.isSpelled_layout inner]

theorem isSpelled_exprLayouts : (es : List Expr) →
    (exprLayouts es).all Layout.isSpelled = (exprParts es).all Node.spellsWell
  | [] => rfl
  | e :: rest => by simp [Expr.isSpelled_layout e, isSpelled_exprLayouts rest]

theorem Field.isSpelled_layout : (f : Field) → f.layout.isSpelled = f.parts.all Node.spellsWell
  | .named _ value => by simp [Expr.isSpelled_layout value, Bool.and_comm]
  | .keyed key value => by simp [Expr.isSpelled_layout key, Expr.isSpelled_layout value]
  | .positional value => by simp [Expr.isSpelled_layout value]

theorem isSpelled_fieldLayouts : (fields : List Field) →
    (fieldLayouts fields).all Layout.isSpelled = (fieldParts fields).all Node.spellsWell
  | [] => rfl
  | f :: rest => by simp [Field.isSpelled_layout f, isSpelled_fieldLayouts rest]

theorem FunctionBody.isSpelled_layout : (body : FunctionBody) →
    body.layout.isSpelled = body.parts.all Node.spellsWell
  | .mk _ _ _ body _ => by simp [Block.isSpelled_layout body, FunctionBody.params]

theorem Block.isSpelled_layout : (body : Block) →
    body.layout.isSpelled = body.parts.all Node.spellsWell
  | .mk statements _ => by simp [isSpelled_stmtsLayout statements]

theorem isSpelled_stmtsLayout : (statements : List Stmt) →
    (stmtsLayout statements).isSpelled = (stmtParts statements).all Node.spellsWell
  | [] => rfl
  | s :: rest => by simp [Stmt.isSpelled_layout s, isSpelled_stmtsLayout rest]

theorem Stmt.isSpelled_layout : (s : Stmt) → s.layout.isSpelled = s.parts.all Node.spellsWell
  | .localVars _ _ values => by simp [isSpelled_exprLayouts values, Bool.and_comm]
  | .assign _ targets values => by
      simp [isSpelled_exprLayouts targets, isSpelled_exprLayouts values]
  | .call _ e => by simp [Expr.isSpelled_layout e]
  | .doBlock _ body => by simp [Block.isSpelled_layout body]
  | .whileLoop _ condition body => by
      simp [Expr.isSpelled_layout condition, Block.isSpelled_layout body]
  | .repeatLoop _ body condition => by
      simp [Expr.isSpelled_layout condition, Block.isSpelled_layout body]
  | .ifElse _ clauses otherwise => by
      have hJoined := Layout.isSpelled_joined (rfl : (Slot.token .kwElseif).isSpelled = true)
      simp [hJoined, isSpelled_clauseLayouts clauses, isSpelled_otherwiseLayout otherwise]
  | .numericFor _ _ start limit step body => by
      simp [Expr.isSpelled_layout start, Expr.isSpelled_layout limit, isSpelled_stepLayout step,
        Block.isSpelled_layout body, Bool.and_assoc, Bool.and_comm, Bool.and_left_comm]
  | .genericFor _ names iterators body => by
      have hNames := Layout.isSpelled_names names (rfl : Layout.isSpelled [] = true)
      simp [hNames, isSpelled_exprLayouts iterators, Block.isSpelled_layout body, Bool.and_comm,
        Bool.and_left_comm]
  | .function _ _ body => by simp [FunctionBody.isSpelled_layout body, Bool.and_comm]
  | .localFunction _ _ body => by simp [FunctionBody.isSpelled_layout body, Bool.and_comm]
  | .returnValues _ values => by simp [isSpelled_exprLayouts values]
  | .breakLoop _ => rfl
  | .goto _ _ | .label _ _ => by simp

theorem isSpelled_clauseLayouts : (clauses : List Clause) →
    (clauseLayouts clauses).all Layout.isSpelled = (clauseParts clauses).all Node.spellsWell
  | [] => rfl
  | .mk condition body :: rest => by
      simp [Expr.isSpelled_layout condition, Block.isSpelled_layout body,
        isSpelled_clauseLayouts rest, Bool.and_assoc]

theorem isSpelled_otherwiseLayout : (otherwise : Option Block) →
    (otherwiseLayout otherwise).isSpelled = (otherwiseParts otherwise).all Node.spellsWell
  | none => rfl
  | some body => by simp [Block.isSpelled_layout body]

theorem isSpelled_stepLayout : (step : Option Expr) →
    (stepLayout step).isSpelled = (stepParts step).all Node.spellsWell
  | none => rfl
  | some e => by simp [Expr.isSpelled_layout e]

end

end Spelling

/-- The words of a well-formed chunk are found again in its text. -/
theorem Chunk.words_stream_print {chunk : Chunk} (h : ∀ n ∈ chunk.parts, n.isWellFormed = true) :
    (Token.stream chunk.print).map Token.word = chunk.layout.words := by
  refine Token.words_stream_print (Layout.standsAlone_of_isSpelled _ ?_)
  refine (Block.isSpelled_layout chunk.block).trans (all_eq_true.2 fun n hn => ?_)
  have hFormed := h n hn
  simp only [Node.isWellFormed, Bool.and_eq_true] at hFormed
  exact hFormed.1.1.1.2

end LuaShape
