import LuaShape.Chunk.Escape
import LuaShape.Proofs.Chunk.Parts
import LuaShape.Token.Stream

/-!
# The tokens of a tree

A tree determines its tokens but for a few choices: semicolons between statements, an
attribute behind a local name, a comma or a semicolon between the entries of a table and
perhaps one behind the last, parentheses around a single argument that is a string or a
table, and the way in which a string is written.  The *layout* of a tree is the sequence of
its tokens, in order, with a slot of its own for each place at which there is a choice.
`Layout.Fits` says which tokens fill a layout.
-/

namespace LuaShape

open List

/-! ## Layouts -/

/-- The value that a string token stands for. -/
def Token.stringValue? (t : Token) : Option String :=
  match t.kind with
  | .string => Escape.shortValue? t.text
  | .longString => some (Escape.longValue t.text)
  | _ => none

/-- A place in the token sequence of a tree. -/
inductive Slot where
  /-- A keyword or a symbol. -/
  | token (kind : Token.Kind)
  | name (text : String)
  /-- A number as written. -/
  | number (text : String)
  /-- A string, written in any way that gives the value. -/
  | string (value : String)
  /-- Semicolons before the first statement of a block. -/
  | leading
  /-- Semicolons behind a statement. -/
  | separators
  /-- At most one semicolon, behind a `return`. -/
  | lastSeparator
  /-- An attribute such as `<const>` behind a local name, or nothing. -/
  | localAttribute
  /-- A comma or a semicolon between two entries of a table. -/
  | fieldSeparator
  /-- A comma or a semicolon behind the last entry of a table, or nothing. -/
  | lastFieldSeparator
  /-- The only argument of a call, which is a string or a table: in parentheses or not. -/
  | argument (inside : List Slot)

/-- The tokens of a tree in order. -/
abbrev Layout := List Slot

mutual

/-- Some tokens fill a slot. -/
inductive Slot.Fits : Slot → List Token → Prop where
  | token (t : Token) : Slot.Fits (.token t.kind) [t]
  | name {t : Token} (h : t.kind = .ident) : Slot.Fits (.name t.text) [t]
  | number {t : Token} (h : t.kind = .number) : Slot.Fits (.number t.text) [t]
  | string {t : Token} {value : String} (h : t.stringValue? = some value) :
      Slot.Fits (.string value) [t]
  | leading {ts : List Token} (h : ∀ t ∈ ts, t.kind = .semicolon) : Slot.Fits .leading ts
  | separators {ts : List Token} (h : ∀ t ∈ ts, t.kind = .semicolon) : Slot.Fits .separators ts
  | lastSeparator {t : Token} (h : t.kind = .semicolon) : Slot.Fits .lastSeparator [t]
  | noLastSeparator : Slot.Fits .lastSeparator []
  | localAttribute {less name greater : Token} (hLess : less.kind = .less) (hName : name.kind = .ident)
      (hGreater : greater.kind = .greater) : Slot.Fits .localAttribute [less, name, greater]
  | noLocalAttribute : Slot.Fits .localAttribute []
  | fieldSeparator {t : Token} (h : t.kind = .comma ∨ t.kind = .semicolon) :
      Slot.Fits .fieldSeparator [t]
  | lastFieldSeparator {t : Token} (h : t.kind = .comma ∨ t.kind = .semicolon) :
      Slot.Fits .lastFieldSeparator [t]
  | noLastFieldSeparator : Slot.Fits .lastFieldSeparator []
  | bare {inside : Layout} {ts : List Token} (h : Layout.Fits inside ts) :
      Slot.Fits (.argument inside) ts
  | enclosed {inside : Layout} {left right : Token} {ts : List Token}
      (hLeft : left.kind = .leftParen) (h : Layout.Fits inside ts)
      (hRight : right.kind = .rightParen) : Slot.Fits (.argument inside) (left :: (ts ++ [right]))

/-- Some tokens fill the slots of a layout, one slot after the other. -/
inductive Layout.Fits : Layout → List Token → Prop where
  | nil : Layout.Fits [] []
  | cons {slot : Slot} {layout : Layout} {first rest : List Token} (h : Slot.Fits slot first)
      (hRest : Layout.Fits layout rest) : Layout.Fits (slot :: layout) (first ++ rest)

end

namespace Layout

theorem Fits.append {layout layout' : Layout} {ts ts' : List Token} (h : Fits layout ts)
    (h' : Fits layout' ts') : Fits (layout ++ layout') (ts ++ ts') := by
  induction layout generalizing ts with
  | nil =>
    cases h
    exact h'
  | cons slot layout ih =>
    cases h with
    | cons hSlot hRest =>
      rw [append_assoc]
      exact .cons hSlot (ih hRest)

variable {ts : List Token} {layout : Layout}

/-- A layout of one slot. -/
theorem Fits.single {slot : Slot} (h : slot.Fits ts) : Fits [slot] ts := by
  rw [← append_nil ts]
  exact .cons h .nil

theorem Fits.of_cons {slot : Slot} (h : Fits (slot :: layout) ts) :
    ∃ first rest, ts = first ++ rest ∧ slot.Fits first ∧ Fits layout rest := by
  cases h with
  | cons hSlot hRest => exact ⟨_, _, rfl, hSlot, hRest⟩

theorem Fits.of_append {layout layout' : Layout} (h : Fits (layout ++ layout') ts) :
    ∃ first rest, ts = first ++ rest ∧ Fits layout first ∧ Fits layout' rest := by
  induction layout generalizing ts with
  | nil => exact ⟨[], ts, rfl, .nil, h⟩
  | cons slot layout ih =>
    obtain ⟨first, rest, rfl, hSlot, hRest⟩ := h.of_cons
    obtain ⟨first', rest', rfl, hFirst, hRest⟩ := ih hRest
    exact ⟨first ++ first', rest', by rw [append_assoc], .cons hSlot hFirst, hRest⟩

/-- A keyword or a symbol is one token. -/
theorem Fits.of_token {kind : Token.Kind} (h : Fits (.token kind :: layout) ts) :
    ∃ t rest, ts = t :: rest ∧ t.kind = kind ∧ Fits layout rest := by
  obtain ⟨first, rest, rfl, hSlot, hRest⟩ := h.of_cons
  cases hSlot with
  | token t => exact ⟨t, rest, rfl, rfl, hRest⟩

theorem Fits.exists_token {kind : Token.Kind} (h : Fits [.token kind] ts) :
    ∃ t, ts = [t] ∧ t.kind = kind := by
  obtain ⟨t, rest, rfl, hKind, hNil⟩ := h.of_token
  cases hNil
  exact ⟨t, rfl, hKind⟩

/-- The end of a layout may be exchanged. -/
theorem Fits.append_mono {layout behind behind' : Layout} (h : Fits (layout ++ behind) ts)
    (hBehind : ∀ ts, Fits behind ts → Fits behind' ts) : Fits (layout ++ behind') ts := by
  obtain ⟨first, rest, rfl, hFirst, hRest⟩ := h.of_append
  exact hFirst.append (hBehind rest hRest)

/-- One more semicolon before the first statement. -/
theorem Fits.leading_of_semicolon (h : Fits (.token .semicolon :: .leading :: layout) ts) :
    Fits (.leading :: layout) ts := by
  obtain ⟨t, rest, rfl, hKind, hRest⟩ := h.of_token
  obtain ⟨first, rest, rfl, hLeading, hRest⟩ := hRest.of_cons
  cases hLeading with
  | leading hAll =>
    rw [← cons_append]
    exact .cons (.leading (by simpa [hKind] using hAll)) hRest

/-- Semicolons before a statement are behind the one before it. -/
theorem Fits.separators_of_leading (h : Fits (.leading :: layout) ts) :
    Fits (.separators :: layout) ts := by
  obtain ⟨first, rest, rfl, hLeading, hRest⟩ := h.of_cons
  cases hLeading with
  | leading hAll => exact .cons (.separators hAll) hRest

/-- Layouts with a separator between each two. -/
def joined (separator : Slot) : List Layout → Layout
  | [] => []
  | first :: rest => first ++ rest.flatMap fun layout => separator :: layout

@[simp]
theorem joined_singleton (separator : Slot) (layout : Layout) :
    joined separator [layout] = layout := by
  simp [joined]

theorem joined_cons {separator : Slot} {rest : List Layout} (h : rest ≠ []) (first : Layout) :
    joined separator (first :: rest) = first ++ separator :: joined separator rest := by
  obtain ⟨second, rest, rfl⟩ := exists_cons_of_ne_nil h
  simp [joined]

/-- Layouts with a comma between each two. -/
def commas (layouts : List Layout) : Layout := joined (.token .comma) layouts

theorem commas_eq_append (first : Layout) (rest : List Layout) :
    commas (first :: rest) = first ++ rest.flatMap fun layout => .token .comma :: layout := rfl

@[simp]
theorem commas_singleton (layout : Layout) : commas [layout] = layout := joined_singleton _ layout

theorem commas_cons {rest : List Layout} (h : rest ≠ []) (first : Layout) :
    commas (first :: rest) = first ++ .token .comma :: commas rest :=
  joined_cons h first

end Layout

/-! ## The layout of a tree -/

open Layout (commas)

/-- Names with commas between them, each with what may follow it. -/
def Layout.names (names : List String) (behind : Layout) : Layout :=
  commas (names.map fun name => .name name :: behind)

namespace FunctionName

/-- The tokens of the name in a function statement. -/
def layout (name : FunctionName) : Layout :=
  .name name.root :: (name.members.flatMap (fun member => [.token .dot, .name member]) ++
    name.method.elim [] fun method => [.token .colon, .name method])

end FunctionName

/-- Whether arguments need no parentheses. -/
def Expr.standAlone : List Expr → Bool
  | [.string _ _] | [.table _ _] => true
  | _ => false

namespace Layout

/-- The arguments of a call, given the tokens between the parentheses. -/
def arguments (args : List Expr) (inside : Layout) : Layout :=
  if Expr.standAlone args then [.argument inside]
  else .token .leftParen :: (inside ++ [.token .rightParen])

/-- The entries of a table constructor, without braces. -/
def entries : List Layout → Layout
  | [] => []
  | first :: rest => joined .fieldSeparator (first :: rest) ++ [.lastFieldSeparator]

/-- The parameters of a function, without parentheses. -/
def params (names : List String) (isVararg : Bool) : Layout :=
  commas (names.map (fun name => [.name name]) ++ if isVararg then [[.token .ellipsis]] else [])

theorem params_cons {names : List String} {isVararg : Bool} (h : names ≠ [] ∨ isVararg = true)
    (first : String) : params (first :: names) isVararg =
      .name first :: .token .comma :: params names isVararg := by
  have hRest : names.map (fun name => [Slot.name name]) ++
      (if isVararg then [[.token .ellipsis]] else []) ≠ [] := by
    rcases h with hNames | hVararg
    · simp [hNames]
    · simp [hVararg]
  rw [params, map_cons, cons_append, commas_cons hRest]
  rfl

/-- The values behind `=`, or nothing. -/
def initializers (values : List Layout) : Layout :=
  if values.isEmpty then [] else .token .assign :: commas values

end Layout

namespace Stmt

/-- What may stand behind a statement. -/
def ending (s : Stmt) : Slot := if s.isReturn then .lastSeparator else .separators

end Stmt

mutual

/-- The tokens of an expression. -/
def Expr.layout : Expr → Layout
  | .nil _ => [.token .kwNil]
  | .boolean _ value => [.token (if value then .kwTrue else .kwFalse)]
  | .number _ text => [.number text]
  | .string _ value => [.string value]
  | .vararg _ => [.token .ellipsis]
  | .function _ body => .token .kwFunction :: body.layout
  | .table _ fields =>
    .token .leftBrace :: (Layout.entries (fieldLayouts fields) ++ [.token .rightBrace])
  | .name _ text => [.name text]
  | .member _ object text => object.layout ++ [.token .dot, .name text]
  | .index _ object key =>
    object.layout ++ .token .leftBracket :: (key.layout ++ [.token .rightBracket])
  | .call _ callee args => callee.layout ++ Layout.arguments args (commas (exprLayouts args))
  | .methodCall _ object method args =>
    object.layout ++ .token .colon :: .name method ::
      Layout.arguments args (commas (exprLayouts args))
  | .binary _ op left right => left.layout ++ .token op.token :: right.layout
  | .unary _ op operand => .token op.token :: operand.layout
  | .paren _ inner => .token .leftParen :: (inner.layout ++ [.token .rightParen])

/-- The tokens of each of several expressions. -/
def exprLayouts : List Expr → List Layout
  | [] => []
  | e :: rest => e.layout :: exprLayouts rest

/-- The tokens of an entry of a table. -/
def Field.layout : Field → Layout
  | .named name value => .name name :: .token .assign :: value.layout
  | .keyed key value =>
    .token .leftBracket :: (key.layout ++ .token .rightBracket :: .token .assign :: value.layout)
  | .positional value => value.layout

/-- The tokens of each of several entries of a table. -/
def fieldLayouts : List Field → List Layout
  | [] => []
  | f :: rest => f.layout :: fieldLayouts rest

/-- The tokens of a function behind its name. -/
def FunctionBody.layout : FunctionBody → Layout
  | .mk _ params isVararg body _ =>
    .token .leftParen :: (Layout.params params isVararg ++ .token .rightParen ::
      (body.layout ++ [.token .kwEnd]))

/-- The tokens of a block. -/
def Block.layout : Block → Layout
  | .mk statements _ => .leading :: stmtsLayout statements

/-- The tokens of statements with what stands behind each. -/
def stmtsLayout : List Stmt → Layout
  | [] => []
  | s :: rest => s.layout ++ s.ending :: stmtsLayout rest

/-- The tokens of a statement. -/
def Stmt.layout : Stmt → Layout
  | .localVars _ names values =>
    .token .kwLocal ::
      (Layout.names names [.localAttribute] ++ Layout.initializers (exprLayouts values))
  | .assign _ targets values =>
    commas (exprLayouts targets) ++ .token .assign :: commas (exprLayouts values)
  | .call _ e => e.layout
  | .doBlock _ body => .token .kwDo :: (body.layout ++ [.token .kwEnd])
  | .whileLoop _ condition body =>
    .token .kwWhile :: (condition.layout ++ .token .kwDo :: (body.layout ++ [.token .kwEnd]))
  | .repeatLoop _ body condition =>
    .token .kwRepeat :: (body.layout ++ .token .kwUntil :: condition.layout)
  | .ifElse _ clauses otherwise =>
    .token .kwIf :: (Layout.joined (.token .kwElseif) (clauseLayouts clauses) ++
      (otherwiseLayout otherwise ++ [.token .kwEnd]))
  | .numericFor _ var start limit step body =>
    .token .kwFor :: .name var :: .token .assign :: (start.layout ++ .token .comma ::
      (limit.layout ++ (stepLayout step ++ .token .kwDo :: (body.layout ++ [.token .kwEnd]))))
  | .genericFor _ names iterators body =>
    .token .kwFor :: (Layout.names names [] ++ .token .kwIn ::
      (commas (exprLayouts iterators) ++ .token .kwDo :: (body.layout ++ [.token .kwEnd])))
  | .function _ name body => .token .kwFunction :: (name.layout ++ body.layout)
  | .localFunction _ name body =>
    .token .kwLocal :: .token .kwFunction :: .name name :: body.layout
  | .returnValues _ values => .token .kwReturn :: commas (exprLayouts values)
  | .breakLoop _ => [.token .kwBreak]
  | .goto _ label => [.token .kwGoto, .name label]
  | .label _ name => [.token .doubleColon, .name name, .token .doubleColon]

/-- The tokens of a condition of an `if` statement and the block it guards. -/
def Clause.layout : Clause → Layout
  | .mk condition body => condition.layout ++ .token .kwThen :: body.layout

/-- The tokens of each of several guarded blocks. -/
def clauseLayouts : List Clause → List Layout
  | [] => []
  | clause :: rest => clause.layout :: clauseLayouts rest

/-- The tokens of an `else` block. -/
def otherwiseLayout : Option Block → Layout
  | none => []
  | some body => .token .kwElse :: body.layout

/-- The tokens of the step of a `for` loop. -/
def stepLayout : Option Expr → Layout
  | none => []
  | some e => .token .comma :: e.layout

end

/-- The tokens of a chunk. -/
def Chunk.layout (chunk : Chunk) : Layout := chunk.block.layout

theorem exprLayouts_eq_map (es : List Expr) : exprLayouts es = es.map Expr.layout := by
  induction es with
  | nil => rfl
  | cons e es ih => rw [exprLayouts, ih, map_cons]

end LuaShape
