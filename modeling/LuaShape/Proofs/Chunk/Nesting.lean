import LuaShape.Proofs.Chunk.Slices

/-!
# Places of parts nest

Whatever stands right inside a part of a chunk lies inside the place of that part.  A block without
statements reaches from the token before it through the token behind it, so what makes this true is
that in every production a block stands between two tokens (`Production.enclosesBlocks`).  The one
block for which this fails is that of a whole chunk without tokens.
-/

namespace LuaShape

open List

namespace Span

/-- A range whose bytes are bytes of a text of some size. -/
def IsRange (size : Nat) (s : Span) : Prop := s.start ≤ s.stop ∧ s.stop ≤ size

theorem IsRange.merge {size : Nat} {a b : Span} (ha : a.IsRange size) (hb : b.IsRange size) :
    (a.merge b).IsRange size := by
  simp only [IsRange, Span.merge] at *
  omega

theorem Within.merge {a b outer : Span} (ha : a.Within outer) (hb : b.Within outer) :
    (a.merge b).Within outer :=
  ⟨Nat.le_min.2 ⟨ha.1, hb.1⟩, Nat.max_le.2 ⟨ha.2, hb.2⟩⟩

theorem Within.trans {a b outer : Span} (ha : a.Within b) (hb : b.Within outer) : a.Within outer :=
  ⟨Nat.le_trans hb.1 ha.1, Nat.le_trans ha.2 hb.2⟩

theorem Within.refl (a : Span) : a.Within a := ⟨Nat.le_refl _, Nat.le_refl _⟩

/-- Ranges of a text that all lie in `outer`. -/
def Covers (size : Nat) (outer : Span) (spans : List Span) : Prop :=
  ∀ s ∈ spans, s.IsRange size ∧ s.Within outer

section Covers

variable {size : Nat} {outer s : Span} {spans spans' : List Span}

@[simp]
theorem covers_nil : outer.Covers size [] := by
  simp [Covers]

@[simp]
theorem covers_cons : outer.Covers size (s :: spans) ↔
    (s.IsRange size ∧ s.Within outer) ∧ outer.Covers size spans :=
  forall_mem_cons

@[simp]
theorem covers_append : outer.Covers size (spans ++ spans') ↔
    outer.Covers size spans ∧ outer.Covers size spans' :=
  forall_mem_append

end Covers

/-- What tiles a range ends where the range does. -/
theorem Tile.stop_le {first last : Nat} {spans : List Span} (h : Tile last first spans) :
    first ≤ last ∧ ∀ s ∈ spans, s.stop ≤ last := by
  induction spans generalizing first with
  | nil => simp [show first = last from h]
  | cons s spans ih =>
    obtain ⟨rfl, hLt, hRest⟩ := h
    obtain ⟨hLe, hStops⟩ := ih hRest
    exact ⟨by omega, forall_mem_cons.2 ⟨hLe, hStops⟩⟩

end Span

theorem Token.isRange_of_mem_stream {source : String} {t : Token} (h : t ∈ stream source) :
    t.span.IsRange source.utf8ByteSize := by
  refine ⟨t.span_start_le_stop, ?_⟩
  have hTile := (cut_pieces source).tile
  rw [Nat.zero_add, String.ofList_toList] at hTile
  have hMem : t.span ∈ (stream source).map Token.span := mem_map_of_mem h
  rw [map_span_stream] at hMem
  exact hTile.stop_le.2 _ ((filter_sublist.map _).subset hMem)

/-! ## What stands right inside a part -/

/-- The places right inside an entry of a table, which has no place of its own. -/
def Field.spans : Field → List Span
  | .named _ value | .positional value => [value.span]
  | .keyed key value => [key.span, value.span]

/-- The places right inside an expression. -/
def Expr.spans : Expr → List Span
  | .nil _ | .boolean _ _ | .number _ _ | .string _ _ | .vararg _ | .name _ _ => []
  | .function _ body => [body.span]
  | .table _ fields => fields.flatMap Field.spans
  | .member _ object _ => [object.span]
  | .index _ object key => [object.span, key.span]
  | .call _ callee args => callee.span :: args.map Expr.span
  | .methodCall _ object _ args => object.span :: args.map Expr.span
  | .binary _ _ left right => [left.span, right.span]
  | .unary _ _ operand => [operand.span]
  | .paren _ inner => [inner.span]

/-- The places right inside a guarded block, which has no place of its own. -/
def Clause.spans : Clause → List Span
  | .mk condition body => [condition.span, body.span]

/-- The places right inside a statement, the name of a function included. -/
def Stmt.spans : Stmt → List Span
  | .localVars _ _ values | .returnValues _ values => values.map Expr.span
  | .assign _ targets values => targets.map Expr.span ++ values.map Expr.span
  | .call _ e => [e.span]
  | .doBlock _ body => [body.span]
  | .whileLoop _ condition body | .repeatLoop _ body condition => [condition.span, body.span]
  | .ifElse _ clauses otherwise =>
    clauses.flatMap Clause.spans ++ otherwise.toList.map Block.span
  | .numericFor _ _ start limit step body =>
    start.span :: limit.span :: body.span :: step.toList.map Expr.span
  | .genericFor _ _ iterators body => body.span :: iterators.map Expr.span
  | .function _ name body => [name.span, body.span]
  | .localFunction _ _ body => [body.span]
  | .breakLoop _ | .goto _ _ | .label _ _ => []

namespace Node

/-- The place of a part that has one. -/
def span? : Node → Option Span
  | .expr e => some e.span
  | .field _ => none
  | .function body => some body.span
  | .block body => some body.span
  | .statement s => some s.span

/-- The places right inside a part. -/
def spans : Node → List Span
  | .expr e => e.spans
  | .field f => f.spans
  | .function body => [body.body.span]
  | .block body => body.statements.map Stmt.span
  | .statement s => s.spans

/-- The place of a part is a range of a text and covers what stands right inside. -/
def Encloses (size : Nat) (n : Node) : Prop :=
  ∀ outer ∈ n.span?, outer.IsRange size ∧ outer.Covers size n.spans

/-- All parts enclose what stands right inside them. -/
def AllEnclose (size : Nat) (nodes : List Node) : Prop := ∀ n ∈ nodes, n.Encloses size

section AllEnclose

variable {size : Nat} {nodes nodes' : List Node}

@[simp]
theorem allEnclose_nil : AllEnclose size [] := by
  simp [AllEnclose]

@[simp]
theorem allEnclose_append :
    AllEnclose size (nodes ++ nodes') ↔ AllEnclose size nodes ∧ AllEnclose size nodes' :=
  forall_mem_append

@[simp]
theorem allEnclose_cons {n : Node} : AllEnclose size (n :: nodes) ↔
    (∀ outer ∈ n.span?, outer.IsRange size ∧ outer.Covers size n.spans) ∧ AllEnclose size nodes :=
  forall_mem_cons

end AllEnclose

end Node

namespace Phrase

/-- The places of what a phrase is. -/
def spans : Phrase → List Span
  | .expr _ e | .spine _ e | .simple e | .suffixed e | .chain e => [e.span]
  | .args es | .exprs es | .results es | .initializers es | .targets es => es.map Expr.span
  | .field f => f.spans
  | .fields fs => fs.flatMap Field.spans
  | .block body => [body.span]
  | .statements body => body.map Stmt.span
  | .statement s => [s.span]
  | .elseParts clauses otherwise =>
    clauses.flatMap Clause.spans ++ otherwise.toList.map Block.span
  | .step e => e.toList.map Expr.span
  | .functionName name => [name.span]
  | _ => []

end Phrase

/-- The places of what a symbol is. -/
def Symbol.spans : Symbol → List Span
  | .phrase p => p.spans
  | _ => []

namespace Production

variable {start last : Span} {p : Phrase} {inside : List Symbol} {size : Nat}

/-- A phrase without tokens has nothing with a place, unless it is a block. -/
theorem spans_eq_nil (h : Production start last p inside)
    (hInside : inside.any Symbol.isFilled = false) (hp : ∀ body, p ≠ .block body) :
    p.spans = [] := by
  cases h <;> first | exact absurd rfl (hp _) | (cases hInside; done) | rfl

/-- A block reaches from its first token through its last one. -/
theorem span_block {body : Block} (h : Production start last (.block body) inside) :
    body.span = start.merge last := by
  cases h
  rfl

/-- If everything inside a phrase lies between its first and its last token, so does the phrase. -/
theorem covers_spans (h : Production start last p inside) (hStart : start.IsRange size)
    (hLast : last.IsRange size)
    (hPlaces : (start.merge last).Covers size (inside.flatMap Symbol.spans)) :
    (start.merge last).Covers size p.spans := by
  have hOwn : (start.merge last).Covers size [start.merge last] :=
    Span.covers_cons.2 ⟨⟨hStart.merge hLast, .refl _⟩, Span.covers_nil⟩
  have hFirst : (start.merge last).Covers size [start] :=
    Span.covers_cons.2 ⟨⟨hStart, Span.within_merge_left start last⟩, Span.covers_nil⟩
  cases h
  case unary e =>
    obtain ⟨⟨hRange, hWithin⟩, -⟩ := Span.covers_cons.1 hPlaces
    exact Span.covers_cons.2 ⟨⟨hStart.merge hRange,
      (Span.within_merge_left start last).merge hWithin⟩, Span.covers_nil⟩
  case binary left right _ =>
    obtain ⟨⟨hLeft, hWithin⟩, hRest⟩ := Span.covers_cons.1 hPlaces
    obtain ⟨⟨hRight, hWithin'⟩, -⟩ := Span.covers_cons.1 hRest
    exact Span.covers_cons.2 ⟨⟨hLeft.merge hRight, hWithin.merge hWithin'⟩, Span.covers_nil⟩
  all_goals first
    | exact hOwn
    | exact hFirst
    | exact Span.covers_nil
    | simpa [Phrase.spans, Symbol.spans, Field.spans, Clause.spans] using hPlaces

/-- The parts of a phrase enclose what is inside them if those inside it do. -/
theorem encloses (h : Production start last p inside) (hStart : start.IsRange size)
    (hLast : last.IsRange size)
    (hPlaces : (start.merge last).Covers size (inside.flatMap Symbol.spans))
    (hNodes : Node.AllEnclose size (inside.flatMap Symbol.nodes)) :
    Node.AllEnclose size p.nodes := by
  intro n hn
  obtain hIn | hTop := h.mem_nodes hn
  · exact hNodes n hIn
  -- the places right inside the part are those of the phrases inside
  have hOwn {n : Node} (hSpan : n.span? = some (start.merge last))
      (hSpans : n.spans ⊆ inside.flatMap Symbol.spans) : n.Encloses size := by
    intro outer hOuter
    obtain rfl := Option.some.inj (hSpan.symm.trans hOuter)
    exact ⟨hStart.merge hLast, fun s hs => hPlaces s (hSpans hs)⟩
  have hWhole := And.intro (hStart.merge hLast) (Span.Within.refl (start.merge last))
  cases h
  case ofSuffixed | ofSimple | someArgs | semicolon | consStatement =>
    exact hNodes n (by simpa [Symbol.nodes, Phrase.nodes, stmtParts] using hn)
  case named | keyed | positional =>
    obtain rfl := mem_singleton.1 hTop
    exact fun _ h => by cases h
  case name | bareString =>
    obtain rfl := mem_singleton.1 hTop
    rintro _ ⟨⟩
    exact ⟨hStart, Span.covers_nil⟩
  case unary e =>
    obtain rfl := mem_singleton.1 hTop
    obtain ⟨⟨hRange, -⟩, -⟩ := Span.covers_cons.1 hPlaces
    rintro _ ⟨⟩
    exact ⟨hStart.merge hRange,
      Span.covers_cons.2 ⟨⟨hRange, Span.within_merge_right _ _⟩, Span.covers_nil⟩⟩
  case binary left right _ =>
    obtain rfl := mem_singleton.1 hTop
    obtain ⟨⟨hLeft, -⟩, hRest⟩ := Span.covers_cons.1 hPlaces
    obtain ⟨⟨hRight, -⟩, -⟩ := Span.covers_cons.1 hRest
    rintro _ ⟨⟩
    exact ⟨hLeft.merge hRight, Span.covers_cons.2 ⟨⟨hLeft, Span.within_merge_left _ _⟩,
      Span.covers_cons.2 ⟨⟨hRight, Span.within_merge_right _ _⟩, Span.covers_nil⟩⟩⟩
  case function hSpan | localFunction hSpan =>
    obtain rfl | rfl : n = _ ∨ n = _ := by simpa [Phrase.tops, Expr.tops, Stmt.tops] using hTop
    · exact hOwn (congrArg some hSpan)
        (by simp [Node.spans, FunctionBody.symbols, Symbol.spans, Phrase.spans])
    · rintro _ ⟨⟩
      exact ⟨hWhole.1, Span.covers_cons.2 ⟨hSpan ▸ hWhole, Span.covers_nil⟩⟩
  case functionStatement name _ hSpan =>
    obtain rfl | rfl : n = _ ∨ n = _ := by simpa [Phrase.tops, Stmt.tops] using hTop
    · exact hOwn (congrArg some hSpan)
        (by simp [Node.spans, FunctionBody.symbols, Symbol.spans, Phrase.spans])
    · rintro _ ⟨⟩
      exact ⟨hWhole.1, Span.covers_cons.2 ⟨(Span.covers_cons.1 hPlaces).1,
        Span.covers_cons.2 ⟨hSpan ▸ hWhole, Span.covers_nil⟩⟩⟩
  case numericFor =>
    obtain rfl := mem_singleton.1 hTop
    refine hOwn rfl fun s hs => ?_
    simp only [Node.spans, Stmt.spans, mem_cons] at hs
    simp only [Symbol.spans, Phrase.spans, flatMap_cons, mem_append, mem_singleton]
    tauto
  all_goals first
    | cases hTop
      done
    | obtain rfl := mem_singleton.1 hTop
      exact hOwn rfl (by simp [Node.spans, Expr.spans, Stmt.spans, Symbol.spans, Phrase.spans,
        Clause.spans, Block.statements])

end Production

/-! ## What stands between the tokens of a phrase -/

namespace Cursor

variable {c₀ c c' : Cursor} {all : List Token} {size : Nat}

/-- The next token lies between the first and the last. -/
theorem Leads.span_within (h₀ : c₀.Leads c) (h : c.Leads c') (hLt : c'.rest.length < c.rest.length)
    (hSuffix : c₀.rest <:+ all) (hOrdered : Token.Ordered all) :
    c.span.Within (c₀.span.merge c'.previous) := by
  have hNonempty : c.rest ≠ [] := ne_nil_of_length_pos (by omega)
  have hStart := h₀.start_le hNonempty hSuffix hOrdered
  have hStop := (h.segment_le hLt (h₀.suffix.trans hSuffix) hOrdered).2
  exact ⟨Nat.le_trans (Nat.min_le_left _ _) hStart, Nat.le_trans hStop (Nat.le_max_right _ _)⟩

/-- The token read last lies between the first and the last. -/
theorem Leads.previous_within (h₀ : c₀.Leads c) (hLt : c.rest.length < c₀.rest.length)
    (h : c.Leads c') (hSuffix : c₀.rest <:+ all) (hOrdered : Token.Ordered all) :
    c.previous.Within (c₀.span.merge c'.previous) := by
  have hStart := (h₀.segment_le hLt hSuffix hOrdered).1
  have hStop := h₀.stop_le hLt h hSuffix hOrdered
  exact ⟨Nat.le_trans (Nat.min_le_left _ _) hStart, Nat.le_trans hStop (Nat.le_max_right _ _)⟩

/-- All places that can be looked up are ranges of a text. -/
structure InText (size : Nat) (c : Cursor) : Prop where
  rest : ∀ t ∈ c.rest, t.span.IsRange size
  finish : c.finish.IsRange size
  previous : c.previous.IsRange size

theorem InText.span (h : c.InText size) : c.span.IsRange size := by
  rw [Cursor.span]
  split
  next t _ hRest => exact h.rest t (by simp [hRest])
  next => exact h.finish

theorem InText.leads (h : c.InText size) (hLeads : c.Leads c') : c'.InText size := by
  obtain ⟨ts, hRest, hPrevious⟩ := hLeads.tokens
  refine ⟨fun t ht => h.rest t (hLeads.suffix.subset ht), hLeads.finish ▸ h.finish, ?_⟩
  rw [hPrevious]
  cases hLast : ts.getLast? with
  | none => exact h.previous
  | some t => exact h.rest t (by simp [hRest, mem_of_getLast? hLast])

/-- **What is derived lies between the first token and the last one**, and all its parts enclose
what is inside them; `b` says that a token has been read since `c₀`. -/
theorem Derives.encloses {symbols : List Symbol} (hOrdered : Token.Ordered all)
    (h : c.Derives symbols c') (hText : c.InText size) (h₀ : c₀.Leads c) (hSuffix : c₀.rest <:+ all)
    {b : Bool} (hb : b = true → c.rest.length < c₀.rest.length)
    (hBlocks : Symbol.enclosesBlocks b symbols = true) :
    (c₀.span.merge c'.previous).Covers size (symbols.flatMap Symbol.spans) ∧
      Node.AllEnclose size (symbols.flatMap Symbol.nodes) := by
  induction h generalizing c₀ b with
  | nil => simp
  | @slot c _ _ _ hSlot _ ih =>
    have hLength := hSlot.length
    have hLe := h₀.suffix.length_le
    exact ih (hText.leads (.advance c)) (h₀.trans (.advance c)) hSuffix (b := true)
      (fun _ => by omega) (by simpa [Symbol.enclosesBlocks, Symbol.isFilled] using hBlocks)
  | mint _ ih =>
    exact ih ⟨hText.rest, hText.finish, hText.previous⟩ ⟨h₀.tokens, h₀.finish⟩ hSuffix hb
      (by simpa [Symbol.enclosesBlocks, Symbol.isFilled] using hBlocks)
  | absent _ _ ih =>
    exact ih hText h₀ hSuffix hb (by simpa [Symbol.enclosesBlocks, Symbol.isFilled] using hBlocks)
  | @phrase c c₁ c' p inside symbols hProduction hInside h ihInside ih =>
    have hLeads := hInside.leads
    obtain ⟨hPlaces, hInner⟩ := ihInside hText (.refl c) (h₀.suffix.trans hSuffix) (b := false)
      (by simp) hProduction.enclosesBlocks
    have hLast := (hText.leads hLeads).previous
    have hOwn := hProduction.covers_spans hText.span hLast hPlaces
    have hNodes := hProduction.encloses hText.span hLast hPlaces hInner
    -- the place of the phrase, if tokens stand on both sides of it or in it
    have hBetween : c'.rest.length < c.rest.length → c₁.rest.length < c₀.rest.length →
        (c₀.span.merge c'.previous).Covers size p.spans := by
      intro hBehind hBefore s hs
      have hFirst := h₀.span_within (hLeads.trans h.leads) hBehind hSuffix hOrdered
      have hLast := (h₀.trans hLeads).previous_within hBefore h.leads hSuffix hOrdered
      exact ⟨(hOwn s hs).1, (hOwn s hs).2.trans (hFirst.merge hLast)⟩
    have hLe₀ := h₀.suffix.length_le
    have hLe₁ := hLeads.suffix.length_le
    have hLe := h.leads.suffix.length_le
    have hTail : ∀ {b' : Bool}, (b' = true → c₁.rest.length < c₀.rest.length) →
        Symbol.enclosesBlocks b' symbols = true → _ :=
      fun hb' => ih (hText.leads hLeads) (h₀.trans hLeads) hSuffix hb'
    by_cases hBlock : ∃ body, p = .block body
    · obtain ⟨body, rfl⟩ := hBlock
      simp only [Symbol.enclosesBlocks, Bool.and_eq_true] at hBlocks
      obtain ⟨⟨rfl, hNext⟩, hBlocks⟩ := hBlocks
      have hBefore := hb rfl
      have hBehind := h.length.2 hNext
      obtain ⟨hPlaces, hRest⟩ := hTail (fun _ => by omega) hBlocks
      exact ⟨Span.covers_append.2 ⟨hBetween (by omega) (by omega), hPlaces⟩,
        Node.allEnclose_append.2 ⟨hNodes, hRest⟩⟩
    · have hp : ∀ body, p ≠ .block body := fun body hp => hBlock ⟨body, hp⟩
      rw [Symbol.enclosesBlocks_phrase hp] at hBlocks
      obtain ⟨hPlaces, hRest⟩ := hTail (fun hOr => by
          rcases Bool.or_eq_true_iff.1 hOr with hOr | hOr
          · have hBefore := hb hOr
            omega
          · have hBefore := hInside.length.2 (hProduction.any_isFilled hOr)
            omega) hBlocks
      refine ⟨Span.covers_append.2 ⟨?_, hPlaces⟩, Node.allEnclose_append.2 ⟨hNodes, hRest⟩⟩
      cases hAny : inside.any Symbol.isFilled with
      | true =>
        have hLt := hInside.length.2 hAny
        exact hBetween (by omega) (by omega)
      | false => simp [Symbol.spans, hProduction.spans_eq_nil hAny hp]

end Cursor

namespace Chunk

variable {source : String} {chunk : Chunk}

/-- **Places nest**: in an accepted text, every part of the chunk has a place that is a range of
the text and covers everything right inside the part.  The chunk has a place that is a range as
well, and it covers the outermost block unless the text has no token but is not empty. -/
theorem places_nest (h : parse source = .ok chunk) :
    (∀ n ∈ chunk.parts, n.Encloses source.utf8ByteSize) ∧
    chunk.span.IsRange source.utf8ByteSize ∧
    (chunk.block.span.Within chunk.span ↔ Token.stream source ≠ [] ∨ source = "") := by
  obtain ⟨c', hDerives, hEnd, -, hSpan⟩ := derives_of_parse h
  have hText : (Cursor.ofSource source).InText source.utf8ByteSize :=
    ⟨fun t ht => Token.isRange_of_mem_stream ht, ⟨Nat.le_refl _, Nat.le_refl _⟩,
      ⟨Nat.le_refl _, Nat.zero_le _⟩⟩
  have hOrdered := Token.ordered_stream source
  have hLeads := hDerives.leads
  have hFinish : c'.span = ⟨source.utf8ByteSize, source.utf8ByteSize⟩ := by
    simp [Cursor.span, hEnd, hLeads.finish, Cursor.ofSource]
  have hText' := hText.leads hLeads
  have hBlock : chunk.block.span = (Cursor.ofSource source).span.merge c'.previous ∧
      Node.AllEnclose source.utf8ByteSize chunk.parts := by
    cases hDerives with
    | phrase hProduction hInside hNil =>
        cases hNil
        obtain ⟨hPlaces, hNodes⟩ := hInside.encloses hOrdered hText (.refl _) (suffix_refl _)
          (b := false) (by simp) hProduction.enclosesBlocks
        exact ⟨hProduction.span_block,
          hProduction.encloses hText.span hText'.previous hPlaces hNodes⟩
  refine ⟨hBlock.2, hSpan ▸ hText.span.merge hText'.span, ?_⟩
  rw [hSpan, hBlock.1, hFinish]
  by_cases hStream : Token.stream source = []
  · obtain ⟨ts, hRest, hPrevious⟩ := hLeads.tokens
    obtain ⟨rfl, -⟩ : ts = [] ∧ c'.rest = [] := by
      simpa [Cursor.ofSource, hStream] using hRest
    have hSize : source.utf8ByteSize = 0 ↔ source = "" := String.utf8ByteSize_eq_zero_iff
    rw [hPrevious, or_iff_right (not_not_intro hStream), ← hSize]
    simp [Cursor.span, Cursor.ofSource, hStream, Span.merge, Span.Within, Span.origin]
  · have hLt : c'.rest.length < (Cursor.ofSource source).rest.length := by
      simpa [hEnd, Cursor.ofSource, length_pos_iff] using hStream
    have hStart := (hLeads.segment_le hLt (suffix_refl _) hOrdered).1
    have hFirst := hText.span.2
    have hLast := hText'.previous.2
    simp only [Span.merge, Span.Within, hStream, ne_eq, not_false_eq_true, true_or, iff_true]
    omega

theorem places_nest_of_empty_body : ∃ chunk, parse "do end" = .ok chunk ∧
    (∀ n ∈ chunk.parts, n.Encloses 6) ∧ chunk.block.span.Within chunk.span := by
  have hOk : (parse "do end").isOk = true := by decide +kernel
  cases h : parse "do end" with
  | error e => simp [h, Except.isOk, Except.toBool] at hOk
  | ok chunk =>
      obtain ⟨hParts, -, hBlock⟩ := places_nest h
      exact ⟨chunk, rfl, hParts, hBlock.2 (.inl (by decide +kernel))⟩

/-- In a text with a blank only, the block reaches from the start of the text to its end and the
chunk is empty. -/
theorem block_outside_chunk :
    (parse " ").toOption.map (fun chunk => (chunk.block.span, chunk.span)) = some (⟨0, 1⟩, ⟨1, 1⟩) ∧
      ¬ Span.Within ⟨0, 1⟩ ⟨1, 1⟩ := by
  decide +kernel

end Chunk

end LuaShape
