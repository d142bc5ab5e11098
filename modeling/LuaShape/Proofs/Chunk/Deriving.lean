import LuaShape.Proofs.Chunk.Alike
import LuaShape.Proofs.Chunk.Grammar

/-!
# The parser follows the grammar and sees words alone

Where a parser succeeds, what it returns is derived from the tokens it has read; and from places
that look alike it comes to places that look alike, with results that look alike, or fails at both
for the same reason.  `Twins` is the judgement for this, and its rules follow the ways in which
parsers are put together.  The parsers of the grammar are taken in its order, over any parsers for
what is nested that follow the grammar themselves (`Inner.Derives`); one level then follows from
the level below it.

The judgement also says when bounds suffice.  A loop needs more rounds than tokens are left, and
`n` levels are enough for fewer than `n` tokens: what is derived takes up tokens
(`Cursor.Derives.length`), so each round and each level is entered with fewer of them.
-/

namespace LuaShape

open List

@[simp]
theorem ParseError.unexpected_ne_tooDeep (expected : Expectation) (found : Option Token.Kind)
    (span span' : Span) : unexpected expected found span ≠ .tooDeep span' := by
  cases found <;> simp [unexpected]

theorem ParseError.relabel_unexpected (v : View) (expected : Expectation) (found : Option Token.Kind)
    (span : Span) :
    (unexpected expected found span).relabel v = .unexpected expected found (v.place span) := by
  cases found <;> rfl

namespace Cursor

variable {c : Cursor} {kind : Token.Kind}

@[grind →]
theorem kind?_of_isAt (h : c.isAt kind = true) : c.kind? = some kind := of_decide_eq_true h

theorem exists_of_kind? (h : c.kind? = some kind) : ∃ t rest, c.rest = t :: rest ∧ t.kind = kind := by
  unfold kind? at h
  cases hRest : c.rest with
  | nil => simp [hRest] at h
  | cons t rest => exact ⟨t, rest, rfl, by simpa [hRest] using h⟩

theorem advance_of_rest {t : Token} {rest : List Token} (h : c.rest = t :: rest) :
    c.advance = { c with rest := rest, previous := t.span } := by
  simp [advance, h]

theorem kindAhead?_succ (c : Cursor) (n : Nat) : c.kindAhead? (n + 1) = c.advance.kindAhead? n := by
  cases hRest : c.rest with
  | nil => simp [kindAhead?, advance, hRest]
  | cons t rest => simp [kindAhead?, advance, hRest]

theorem kindAhead?_zero (c : Cursor) : c.kindAhead? 0 = c.kind? := by
  cases hRest : c.rest with
  | nil => simp [kindAhead?, kind?, hRest]
  | cons t rest => simp [kindAhead?, kind?, hRest]

/-- What tests of the next tokens come to. -/
theorem startWith_eq (c : Cursor) (test : Token.Kind → Bool) (tests : List (Token.Kind → Bool)) :
    Token.startWith (test :: tests) c.rest =
      (c.kind?.any test && Token.startWith tests c.advance.rest) := by
  cases hRest : c.rest with
  | nil => simp [Token.startWith, kind?, hRest]
  | cons t rest => simp [Token.startWith, kind?, advance, hRest]

theorem startWith_single (c : Cursor) (test : Token.Kind → Bool) :
    Token.startWith [test] c.rest = c.kind?.any test := by
  rw [startWith_eq, Token.startWith, Bool.and_true]

theorem any_kind? (c : Cursor) (kind : Token.Kind) :
    (c.kind?.any fun other => other = kind) = c.isAt kind := by
  rw [isAt]
  cases c.kind? <;> simp

theorem atBlockEnd_eq (c : Cursor) :
    c.atBlockEnd = !c.kind?.any fun kind => !kind.endsBlock := by
  unfold atBlockEnd
  cases c.kind? with
  | none => rfl
  | some kind => cases kind <;> rfl

theorem atResultsEnd_eq (c : Cursor) : (c.atBlockEnd || c.isAt .semicolon) =
    !c.kind?.any fun kind => !kind.endsResults := by
  rw [atBlockEnd_eq, isAt]
  cases c.kind? <;> simp [Token.Kind.endsResults]

theorem derives_token (h : c.kind? = some kind) : c.Derives [.token kind] c.advance := by
  obtain ⟨t, rest, hRest, rfl⟩ := exists_of_kind? h
  exact .slot ⟨t, rest, hRest, .token t⟩ (.nil _)

theorem HasSlot.rest_ne_nil {slot : Slot} (h : c.HasSlot slot) : c.rest ≠ [] := by
  obtain ⟨t, rest, hRest, -⟩ := h
  simp [hRest]

theorem length_advance (h : c.rest ≠ []) : c.advance.rest.length + 1 = c.rest.length := by
  obtain ⟨t, rest, hRest⟩ := exists_cons_of_ne_nil h
  rw [advance_of_rest hRest, hRest, length_cons]

@[grind →]
theorem length_of_kind? (h : c.kind? = some kind) : c.advance.rest.length + 1 = c.rest.length := by
  obtain ⟨t, rest, hRest, -⟩ := exists_of_kind? h
  exact length_advance (by simp [hRest])

@[simp, grind =]
theorem rest_minted (c : Cursor) : c.minted.rest = c.rest := rfl

/-- What is derived takes up tokens. -/
theorem Derives.length {c' : Cursor} {symbols : List Symbol} (h : c.Derives symbols c') :
    c'.rest.length ≤ c.rest.length ∧
      (symbols.any Symbol.isFilled = true → c'.rest.length < c.rest.length) := by
  induction h with
  | nil => simp
  | slot hSlot _ ih =>
    have hLength := length_advance hSlot.rest_ne_nil
    exact ⟨by omega, fun _ => by omega⟩
  | mint _ ih | absent _ _ ih => simpa [minted, Symbol.isFilled] using ih
  | phrase hProduction _ _ ihInside ih =>
    refine ⟨by omega, fun hFilled => ?_⟩
    rcases Bool.or_eq_true_iff.1 hFilled with hFirst | hRest
    · have hLt := ihInside.2 (hProduction.any_isFilled hFirst)
      omega
    · have hLt := ih.2 hRest
      omega

@[grind →]
theorem Derives.length_le {c' : Cursor} {symbols : List Symbol} (h : c.Derives symbols c') :
    c'.rest.length ≤ c.rest.length :=
  h.length.1

@[grind →]
theorem Derives.length_lt {c' : Cursor} {slot : Slot} {symbols : List Symbol}
    (h : c.Derives (.slot slot :: symbols) c') : c'.rest.length < c.rest.length :=
  h.length.2 rfl

theorem Alike.minted {V : Views} {d : Cursor} (h : Alike V c d) : Alike V c.minted d.minted :=
  { h with nextId := V.next h.nextId }

theorem derives_mint (c : Cursor) : c.Derives [.mint c.nextId] c.minted := .mint (.nil _)

theorem derives_absent {test : Token.Kind → Bool} (h : c.kind?.any test = false) :
    c.Derives [.absent [test]] c :=
  .absent ((c.startWith_single test).trans h) (.nil c)

theorem derives_not (h : ¬ c.isAt kind = true) : c.Derives [.absent [(· = kind)]] c :=
  derives_absent ((c.any_kind? kind).trans (Bool.eq_false_iff.2 h))

end Cursor

open Cursor (derives_token derives_mint derives_absent derives_not kind?_of_isAt)

namespace Parser

variable {α β : Type} {V : Views} {S : Prop} {c d : Cursor} {kind : Token.Kind}

/-- Two runs end alike.  They come to places and results that look alike, and the first result is
related to its place.  Or they fail with errors that look alike, and not for a bound if a
condition is met. -/
inductive EndAlike (V : Views) (S : Prop) (R : α → α → Prop) (Q : α → Cursor → Prop) :
    Except ParseError (α × Cursor) → Except ParseError (α × Cursor) → Prop where
  | ok {a b : α} {c d : Cursor} (hEnd : Cursor.Alike V c d) (hSame : R a b) (h : Q a c) :
      EndAlike V S R Q (.ok (a, c)) (.ok (b, d))
  | error {e e' : ParseError} (h : e.relabel V.left = e'.relabel V.right)
      (hBound : S → ∀ span, e ≠ .tooDeep span) : EndAlike V S R Q (.error e) (.error e')

/-- From a place and any place that looks like it, two parsers end alike. -/
def Twins (V : Views) (S : Prop) (c : Cursor) (p q : Parser α) (R : α → α → Prop)
    (Q : α → Cursor → Prop) : Prop :=
  ∀ d, Cursor.Alike V c d → EndAlike V S R Q (p c) (q d)

/-- From a place and any place that looks like it, a parser ends alike. -/
abbrev Ends (V : Views) (S : Prop) (c : Cursor) (p : Parser α) (R : α → α → Prop)
    (Q : α → Cursor → Prop) : Prop :=
  Twins V S c p p R Q

section Rules

variable {p q : Parser α} {f g : α → Parser β} {R : α → α → Prop} {T : β → β → Prop}
  {P : α → Cursor → Prop} {Q : β → Cursor → Prop} {s s' : Span}

theorem EndAlike.mono {P' : α → Cursor → Prop} {r r' : Except ParseError (α × Cursor)}
    (h : EndAlike V S R P r r') (hP : ∀ {a c'}, P a c' → P' a c') : EndAlike V S R P' r r' := by
  cases h with
  | ok hEnd hSame h => exact .ok hEnd hSame (hP h)
  | error h hBound => exact .error h hBound

theorem EndAlike.bind {r r' : Except ParseError (α × Cursor)} (h : EndAlike V S R P r r')
    (hf : ∀ {a b c'}, P a c' → R a b → Twins V S c' (f a) (g b) T Q) :
    EndAlike V S T Q (r >>= fun x => f x.1 x.2) (r' >>= fun x => g x.1 x.2) := by
  cases h with
  | ok hEnd hSame h => exact hf h hSame _ hEnd
  | error h hBound => exact .error h hBound

theorem Twins.mono {P' : α → Cursor → Prop} (h : Twins V S c p q R P)
    (hP : ∀ {a c'}, P a c' → P' a c') : Twins V S c p q R P' :=
  fun d hc => (h d hc).mono hP

theorem Twins.pure {a b : α} (hSame : R a b) (h : P a c) : Twins V S c (pure a) (pure b) R P :=
  fun _ hc => .ok hc hSame h

theorem Twins.throw {e e' : ParseError} (h : e.relabel V.left = e'.relabel V.right)
    (he : ∀ span, e ≠ .tooDeep span) :
    Twins V S c (throw e : Parser α) (throw e') R P :=
  fun _ _ => .error h fun _ => he

/-- The next token is not the one that is expected. -/
theorem Twins.throw_unexpected (hc : Cursor.Alike V c d) (expected : Expectation) :
    Twins V S c (MonadExcept.throw (ParseError.unexpected expected c.kind? c.span) : Parser α)
      (MonadExcept.throw (ParseError.unexpected expected d.kind? d.span)) R P :=
  .throw (by rw [ParseError.relabel_unexpected, ParseError.relabel_unexpected, hc.kind?, hc.span])
    (by simp)

theorem Twins.bind (h : Twins V S c p q R P)
    (hf : ∀ {a b c'}, P a c' → R a b → Twins V S c' (f a) (g b) T Q) :
    Twins V S c (p >>= f) (q >>= g) T Q :=
  fun d hc => (h d hc).bind hf

/-- Both runs go on with the same result. -/
theorem Twins.bind_eq (h : Twins V S c p q Eq P)
    (hf : ∀ {a c'}, P a c' → Twins V S c' (f a) (g a) T Q) : Twins V S c (p >>= f) (q >>= g) T Q :=
  h.bind fun hP hEq => hEq ▸ hf hP

theorem Twins.map {k : α → β} (h : Twins V S c p q R fun a c' => Q (k a) c')
    (hk : ∀ {a b}, R a b → T (k a) (k b)) : Twins V S c (k <$> p) (k <$> q) T Q := by
  rw [← bind_pure_comp, ← bind_pure_comp]
  exact h.bind fun ha hSame => .pure (hk hSame) ha

/-- Two branches that go on in the same way. -/
theorem Twins.ite_bind {b : Prop} [Decidable b] {p' q' : Parser α}
    (h : Twins V S c (if b then p else p') (if b then q else q') R P)
    (hf : ∀ {a b c'}, P a c' → R a b → Twins V S c' (f a) (g b) T Q) :
    Twins V S c (if b then p >>= f else p' >>= f) (if b then q >>= g else q' >>= g) T Q := by
  by_cases hb : b
  · rw [if_pos hb, if_pos hb] at h ⊢
    exact h.bind hf
  · rw [if_neg hb, if_neg hb] at h ⊢
    exact h.bind hf

theorem Twins.get_bind {f g : Cursor → Parser β}
    (h : ∀ {d}, Cursor.Alike V c d → Twins V S c (f c) (g d) T Q) :
    Twins V S c (get >>= f) (get >>= g) T Q :=
  fun d hc => h hc d hc

theorem Twins.spanFrom_bind {f g : Span → Parser β} (hs : V.Same View.place s s')
    (h : ∀ {s''}, V.Same View.place (s.merge c.previous) s'' →
      Twins V S c (f (s.merge c.previous)) (g s'') T Q) :
    Twins V S c (spanFrom s >>= f) (spanFrom s' >>= g) T Q :=
  fun d hc => h (V.merge hs hc.previous) d hc

/-- A bound that is used up, though it was to be greater than the number of tokens left. -/
theorem Twins.tooDeep (h : S → c.rest.length < 0) : Twins V S c tooDeep tooDeep R P :=
  fun _ hc => .error (congrArg ParseError.tooDeep hc.span) fun hS => absurd (h hS) (Nat.not_lt_zero _)

theorem Twins.looping {loop loop' : Nat → Parser α}
    (h : ∀ rounds, (S → c.rest.length < rounds) → Twins V S c (loop rounds) (loop' rounds) R P) :
    Twins V S c (looping loop) (looping loop') R P := by
  intro d hc
  show EndAlike V S R P (loop (c.rest.length + 1) c) (loop' (d.rest.length + 1) d)
  rw [← hc.length]
  exact h _ (fun _ => Nat.lt_succ_self _) d hc

theorem Twins.skip_bind {f g : Unit → Parser β} (h : Twins V S c.advance (f ()) (g ()) T Q) :
    Twins V S c (skip >>= f) (skip >>= g) T Q :=
  fun _ hc => h _ hc.advance

theorem Twins.mint_bind {f g : Nat → Parser β}
    (h : ∀ {j}, V.Same View.number c.nextId j → Twins V S c.minted (f c.nextId) (g j) T Q) :
    Twins V S c (mint >>= f) (mint >>= g) T Q :=
  fun _ hc => h hc.nextId _ hc.minted

section Nodes

variable {build build' : Mark → Expr} (hs : V.Same View.place s s')
  (hSame : ∀ {m m'}, V.Same Mark.relabel m m' → V.Same Expr.relabel (build m) (build' m'))
include hs hSame

theorem Twins.node_bind {f g : Expr → Parser β}
    (h : ∀ {e'}, V.Same Expr.relabel (build ⟨c.nextId, s⟩) e' →
      Twins V S c.minted (f (build ⟨c.nextId, s⟩)) (g e') T Q) :
    Twins V S c (node s build >>= f) (node s' build' >>= g) T Q := by
  intro d hc
  have hMark : V.Same Mark.relabel ⟨c.nextId, s⟩ ⟨d.nextId, s'⟩ := by
    simp only [Views.Same, Mark.relabel, hc.nextId, hs]
  exact h (hSame hMark) _ hc.minted

theorem Twins.node {Q : Expr → Cursor → Prop} (h : Q (build ⟨c.nextId, s⟩) c.minted) :
    Twins V S c (node s build) (node s' build') (V.Same Expr.relabel) Q :=
  .node_bind hs hSame fun he => .pure he h

end Nodes

/-- Skip a token if it is there. -/
theorem Twins.eat_bind {yes no yes' no' : Parser β}
    (hYes : c.Derives [.token kind] c.advance → Twins V S c.advance yes yes' T Q)
    (hNo : c.Derives [.absent [(· = kind)]] c → Twins V S c no no' T Q) :
    Twins V S c (eat kind >>= fun found => if found then yes else no)
      (eat kind >>= fun found => if found then yes' else no') T Q := by
  have hEat : Ends V S c (eat kind) Eq fun found c' =>
      if found then c.Derives [.token kind] c' ∧ c' = c.advance
      else c.Derives [.absent [(· = kind)]] c' ∧ c' = c := by
    refine .get_bind fun hc => ?_
    rw [← hc.isAt]
    split
    next h => exact .skip_bind (.pure rfl ⟨derives_token (kind?_of_isAt h), rfl⟩)
    next h => exact .pure rfl ⟨derives_not h, rfl⟩
  refine hEat.bind_eq ?_
  intro found c' h
  cases found with
  | true =>
    obtain ⟨hDerives, rfl⟩ : c.Derives [.token kind] c' ∧ c' = c.advance := h
    exact hYes hDerives
  | false =>
    obtain ⟨hDerives, rfl⟩ : c.Derives [.absent [(· = kind)]] c' ∧ c' = c := h
    exact hNo hDerives

/-- Read one thing behind a token and another without it. -/
theorem Twins.eat_ite_bind {yes no yes' no' : Parser α}
    (hYes : c.Derives [.token kind] c.advance → Twins V S c.advance yes yes' R P)
    (hNo : c.Derives [.absent [(· = kind)]] c → Twins V S c no no' R P)
    (hf : ∀ {a b c'}, P a c' → R a b → Twins V S c' (f a) (g b) T Q) :
    Twins V S c (eat kind >>= fun found => if found then yes >>= f else no >>= f)
      (eat kind >>= fun found => if found then yes' >>= g else no' >>= g) T Q :=
  .eat_bind (fun h => (hYes h).bind hf) fun h => (hNo h).bind hf

end Rules

/-! ## Single tokens and lists -/

theorem ends_consume (kind : Token.Kind) : Ends V S c (consume kind) Eq fun _ c' =>
    c' = c.advance ∧ c.Derives [.token kind] c.advance := by
  refine .get_bind fun hc => ?_
  rw [← hc.isAt]
  split
  next h => exact .skip_bind (.pure rfl ⟨rfl, derives_token (kind?_of_isAt h)⟩)
  next => exact .throw_unexpected hc _

theorem Twins.consume_bind {f g : Unit → Parser β} {T : β → β → Prop} {Q : β → Cursor → Prop}
    (h : c.Derives [.token kind] c.advance → Twins V S c.advance (f ()) (g ()) T Q) :
    Twins V S c (consume kind >>= f) (consume kind >>= g) T Q :=
  (ends_consume kind).bind_eq fun hToken => hToken.1 ▸ h hToken.2

theorem ends_identifier : Ends V S c identifier Eq fun name c' =>
    c' = c.advance ∧ c.Derives [.name name] c.advance := by
  intro d hc
  have hThrow : EndAlike V S Eq (fun name c' => c' = c.advance ∧ c.Derives [.name name] c.advance)
      (.error (.unexpected (.token .ident) c.kind? c.span))
      (.error (.unexpected (.token .ident) d.kind? d.span)) := Twins.throw_unexpected hc _ d hc
  unfold identifier
  rcases hc.next with ⟨hNil, hNil'⟩ | ⟨t, ts, u, us, hCons, hCons', hToken⟩
  · simpa only [hNil, hNil'] using hThrow
  · simp only [hCons, hCons', ← hToken.kind, ← hToken.text]
    split
    next hKind => exact .ok hc.advance rfl ⟨rfl, .slot ⟨t, ts, hCons, .name hKind⟩ (.nil _)⟩
    next => exact hThrow

theorem Twins.identifier_bind {f g : String → Parser β} {T : β → β → Prop} {Q : β → Cursor → Prop}
    (h : ∀ {name}, c.Derives [.name name] c.advance → Twins V S c.advance (f name) (g name) T Q) :
    Twins V S c (identifier >>= f) (identifier >>= g) T Q :=
  ends_identifier.bind_eq fun hName => hName.1 ▸ h hName.2

/-- Where a string token comes next, its value decides. -/
theorem stringValue_of_rest {t : Token} {rest : List Token} (hRest : c.rest = t :: rest)
    (hKind : t.kind = .string ∨ t.kind = .longString) :
    stringValue c = t.stringValue?.elim (.error (.invalidString t.span)) fun value =>
      .ok (value, c.advance) := by
  unfold stringValue Token.stringValue?
  rcases hKind with hKind | hKind
  · simp only [hRest, hKind]
    cases Escape.shortValue? t.text <;> rfl
  · simp only [hRest, hKind, Option.elim]

theorem ends_stringValue (h : c.kind? = some .string ∨ c.kind? = some .longString) :
    Ends V S c stringValue Eq fun value c' => c.Derives [.slot (.string value)] c' := by
  intro d hc
  rcases hc.next with ⟨hNil, -⟩ | ⟨t, ts, u, us, hCons, hCons', hToken⟩
  · simp [Cursor.kind?, hNil] at h
  · have hKind : t.kind = .string ∨ t.kind = .longString := by simpa [Cursor.kind?, hCons] using h
    have hSame : u.stringValue? = t.stringValue? := by
      rw [Token.stringValue?, ← hToken.kind, ← hToken.text, Token.stringValue?]
    rw [stringValue_of_rest hCons hKind, stringValue_of_rest hCons' (hToken.kind ▸ hKind), hSame]
    cases hValue : t.stringValue? with
    | none => exact .error (congrArg ParseError.invalidString hToken.place) (by simp)
    | some value => exact .ok hc.advance rfl (.slot ⟨t, ts, hCons, .string hValue⟩ (.nil _))

theorem ends_names (kind : Token.Kind) (rounds : Nat) (hRounds : S → c.rest.length < rounds) :
    Ends V S c (listBehind kind identifier rounds) Eq fun names c' =>
      c.Derives [.phrase (.names kind names)] c' := by
  induction rounds generalizing c with
  | zero => exact .tooDeep hRounds
  | succ rounds ih =>
    refine .eat_bind (fun hKind => ?_) fun hNot => .pure rfl (Production.noNames.derives hNot)
    refine .identifier_bind fun hFirst => (ih (by grind)).bind_eq fun hOthers => .pure rfl ?_
    exact Production.consName.derives (hKind.append (hFirst.append hOthers))

/-- The parsers for what is nested follow the grammar, and their bounds suffice for fewer than `n`
tokens. -/
structure Inner.Derives (V : Views) (inner : Inner) (n : Nat) : Prop where
  expr (power : Nat) {c : Cursor} {S : Prop} (hn : S → c.rest.length < n) :
    Ends V S c (inner.expr power) (V.Same Expr.relabel) fun e c' =>
      c.Derives [.phrase (.expr power e)] c'
  block {c : Cursor} {S : Prop} (hn : S → c.rest.length < n) :
    Ends V S c inner.block (V.Same Block.relabel) fun body c' => c.Derives [.phrase (.block body)] c'

section Levels

variable {inner : Inner} {n : Nat} (h : inner.Derives V n)
include h

attribute [local simp] Views.Same Expr.relabel relabelExprs Field.relabel relabelFields
  FunctionBody.relabel Clause.relabel relabelClauses relabelOtherwise relabelStep Stmt.relabel
  relabelStmts Block.relabel

/-! ## Expressions -/

theorem Inner.Derives.commaList (hn : S → c.rest.length < n) (rounds : Nat)
    (hRounds : S → c.rest.length < rounds) :
    Ends V S c (commaList (inner.expr 0) rounds) (V.Same relabelExprs) fun es c' =>
      es ≠ [] ∧ c.Derives [.phrase (.exprs es)] c' := by
  induction rounds generalizing c with
  | zero => exact .tooDeep hRounds
  | succ rounds ih =>
    refine (h.expr 0 hn).bind fun hFirst hFirst' => .eat_bind (fun hComma => ?_) fun hNot => ?_
    · refine (ih (by grind) (by grind)).bind fun hOthers hOthers' => .pure ?_ ⟨by simp, ?_⟩
      · simp [hFirst', hOthers']
      · exact (Production.consExpr hOthers.1).derives (hFirst.append (hComma.append hOthers.2))
    · refine .pure ?_ ⟨by simp, Production.lastExpr.derives (hFirst.append hNot)⟩
      simp [hFirst']

theorem Inner.Derives.exprList (hn : S → c.rest.length < n) :
    Ends V S c (exprList inner) (V.Same relabelExprs) fun es c' =>
      es ≠ [] ∧ c.Derives [.phrase (.exprs es)] c' :=
  .looping (h.commaList hn)

omit h in
theorem ends_params (rounds : Nat) (hRounds : S → c.rest.length < rounds) :
    Ends V S c (params rounds) Eq fun r c' =>
      (r.1 ≠ [] ∨ r.2 = true) ∧ c.Derives [.phrase (.params r.1 r.2)] c' := by
  induction rounds generalizing c with
  | zero => exact .tooDeep hRounds
  | succ rounds ih =>
    refine .eat_bind (fun hVararg => ?_) fun _ => .identifier_bind fun hFirst => ?_
    · exact .pure rfl ⟨.inr rfl, Production.varargParam.derives hVararg⟩
    refine .eat_bind (fun hComma => ?_) fun hNot => ?_
    · refine (ih (by grind)).bind_eq fun hr => .pure rfl ⟨.inl (by simp), ?_⟩
      exact (Production.consParam hr.1).derives (hFirst.append (hComma.append hr.2))
    · exact .pure rfl ⟨.inl (by simp), Production.lastParam.derives (hFirst.append hNot)⟩

theorem Inner.Derives.functionBody (hn : S → c.rest.length ≤ n) {s s' : Span}
    (hs : V.Same View.place s s') :
    Twins V S c (functionBody inner s) (functionBody inner s') (V.Same FunctionBody.relabel)
      fun body c' => c.Derives body.symbols c' ∧ body.span = s.merge c'.previous := by
  refine .mint_bind fun hId => .consume_bind fun hLeft => .get_bind fun hc => ?_
  replace hn : S → c.minted.rest.length ≤ n := hn
  rw [← hc.isAt]
  refine .ite_bind (R := Eq) (P := fun r c₃ => ∀ c₄, c₃.Derives [.token .rightParen] c₄ →
    c.minted.Derives [.phrase (.signature r.1 r.2)] c₄) ?_ ?_
  · split
    next => exact .pure rfl fun c₄ hRight => Production.noParams.derives (hLeft.append hRight)
    next hNot =>
      refine (Twins.looping ends_params).mono fun hr c₄ hRight => ?_
      exact Production.someParams.derives
        (hLeft.append ((derives_not hNot).append (hr.2.append hRight)))
  rintro r _ c₃ hParams rfl
  refine .consume_bind fun hRight => ?_
  have hLt := (hParams _ hRight).length.2 rfl
  refine (h.block (by grind)).bind fun hBody hBody' => .consume_bind fun hEnd => ?_
  refine .spanFrom_bind hs fun hs => .pure ?_ ⟨?_, rfl⟩
  · simp [hId, hBody', hs]
  · exact (derives_mint c).append ((hParams _ hRight).append (hBody.append hEnd))

theorem Inner.Derives.field (hn : S → c.rest.length < n) :
    Ends V S c (field inner) (V.Same Field.relabel) fun f c' =>
      c.Derives [.phrase (.field f)] c' := by
  refine .get_bind fun hc => ?_
  rw [← hc.isAt, ← hc.isAt, ← hc.kindAhead?]
  split
  next hKind =>
    refine .skip_bind ((h.expr 0 (by grind)).bind fun hKey hKey' => ?_)
    refine .consume_bind fun hRight => .consume_bind fun hAssign => ?_
    refine (h.expr 0 (by grind)).bind fun hValue hValue' => .pure ?_ ?_
    · simp [hKey', hValue']
    · exact Production.keyed.derives ((derives_token (kind?_of_isAt hKind)).append
        (hKey.append (hRight.append (hAssign.append hValue))))
  next hBracket =>
    split
    next hAhead =>
      simp only [Bool.and_eq_true, decide_eq_true_eq, Cursor.kindAhead?_succ,
        Cursor.kindAhead?_zero] at hAhead
      refine .identifier_bind fun hName => .skip_bind ?_
      refine (h.expr 0 (by grind)).bind fun hValue hValue' => .pure ?_ ?_
      · simp [hValue']
      · exact Production.named.derives (hName.append ((derives_token hAhead.2).append hValue))
    next hAhead =>
      refine (h.expr 0 hn).bind fun hValue hValue' => .pure ?_ (Production.positional.derives ?_)
      · simp [hValue']
      refine (derives_not hBracket).append (.absent ?_ hValue)
      rw [Cursor.startWith_eq, Cursor.startWith_single, Cursor.any_kind?, Cursor.any_kind?]
      simpa [Cursor.kindAhead?_succ, Cursor.kindAhead?_zero, Cursor.isAt] using hAhead

theorem Inner.Derives.fields (hn : S → c.rest.length < n) (rounds : Nat)
    (hRounds : S → c.rest.length < rounds) :
    Ends V S c (fields inner rounds) (V.Same relabelFields) fun fs c₁ =>
      ∀ c₂, c₁.Derives [.token .rightBrace] c₂ → c.Derives [.phrase (.fields fs)] c₂ := by
  induction rounds generalizing c with
  | zero => exact .tooDeep hRounds
  | succ rounds ih =>
    refine .get_bind fun hc => ?_
    rw [← hc.isAt]
    split
    next => exact .pure rfl fun c₂ hRight => Production.noFields.derives hRight
    next hNot =>
      refine (h.field hn).bind fun hFirst hFirst' => ?_
      have hHead := (derives_not hNot).append hFirst
      refine .eat_bind (fun hComma => ?_) fun _ => .eat_bind (fun hSemicolon => ?_) fun _ => ?_
      · refine (ih (by grind) (by grind)).bind fun hOthers hOthers' => .pure ?_ fun c₂ hRight => ?_
        · simp [hFirst', hOthers']
        · exact (Production.consField (.inl rfl)).derives
            (hHead.append (hComma.append (hOthers c₂ hRight)))
      · refine (ih (by grind) (by grind)).bind fun hOthers hOthers' => .pure ?_ fun c₂ hRight => ?_
        · simp [hFirst', hOthers']
        · exact (Production.consField (.inr rfl)).derives
            (hHead.append (hSemicolon.append (hOthers c₂ hRight)))
      · refine .pure ?_ fun c₂ hRight => Production.lastField.derives (hHead.append hRight)
        simp [hFirst']

theorem Inner.Derives.tableFields (hn : S → c.rest.length ≤ n) :
    Ends V S c (tableFields inner) (V.Same relabelFields) fun fs c' =>
      c.Derives [.token .leftBrace, .phrase (.fields fs)] c' := by
  refine .consume_bind fun hLeft => ?_
  refine (Twins.looping (h.fields (by grind))).bind fun hFields hFields' => ?_
  exact .consume_bind fun hRight => .pure hFields' (hLeft.append (hFields _ hRight))

theorem Inner.Derives.callArgs (hn : S → c.rest.length ≤ n) :
    Ends V S c (callArgs inner) (V.Same relabelExprs) fun args c' =>
      c.Derives [.phrase (.args args)] c' := by
  refine .get_bind fun {d} hc => ?_
  have hString : c.kind? = some .string ∨ c.kind? = some .longString →
      Twins V S c (stringValue >>= fun value => do return [← node c.span (.string · value)])
        (stringValue >>= fun value => do return [← node d.span (.string · value)])
        (V.Same relabelExprs) fun args c' => c.Derives [.phrase (.args args)] c' := by
    refine fun hKind => (ends_stringValue hKind).bind_eq fun hValue => ?_
    refine .node_bind hc.span (fun hm => by simp [hm]) fun he => ?_
    refine .pure ?_ (Production.bareString.derives (hValue.append (derives_mint _)))
    simp only [Views.Same, relabelExprs, he]
  dsimp only
  rw [← hc.kind?]
  split
  next hKind =>
    refine .skip_bind (.get_bind fun hc => ?_)
    rw [← hc.isAt]
    refine .ite_bind (R := V.Same relabelExprs) (P := fun args c₁ => ∀ c₂,
      c₁.Derives [.token .rightParen] c₂ → c.Derives [.phrase (.args args)] c₂) ?_
      fun hArgs hArgs' => .consume_bind fun hRight => .pure hArgs' (hArgs _ hRight)
    split
    next =>
      exact .pure rfl fun c₂ hRight => Production.noArgs.derives ((derives_token hKind).append hRight)
    next hNot =>
      exact (h.exprList (by grind)).mono fun hes c₂ hRight => Production.someArgs.derives
        ((derives_token hKind).append ((derives_not hNot).append (hes.2.append hRight)))
  next hKind => exact hString (.inl hKind)
  next hKind => exact hString (.inr hKind)
  next =>
    refine (h.tableFields hn).bind fun hTable hTable' => .spanFrom_bind hc.span fun hs => ?_
    refine .node_bind hs (fun hm => by simp [hm, hTable']) fun he => ?_
    refine .pure ?_ (Production.bareTable.derives (hTable.append (derives_mint _)))
    simp only [Views.Same, relabelExprs, he]
  next =>
    exact .throw (by rw [ParseError.relabel_unexpected, ParseError.relabel_unexpected, hc.span])
      (by simp)

theorem Inner.Derives.primaryExpr (hn : S → c.rest.length ≤ n) :
    Ends V S c (primaryExpr inner) (V.Same Expr.relabel) fun e c' =>
      c.kind?.any Token.Kind.startsPrefix = true ∧ c.Derives [.phrase (.chain e)] c' := by
  refine .get_bind fun hc => ?_
  dsimp only
  rw [← hc.kind?]
  split
  next hKind =>
    refine .identifier_bind fun hName => .node hc.span (fun hm => ?_)
      ⟨by simp [hKind, Token.Kind.startsPrefix], ?_⟩
    · simp [hm]
    · exact Production.name.derives (hName.append (derives_mint _))
  next hKind =>
    refine .skip_bind ((h.expr 0 (by grind)).bind fun he he' => .consume_bind fun hRight => ?_)
    refine .spanFrom_bind hc.span fun hs => .node hs (fun hm => ?_)
      ⟨by simp [hKind, Token.Kind.startsPrefix], ?_⟩
    · simp [hm, he']
    · exact Production.paren.derives
        ((derives_token hKind).append (he.append (hRight.append (derives_mint _))))
  next => exact .throw (congrArg ParseError.invalidExpression hc.span) (by simp)
  next => exact .throw (congrArg ParseError.unexpectedEnd hc.span) (by simp)

theorem Inner.Derives.suffixes {c₀ : Cursor} {s : Span} (hs : V.Same View.place c₀.span s)
    {e e' : Expr} (he : c₀.Derives [.phrase (.chain e)] c) (he' : V.Same Expr.relabel e e')
    (hn : S → c.rest.length ≤ n) (rounds : Nat) (hRounds : S → c.rest.length < rounds) :
    Twins V S c (suffixes inner c₀.span rounds e) (suffixes inner s rounds e') (V.Same Expr.relabel)
      fun e c' => c₀.Derives [.phrase (.suffixed e)] c' := by
  induction rounds generalizing c e e' with
  | zero => exact .tooDeep hRounds
  | succ rounds ih =>
    have hCall : Twins V S c
        (Parser.callArgs inner >>= fun args => do
          Parser.suffixes inner c₀.span rounds (← node (← spanFrom c₀.span) (.call · e args)))
        (Parser.callArgs inner >>= fun args => do
          Parser.suffixes inner s rounds (← node (← spanFrom s) (.call · e' args)))
        (V.Same Expr.relabel) fun e c' => c₀.Derives [.phrase (.suffixed e)] c' := by
      refine (h.callArgs hn).bind fun {_ _ c₁} hArgs hArgs' => .spanFrom_bind hs fun hs => ?_
      have hLt : c₁.minted.rest.length < c.rest.length := hArgs.length.2 rfl
      refine .node_bind hs (fun hm => by simp [hm, he', hArgs'])
        fun hNew => ih ?_ hNew (by grind) (by grind)
      exact Production.call.derives (he.append (hArgs.append (derives_mint _)))
    refine .get_bind fun hc => ?_
    rw [← hc.kind?]
    split
    next hKind =>
      refine .skip_bind (.identifier_bind fun hName => .spanFrom_bind hs fun hs => ?_)
      refine .node_bind hs (fun hm => by simp [hm, he'])
        fun hNew => ih ?_ hNew (by grind) (by grind)
      exact Production.member.derives
        (he.append ((derives_token hKind).append (hName.append (derives_mint _))))
    next hKind =>
      refine .skip_bind ((h.expr 0 (by grind)).bind fun hKey hKey' => ?_)
      refine .consume_bind fun hRight => .spanFrom_bind hs fun hs => ?_
      refine .node_bind hs (fun hm => by simp [hm, he', hKey'])
        fun hNew => ih ?_ hNew (by grind) (by grind)
      exact Production.index.derives (he.append ((derives_token hKind).append
        (hKey.append (hRight.append (derives_mint _)))))
    next hKind =>
      refine .skip_bind (.identifier_bind fun hMethod => ?_)
      refine (h.callArgs (by grind)).bind fun hArgs hArgs' => .spanFrom_bind hs fun hs => ?_
      refine .node_bind hs (fun hm => by simp [hm, he', hArgs'])
        fun hNew => ih ?_ hNew (by grind) (by grind)
      exact Production.methodCall.derives (he.append ((derives_token hKind).append
        (hMethod.append (hArgs.append (derives_mint _)))))
    iterate 4 next => exact hCall
    next =>
      refine .pure he' (Production.suffixed.derives (he.append (derives_absent ?_)))
      cases hKind : c.kind? with
      | none => rfl
      | some kind => cases kind <;> first | rfl | simp_all

/-- A prefix with what is applied to it, and the kind of its first token. -/
theorem Inner.Derives.suffixedExpr (hn : S → c.rest.length ≤ n) :
    Ends V S c (suffixedExpr inner) (V.Same Expr.relabel) fun e c' =>
      c.kind?.any Token.Kind.startsPrefix = true ∧ c.Derives [.phrase (.suffixed e)] c' :=
  .get_bind fun hc => (h.primaryExpr hn).bind fun he he' =>
    (Twins.looping (h.suffixes hc.span he.2 he' (by grind))).mono fun hAll => ⟨he.1, hAll⟩

omit h in
theorem startsPrefix_or_end (h : c.kind?.any Token.Kind.startsPrefix = true) :
    (c.kind?.any fun kind => !kind.startsPrefix) = false := by
  cases hKind : c.kind? with
  | none => rfl
  | some kind => simpa [hKind] using h

theorem Inner.Derives.simpleExpr (hn : S → c.rest.length ≤ n) :
    Ends V S c (simpleExpr inner) (V.Same Expr.relabel) fun e c' =>
      c.Derives [.phrase (.simple e)] c' := by
  refine .get_bind fun {d} hc => ?_
  have hString : c.kind? = some .string ∨ c.kind? = some .longString →
      Twins V S c (stringValue >>= fun value => do node (← spanFrom c.span) (.string · value))
        (stringValue >>= fun value => do node (← spanFrom d.span) (.string · value))
        (V.Same Expr.relabel) fun e c' => c.Derives [.phrase (.simple e)] c' := by
    refine fun hKind => (ends_stringValue hKind).bind_eq fun hValue => ?_
    refine .spanFrom_bind hc.span fun hs => .node hs (fun hm => ?_)
      (Production.string.derives (hValue.append (derives_mint _)))
    simp [hm]
  have hSkip : ∀ {kind : Token.Kind}, c.kind? = some kind →
      c.Derives [.token kind, .mint c.advance.nextId] c.advance.minted := fun hKind =>
    (derives_token hKind).append (derives_mint _)
  -- one token that is a whole expression
  have hWord {build : Mark → Expr}
      (hSame : ∀ {m m'}, V.Same Mark.relabel m m' → V.Same Expr.relabel (build m) (build m'))
      (hDerives : c.Derives [.phrase (.simple (build
        ⟨c.advance.nextId, c.span.merge c.advance.previous⟩))] c.advance.minted) :
      Twins V S c (do skip; node (← spanFrom c.span) build)
        (do skip; node (← spanFrom d.span) build)
        (V.Same Expr.relabel) fun e c' => c.Derives [.phrase (.simple e)] c' :=
    .skip_bind (.spanFrom_bind hc.span fun hs => .node hs hSame hDerives)
  have hText : d.rest.head?.map Token.text = c.rest.head?.map Token.text := by
    rcases hc.next with ⟨hNil, hNil'⟩ | ⟨t, ts, u, us, hCons, hCons', hToken⟩
    · rw [hNil, hNil']
    · rw [hCons, hCons']
      exact congrArg some hToken.text.symm
  dsimp only
  rw [← hc.kind?, hText]
  split
  next hKind =>
    exact hWord (fun hm => by simp [hm])
      (Production.nil.derives (hSkip hKind))
  next hKind =>
    exact hWord (fun hm => by simp [hm])
      ((@Production.boolean _ _ _ true).derives (hSkip hKind))
  next hKind =>
    exact hWord (fun hm => by simp [hm])
      ((@Production.boolean _ _ _ false).derives (hSkip hKind))
  next hKind =>
    exact hWord (fun hm => by simp [hm])
      (Production.vararg.derives (hSkip hKind))
  next hKind =>
    obtain ⟨t, rest, hRest, hNumber⟩ := Cursor.exists_of_kind? hKind
    have hSlot : c.HasSlot (.number ((c.rest.head?.map Token.text).getD "")) :=
      ⟨t, rest, hRest, by simpa [hRest] using .number hNumber⟩
    exact hWord (fun hm => by simp [hm])
      (Production.number.derives (.slot hSlot (derives_mint c.advance)))
  next hKind => exact hString (.inl hKind)
  next hKind => exact hString (.inr hKind)
  next =>
    refine (h.tableFields hn).bind fun hTable hTable' => .spanFrom_bind hc.span fun hs => ?_
    refine .node hs (fun hm => by simp [hm, hTable']) ?_
    exact Production.table.derives (hTable.append (derives_mint _))
  next hKind =>
    refine .skip_bind ((h.functionBody (by grind) hc.span).bind fun {body _ c₁} hBody hBody' => ?_)
    refine .spanFrom_bind hc.span fun hs => .node hs (fun hm => ?_) ?_
    · simp [hm, hBody']
    · have hSpan : body.span = c.span.merge c₁.minted.previous := hBody.2
      exact (Production.function hSpan).derives
        ((derives_token hKind).append (hBody.1.append (derives_mint _)))
  next =>
    exact (h.suffixedExpr hn).mono fun he =>
      Production.ofSuffixed.derives ((derives_absent (startsPrefix_or_end he.1)).append he.2)

omit h in
theorem same_span {e e' : Expr} (he : V.Same Expr.relabel e e') :
    V.Same View.place e.span e'.span := by
  have hMark : V.Same Mark.relabel e.mark e'.mark := by
    rw [Views.Same, ← Expr.mark_relabel, ← Expr.mark_relabel, he]
  exact congrArg Mark.span hMark

theorem Inner.Derives.operand (hn : S → c.rest.length ≤ n) (power : Nat) :
    Ends V S c (operand inner) (V.Same Expr.relabel) fun e c' =>
      c.Derives [.phrase (.spine power e)] c' := by
  refine .get_bind fun hc => ?_
  dsimp only
  rw [← hc.kind?]
  split
  next op hOp =>
    obtain ⟨kind, hKind, hToken⟩ := Option.bind_eq_some_iff.1 hOp
    obtain rfl := UnaryOp.ofToken?_eq_some_iff.1 hToken
    refine .skip_bind ((h.expr _ (by grind)).bind fun he he' => ?_)
    refine .node (V.merge hc.span (same_span he')) (fun hm => ?_) ?_
    · simp [hm, he']
    · exact Production.unary.derives ((derives_token hKind).append (he.append (derives_mint _)))
  next hNone =>
    refine (h.simpleExpr hn).mono fun he => Production.ofSimple.derives ((derives_absent ?_).append he)
    cases hKind : c.kind? with
    | none => rfl
    | some kind => simpa [hKind] using hNone

theorem Inner.Derives.operators {c₀ : Cursor} {power : Nat} {left left' : Expr}
    (hLeft : c₀.Derives [.phrase (.spine power left)] c) (hLeft' : V.Same Expr.relabel left left')
    (hn : S → c.rest.length ≤ n) (rounds : Nat) (hRounds : S → c.rest.length < rounds) :
    Twins V S c (operators inner power rounds left) (operators inner power rounds left')
      (V.Same Expr.relabel) fun e c' => c₀.Derives [.phrase (.expr power e)] c' := by
  induction rounds generalizing c left left' with
  | zero => exact .tooDeep hRounds
  | succ rounds ih =>
    refine .get_bind fun hc => ?_
    rw [← hc.kind?]
    split
    next op hOp =>
      obtain ⟨kind, hKind, hToken⟩ := Option.bind_eq_some_iff.1 hOp
      split
      next hLe =>
        refine .pure hLeft' (Production.expr.derives (hLeft.append (derives_absent ?_)))
        simp [hKind, Token.Kind.bindsAbove, hToken, hLe]
      next hLt =>
        obtain rfl := BinaryOp.ofToken?_eq_some_iff.1 hToken
        refine .skip_bind ((h.expr _ (by grind)).bind fun hRight hRight' => ?_)
        refine .node_bind (V.merge (same_span hLeft') (same_span hRight'))
          (fun hm => by simp [hm, hLeft', hRight'])
          fun hNew => ih ?_ hNew (by grind) (by grind)
        exact (Production.binary (Nat.lt_of_not_le hLt)).derives (hLeft.append
          ((derives_token hKind).append (hRight.append (derives_mint _))))
    next hNone =>
      refine .pure hLeft' (Production.expr.derives (hLeft.append (derives_absent ?_)))
      cases hKind : c.kind? with
      | none => rfl
      | some kind =>
        rw [hKind] at hNone
        simp only [Option.any_some, Token.Kind.bindsAbove]
        rw [show BinaryOp.ofToken? kind = none from hNone, Option.any_none]

theorem Inner.Derives.operation (power : Nat) (hn : S → c.rest.length ≤ n) :
    Ends V S c (operation inner power) (V.Same Expr.relabel) fun e c' =>
      c.Derives [.phrase (.expr power e)] c' :=
  (h.operand hn power).bind fun he he' => .looping (h.operators he he' (by grind))

/-! ## Statements -/

theorem Inner.Derives.elseParts (hn : S → c.rest.length ≤ n) (rounds : Nat)
    (hRounds : S → c.rest.length < rounds) :
    Ends V S c (elseParts inner rounds)
      (fun r r' => V.Same relabelClauses r.1 r'.1 ∧ V.Same relabelOtherwise r.2 r'.2) fun r c' =>
        c.Derives [.phrase (.elseParts r.1 r.2)] c' := by
  induction rounds generalizing c with
  | zero => exact .tooDeep hRounds
  | succ rounds ih =>
    refine .get_bind fun hc => ?_
    rw [← hc.kind?]
    split
    next hKind =>
      refine .skip_bind ((h.expr 0 (by grind)).bind fun hCondition hCondition' => ?_)
      refine .consume_bind fun hThen => (h.block (by grind)).bind fun hBody hBody' => ?_
      refine (ih (by grind) (by grind)).bind fun hr hr' => .pure ⟨?_, hr'.2⟩ ?_
      · simp [hCondition', hBody', hr'.1]
      · exact Production.elseIf.derives
          ((derives_token hKind).append (hCondition.append (hThen.append (hBody.append hr))))
    next hKind =>
      refine .skip_bind ((h.block (by grind)).bind fun hBody hBody' => ?_)
      refine .consume_bind fun hEnd => .pure ⟨rfl, ?_⟩ ?_
      · simp [hBody']
      · exact Production.otherwise.derives ((derives_token hKind).append (hBody.append hEnd))
    next => exact .consume_bind fun hEnd => .pure ⟨rfl, rfl⟩ (Production.noElse.derives hEnd)

/-- A statement is read from `c₀` on, up to its place. -/
def Shapes (c₀ : Cursor) (shape : Span → Stmt) (c : Cursor) : Prop :=
  c₀.Derives [.phrase (.statement (shape (c₀.span.merge c.previous)))] c

/-- Two statements that look alike wherever they stand. -/
def SameShape (V : Views) (shape shape' : Span → Stmt) : Prop :=
  ∀ s s', V.Same View.place s s' → V.Same Stmt.relabel (shape s) (shape' s')

theorem Inner.Derives.forLoop {c₀ : Cursor} (hn : S → c.rest.length ≤ n)
    (hFor : c₀.Derives [.token .kwFor] c) : Ends V S c (forLoop inner) (SameShape V) (Shapes c₀) := by
  refine .identifier_bind fun hFirst => .eat_bind (fun hAssign => ?_) fun hNot => ?_
  · refine (h.expr 0 (by grind)).bind fun hStart hStart' => .consume_bind fun hComma => ?_
    refine (h.expr 0 (by grind)).bind fun {_ _ c₄} hLimit hLimit' => ?_
    refine .eat_ite_bind (R := V.Same relabelStep)
      (P := fun step c₅ => c₄.Derives [.phrase (.step step)] c₅)
      (fun hComma => .map ((h.expr 0 (by grind)).mono fun he =>
        Production.someStep.derives (hComma.append he)) fun he => ?_)
      (fun hNot => .pure rfl (Production.noStep.derives hNot)) fun hStep hStep' => ?_
    · simp [he]
    refine .consume_bind fun hDo => (h.block (by grind)).bind fun hBody hBody' => ?_
    refine .consume_bind fun hEnd => .pure (fun s s' hs => ?_) (Production.numericFor.derives ?_)
    · simp [hs, hStart', hLimit', hStep', hBody']
    · exact hFor.append (hFirst.append (hAssign.append (hStart.append (hComma.append
        (hLimit.append (hStep.append (hDo.append (hBody.append hEnd))))))))
  · refine (Twins.looping (ends_names .comma)).bind_eq fun hOthers => .consume_bind fun hIn => ?_
    refine (h.exprList (by grind)).bind fun hIterators hIterators' => .consume_bind fun hDo => ?_
    refine (h.block (by grind)).bind fun hBody hBody' => .consume_bind fun hEnd => ?_
    refine .pure (fun s s' hs => ?_) (Production.genericFor.derives ?_)
    · simp [hs, hIterators', hBody']
    · exact hFor.append (hFirst.append (hNot.append (hOthers.append (hIn.append
        (hIterators.2.append (hDo.append (hBody.append hEnd)))))))

omit h in
theorem ends_localName : Ends V S c localName Eq fun name c' =>
    c.Derives [.name name, .phrase .qualifier] c' := by
  refine .identifier_bind fun hName => .get_bind fun hc => ?_
  dsimp only
  rw [← hc.isAt, ← hc.kindAhead?, ← hc.kindAhead?]
  split
  next hAhead =>
    simp only [Bool.and_eq_true, decide_eq_true_eq, Cursor.kindAhead?_succ,
      Cursor.kindAhead?_zero] at hAhead
    obtain ⟨⟨hLess, hIdent⟩, hGreater⟩ := hAhead
    refine .skip_bind (.skip_bind (.skip_bind (.pure rfl (hName.append ?_))))
    exact Production.someAttribute.derives ((derives_token (kind?_of_isAt hLess)).append
      ((derives_token hIdent).append (derives_token hGreater)))
  next hAhead =>
    refine .pure rfl (hName.append (Production.noAttribute.derives (.absent ?_ (.nil _))))
    rw [Cursor.startWith_eq, Cursor.startWith_eq, Cursor.startWith_single, Cursor.any_kind?,
      Cursor.any_kind?, Cursor.any_kind?]
    simpa [Cursor.kindAhead?_succ, Cursor.kindAhead?_zero, Cursor.isAt] using hAhead

omit h in
theorem ends_locals (rounds : Nat) (hRounds : S → c.rest.length < rounds) :
    Ends V S c (Parser.commaList localName rounds) Eq fun names c' =>
      names ≠ [] ∧ c.Derives [.phrase (.locals names)] c' := by
  induction rounds generalizing c with
  | zero => exact .tooDeep hRounds
  | succ rounds ih =>
    refine ends_localName.bind_eq fun hFirst => .eat_bind (fun hComma => ?_) fun hNot => ?_
    · refine (ih (by grind)).bind_eq fun hOthers => .pure rfl ⟨by simp, ?_⟩
      exact (Production.consLocal hOthers.1).derives (hFirst.append (hComma.append hOthers.2))
    · exact .pure rfl ⟨by simp, Production.lastLocal.derives (hFirst.append hNot)⟩

omit h in
theorem ends_functionName : Ends V S c Parser.functionName (V.Same FunctionName.relabel)
    fun name c' => c.Derives [.phrase (.functionName name)] c' := by
  refine .get_bind fun hc => .identifier_bind fun hRoot => ?_
  refine (Twins.looping (ends_names .dot)).bind_eq fun {_ c₂} hMembers => ?_
  refine .eat_ite_bind (R := Eq) (P := fun method c₃ => c₂.Derives [.phrase (.method method)] c₃)
    (fun hColon => .map (ends_identifier.mono fun hName => ?_) (congrArg some))
    (fun hNot => .pure rfl (Production.noMethod.derives hNot)) fun hMethod hMethod' => ?_
  · exact Production.someMethod.derives (hColon.append (hName.1 ▸ hName.2))
  refine .spanFrom_bind hc.span fun hs => .pure ?_
    (Production.functionName.derives (hRoot.append (hMembers.append hMethod)))
  simp [FunctionName.relabel, hs, hMethod']

theorem Inner.Derives.targets (hn : S → c.rest.length ≤ n) (rounds : Nat)
    (hRounds : S → c.rest.length < rounds) :
    Ends V S c (listBehind .comma (Parser.suffixedExpr inner) rounds) (V.Same relabelExprs)
      fun es c' => c.Derives [.phrase (.targets es)] c' := by
  induction rounds generalizing c with
  | zero => exact .tooDeep hRounds
  | succ rounds ih =>
    refine .eat_bind (fun hComma => ?_) fun hNot => .pure rfl (Production.noTargets.derives hNot)
    refine (h.suffixedExpr (by grind)).bind fun hFirst hFirst' => ?_
    refine (ih (by grind) (by grind)).bind fun hOthers hOthers' => .pure ?_ ?_
    · simp [hFirst', hOthers']
    · exact Production.consTarget.derives (hComma.append (hFirst.2.append hOthers))

omit h in
/-- Where an expression that cannot be assigned to comes first does not depend on the view. -/
theorem find?_relabelExprs (v : View) (es : List Expr) :
    (relabelExprs v es).find? (fun e => !e.isAssignable) =
      (es.find? fun e => !e.isAssignable).map (Expr.relabel v) := by
  induction es with
  | nil => rfl
  | cons e es ih =>
    rw [relabelExprs, find?_cons, find?_cons, Expr.isAssignable_relabel, ih]
    split <;> rfl

section

variable (hn : S → c.rest.length ≤ n)
include hn

theorem Inner.Derives.exprStatement :
    Ends V S c (exprStatement inner) (SameShape V) (Shapes c) := by
  refine (h.suffixedExpr hn).bind fun {first first' c₁} hFirst hFirst' => .get_bind fun hc => ?_
  have hHead := (derives_absent (startsPrefix_or_end hFirst.1)).append hFirst.2
  have hForm : first'.isCall = first.isCall := by
    rw [← Expr.isCall_relabel V.right, ← hFirst', Expr.isCall_relabel]
  dsimp only
  rw [← hc.isAt, ← hc.isAt, hForm]
  split
  next =>
    refine (Twins.looping (h.targets (by grind))).bind fun {others others' _} hOthers hOthers' => ?_
    have hTargets : V.Same relabelExprs (first :: others) (first' :: others') := by
      simp [hFirst', hOthers']
    have hFind := find?_relabelExprs V.right (first' :: others')
    rw [← hTargets, find?_relabelExprs] at hFind
    cases hFound : (first :: others).find? fun target => !target.isAssignable with
    | some target =>
      rw [hFound] at hFind
      obtain ⟨target', hFound', hSame⟩ := Option.map_eq_some_iff.1 hFind.symm
      rw [hFound']
      exact .throw (congrArg ParseError.invalidTarget (same_span hSame.symm)) (by simp)
    | none =>
      rw [hFound] at hFind
      rw [Option.map_eq_none_iff.1 hFind.symm]
      have hAssignable : ∀ target ∈ first :: others, target.isAssignable = true := by
        simpa using find?_eq_none.1 hFound
      refine .consume_bind fun hAssign => (h.exprList (by grind)).bind fun hValues hValues' => ?_
      refine .pure (fun s s' hs => ?_) ((Production.assign hAssignable).derives
        (hHead.append (hOthers.append (hAssign.append hValues.2))))
      simp [hs, hFirst', hOthers', hValues']
  next hNot =>
    split
    next hCall =>
      refine .pure (fun s s' hs => ?_)
        ((Production.callStatement hCall).derives (hHead.append (derives_absent ?_)))
      · simp [hs, hFirst']
      rw [Cursor.isAt, Cursor.isAt] at hNot
      cases hKind : c₁.kind? with
      | none => rfl
      | some kind => simpa [hKind] using hNot
    next => exact .throw_unexpected hc _

theorem Inner.Derives.statementShape :
    Ends V S c (statementShape inner) (SameShape V) (Shapes c) := by
  refine .get_bind fun hc => ?_
  dsimp only
  rw [← hc.kind?, ← hc.kindAhead?]
  split
  next hKind =>
    refine .skip_bind ((h.expr 0 (by grind)).bind fun hCondition hCondition' => ?_)
    refine .consume_bind fun hThen => (h.block (by grind)).bind fun hBody hBody' => ?_
    refine (Twins.looping (h.elseParts (by grind))).bind fun hr hr' => .pure (fun s s' hs => ?_) ?_
    · simp [hs, hCondition', hBody', hr'.1, hr'.2]
    · exact Production.ifElse.derives ((derives_token hKind).append
        (hCondition.append (hThen.append (hBody.append hr))))
  next hKind =>
    refine .skip_bind ((h.expr 0 (by grind)).bind fun hCondition hCondition' => ?_)
    refine .consume_bind fun hDo => (h.block (by grind)).bind fun hBody hBody' => ?_
    refine .consume_bind fun hEnd => .pure (fun s s' hs => ?_) (Production.whileLoop.derives ?_)
    · simp [hs, hCondition', hBody']
    · exact (derives_token hKind).append (hCondition.append (hDo.append (hBody.append hEnd)))
  next hKind =>
    refine .skip_bind ((h.block (by grind)).bind fun hBody hBody' => .consume_bind fun hEnd => ?_)
    refine .pure (fun s s' hs => ?_)
      (Production.doBlock.derives ((derives_token hKind).append (hBody.append hEnd)))
    simp [hs, hBody']
  next hKind => exact .skip_bind (h.forLoop (by grind) (derives_token hKind))
  next hKind =>
    refine .skip_bind ((h.block (by grind)).bind fun hBody hBody' => .consume_bind fun hUntil => ?_)
    refine (h.expr 0 (by grind)).bind fun hCondition hCondition' => .pure (fun s s' hs => ?_)
      (Production.repeatLoop.derives ?_)
    · simp [hs, hCondition', hBody']
    · exact (derives_token hKind).append (hBody.append (hUntil.append hCondition))
  next hKind =>
    refine .skip_bind (ends_functionName.bind fun hName hName' => ?_)
    refine (h.functionBody (by grind) hc.span).bind fun hBody hBody' => .pure (fun s s' hs => ?_) ?_
    · simp [hs, hName', hBody']
    · exact (Production.functionStatement hBody.2).derives
        ((derives_token hKind).append (hName.append hBody.1))
  next hKind =>
    refine .skip_bind (.eat_bind (fun hFunction => .identifier_bind fun hName => ?_) fun hNot => ?_)
    · refine (h.functionBody (by grind) hc.span).bind fun hBody hBody' => .pure (fun s s' hs => ?_) ?_
      · simp [hs, hBody']
      · exact (Production.localFunction hBody.2).derives
          ((derives_token hKind).append (hFunction.append (hName.append hBody.1)))
    · refine (Twins.looping ends_locals).bind_eq fun {_ c₁} hNames => ?_
      refine .eat_ite_bind (R := V.Same relabelExprs)
        (P := fun values c₂ => c₁.Derives [.phrase (.initializers values)] c₂)
        (fun hAssign => (h.exprList (by grind)).mono fun hValues =>
          (Production.someInitializers hValues.1).derives (hAssign.append hValues.2))
        (fun hNot => .pure rfl (Production.noInitializers.derives hNot)) fun hValues hValues' => ?_
      refine .pure (fun s s' hs => ?_) (Production.localVars.derives
        ((derives_token hKind).append (hNot.append (hNames.2.append hValues))))
      simp [hs, hValues']
  next hKind =>
    refine .skip_bind (.identifier_bind fun hName => .consume_bind fun hEnd => ?_)
    refine .pure (fun s s' hs => ?_)
      (Production.label.derives ((derives_token hKind).append (hName.append hEnd)))
    simp [hs]
  next hKind =>
    refine .skip_bind (.pure (fun s s' hs => ?_) (Production.breakLoop.derives (derives_token hKind)))
    simp [hs]
  next hKind =>
    split
    next =>
      refine .skip_bind (.identifier_bind fun hName => .pure (fun s s' hs => ?_) ?_)
      · simp [hs]
      · exact Production.goto.derives ((derives_token hKind).append hName)
    next => exact h.exprStatement hn
  next => exact h.exprStatement hn

theorem Inner.Derives.statement :
    Ends V S c (statement inner) (V.Same Stmt.relabel) fun s c' =>
      c.Derives [.phrase (.statement s)] c' :=
  .get_bind fun hc => (h.statementShape hn).bind fun hShape hShape' =>
    .spanFrom_bind hc.span fun hs => .pure (hShape' _ _ hs) hShape

theorem Inner.Derives.returnStatement :
    Ends V S c (returnStatement inner) (V.Same Stmt.relabel) fun s c' =>
      c.Derives [.phrase (.statements [s])] c' := by
  refine .get_bind fun hStart => .consume_bind fun hReturn => .get_bind fun hc => ?_
  dsimp only
  rw [← hc.atBlockEnd, ← hc.isAt, Cursor.atResultsEnd_eq]
  refine .ite_bind (R := V.Same relabelExprs)
    (P := fun es c₂ => c.advance.Derives [.phrase (.results es)] c₂) ?_ ?_
  · split
    next hEnd => exact .pure rfl (Production.noResults.derives (derives_absent (by simpa using hEnd)))
    next hEnd =>
      refine (h.exprList (by grind)).mono fun hes =>
        Production.someResults.derives ((derives_absent ?_).append hes.2)
      cases hKind : c.advance.kind? with
      | none => rfl
      | some kind => simpa [hKind] using hEnd
  intro es es' c₂ hResults hResults'
  have hEat : Ends V S c₂ (eat .semicolon) Eq fun _ c₃ =>
      c.Derives [.phrase (.statements [.returnValues (c.span.merge c₃.previous) es])] c₃ := by
    refine .get_bind fun hc => ?_
    rw [← hc.isAt]
    split
    next hAt =>
      exact .skip_bind (.pure rfl (Production.returnsClosed.derives
        (hReturn.append (hResults.append (derives_token (kind?_of_isAt hAt))))))
    next hNot =>
      exact .pure rfl (Production.returns.derives
        (hReturn.append (hResults.append (derives_not hNot))))
  refine hEat.bind fun hAll _ => .spanFrom_bind hStart.span fun hs => .pure ?_ hAll
  simp [hs, hResults']

theorem Inner.Derives.statements (rounds : Nat) (hRounds : S → c.rest.length < rounds) :
    Ends V S c (statements inner rounds) (V.Same relabelStmts) fun body c' =>
      c.Derives [.phrase (.statements body)] c' := by
  induction rounds generalizing c with
  | zero => exact .tooDeep hRounds
  | succ rounds ih =>
    refine .get_bind fun hc => ?_
    rw [← hc.atBlockEnd, ← hc.isAt, ← hc.isAt, Cursor.atBlockEnd_eq]
    split
    next hEnd =>
      exact .pure rfl (Production.noStatements.derives (derives_absent (by simpa using hEnd)))
    next hEnd =>
    split
    next =>
      refine (h.returnStatement hn).bind fun hs hs' => .pure ?_ hs
      simp [hs']
    next hReturn =>
    split
    next hSemicolon =>
      exact .skip_bind ((ih (by grind) (by grind)).mono fun hBody => Production.semicolon.derives
        ((derives_token (kind?_of_isAt hSemicolon)).append hBody))
    next hSemicolon =>
      have hStart : c.kind?.any Token.Kind.endsStatements = false := by
        rw [Cursor.isAt] at hReturn hSemicolon
        cases hKind : c.kind? with
        | none => rfl
        | some kind =>
          simp only [hKind, decide_eq_true_eq, Option.some.injEq] at hReturn hSemicolon
          simpa [hKind, Token.Kind.endsStatements, hReturn, hSemicolon] using hEnd
      refine (h.statement hn).bind fun hs hs' => ?_
      have hLt := hs.length.2 rfl
      refine (ih (by grind) (by grind)).bind fun hBody hBody' => .pure ?_ ?_
      · simp [hs', hBody']
      · exact (Production.consStatement hs.isReturn).derives
          ((derives_absent hStart).append (hs.append hBody))

theorem Inner.Derives.blockWith :
    Ends V S c (blockWith inner) (V.Same Block.relabel) fun body c' =>
      c.Derives [.phrase (.block body)] c' := by
  refine .get_bind fun hc => (Twins.looping (h.statements hn)).bind fun hBody hBody' => ?_
  refine .spanFrom_bind hc.span fun hs => .pure ?_ (Production.block.derives hBody)
  simp [hBody', hs]

end

/-- One level follows the grammar if the level below it does. -/
theorem Inner.Derives.next : inner.next.Derives V (n + 1) where
  expr power _ _ hn := h.operation power fun hS => Nat.le_of_lt_succ (hn hS)
  block {_ _} hn := h.blockWith fun hS => Nat.le_of_lt_succ (hn hS)

end Levels

/-- The parsers follow the grammar at every level. -/
theorem inner_derives (levels : Nat) : (inner levels).Derives V levels := by
  induction levels with
  | zero => exact ⟨fun _ _ _ hn => .tooDeep hn, fun {_ _} hn => .tooDeep hn⟩
  | succ levels ih => exact ih.next

/-! ## All levels -/

theorem Twins.atAnyDepth {level : Inner → Parser α} {R : α → α → Prop} {P : α → Cursor → Prop}
    (h : Ends V S c (level (inner c.rest.length)) R P) : Ends V S c (atAnyDepth level) R P := by
  intro d hc
  have hRuns := h d hc
  unfold Parser.atAnyDepth
  rwa [← hc.length]

/-- Wherever an expression is read, all bounds suffice. -/
theorem ends_expr (c : Cursor) : Ends V True c expr (V.Same Expr.relabel) fun e c' =>
    c.Derives [.phrase (.expr 0 e)] c' :=
  .atAnyDepth ((inner_derives c.rest.length).operation 0 fun _ => Nat.le_refl _)

/-- A chunk is read to the end of the text. -/
theorem ends_chunk (c : Cursor) : Ends V True c chunk (V.Same Chunk.relabel) fun chunk c' =>
    c.Derives [.phrase (.block chunk.block)] c' ∧ c'.rest = [] ∧ chunk.nodeCount = c'.nextId ∧
      chunk.span = c.span.merge c'.span := by
  refine .get_bind fun hc => ?_
  have hBlock : Ends V True c (Parser.atAnyDepth blockWith) _ _ :=
    .atAnyDepth ((inner_derives c.rest.length).blockWith fun _ => Nat.le_refl _)
  refine hBlock.bind fun {block block' c₁} hBlock hBlock' => .get_bind fun {d₁} hEnd => ?_
  cases hKind : c₁.kind? with
  | some kind =>
    have hThrow := Twins.throw_unexpected (S := True) (α := Chunk) (R := V.Same Chunk.relabel)
      (P := fun chunk c' => c.Derives [.phrase (.block chunk.block)] c' ∧ c'.rest = [] ∧
        chunk.nodeCount = c'.nextId ∧ chunk.span = c.span.merge c'.span) hEnd .statement
    simpa only [hKind, hEnd.kind?.symm.trans hKind] using hThrow
  | none =>
    simp only [hEnd.kind?.symm.trans hKind]
    refine .pure ?_ ⟨hBlock, by simpa [Cursor.kind?] using hKind, rfl, rfl⟩
    simp only [Views.Same, Chunk.relabel, hBlock', V.merge hc.span hEnd.span, hEnd.nextId]

/-! ## One run -/

section Runs

variable {p : Parser α} {R : α → α → Prop} {P : α → Cursor → Prop} (h : Ends .unplaced S c p R P)
include h

theorem Twins.of_ok {a : α} {c' : Cursor} (hRun : p c = .ok (a, c')) : P a c' := by
  have hEnd := h c (.refl c)
  rw [hRun] at hEnd
  cases hEnd with
  | ok _ _ h => exact h

end Runs

end Parser

end LuaShape
