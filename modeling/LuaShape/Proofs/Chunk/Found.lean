import LuaShape.Proofs.Chunk.Completing

/-!
# Expressions found in a stream

An expression is made of tokens that stand next to one another.  It is `Found` in a stream if
reading an expression from these tokens alone gives it again.

Each expression inside a larger one is a phrase of its own.  What is derived from some tokens is
derived from them wherever they stand and whatever follows (`Cursor.Derives.within`): a phrase
asks what comes next only to see that it does not go on.
-/

namespace LuaShape

open List

theorem Span.merge_self (s : Span) : s.merge s = s := by
  simp [Span.merge]

namespace Token

/-- No token begins before an earlier one ends. -/
def Ordered (ts : List Token) : Prop := ts.Pairwise fun t u => t.span.stop ≤ u.span.start

theorem span_start_le_stop (t : Token) : t.span.start ≤ t.span.stop := by
  simp [span]

end Token

namespace Cursor

variable {c c' c'' : Cursor} {all : List Token}

/-- A place further on in the same stream. -/
structure Leads (c c' : Cursor) : Prop where
  tokens : ∃ ts, c.rest = ts ++ c'.rest ∧ c'.previous = (ts.getLast?.map Token.span).getD c.previous
  finish : c'.finish = c.finish

theorem Leads.refl (c : Cursor) : c.Leads c := ⟨⟨[], rfl, rfl⟩, rfl⟩

theorem Leads.trans (h : c.Leads c') (h' : c'.Leads c'') : c.Leads c'' := by
  obtain ⟨ts, hRest, hPrevious⟩ := h.tokens
  obtain ⟨us, hRest', hPrevious'⟩ := h'.tokens
  refine ⟨⟨ts ++ us, by rw [hRest, hRest', append_assoc], ?_⟩, h'.finish.trans h.finish⟩
  rw [hPrevious', hPrevious, getLast?_append]
  cases us.getLast? <;> rfl

theorem Leads.suffix (h : c.Leads c') : c'.rest <:+ c.rest := by
  obtain ⟨ts, hRest, -⟩ := h.tokens
  exact ⟨ts, hRest.symm⟩

theorem Leads.advance (c : Cursor) : c.Leads c.advance := by
  cases hRest : c.rest with
  | nil =>
    rw [show c.advance = c by simp [Cursor.advance, hRest]]
    exact .refl c
  | cons t rest =>
    rw [advance_of_rest hRest]
    exact ⟨⟨[t], hRest, rfl⟩, rfl⟩

theorem Leads.exists_segment (h : c.Leads c') (hLt : c'.rest.length < c.rest.length) :
    ∃ first last ts, c.rest = ts ++ c'.rest ∧ ts.head? = some first ∧ ts.getLast? = some last ∧
      c.span = first.span ∧ c'.previous = last.span := by
  obtain ⟨ts, hRest, hPrevious⟩ := h.tokens
  cases ts with
  | nil => simp [hRest] at hLt
  | cons first ts =>
    refine ⟨first, (first :: ts).getLast (by simp), first :: ts, hRest, rfl,
      getLast?_eq_some_getLast _, ?_, ?_⟩
    · simp [span, hRest]
    · rw [hPrevious, getLast?_eq_some_getLast (by simp)]
      rfl

/-- In a stream, what comes later starts later. -/
theorem Leads.start_le (h : c.Leads c') (hNonempty : c'.rest ≠ []) (hSuffix : c.rest <:+ all)
    (hOrdered : Token.Ordered all) : c.span.start ≤ c'.span.start := by
  obtain ⟨ts, hRest, -⟩ := h.tokens
  obtain ⟨u, rest, hRest'⟩ := exists_cons_of_ne_nil hNonempty
  have hPairs : Token.Ordered c.rest := hOrdered.sublist hSuffix.sublist
  cases ts with
  | nil => simp [span, hRest, hRest']
  | cons t ts =>
    rw [hRest, hRest', Token.Ordered, cons_append, pairwise_cons] at hPairs
    have hAfter := hPairs.1 u (by simp)
    simp only [span, hRest, hRest', cons_append]
    exact Nat.le_trans t.span_start_le_stop hAfter

/-- In a stream, what is read later ends later. -/
theorem Leads.stop_le (h : c.Leads c') (hLt : c'.rest.length < c.rest.length) (h' : c'.Leads c'')
    (hSuffix : c.rest <:+ all) (hOrdered : Token.Ordered all) :
    c'.previous.stop ≤ c''.previous.stop := by
  obtain ⟨first, last, ts, hRest, -, hLast, -, hPrevious⟩ := h.exists_segment hLt
  obtain ⟨us, hRest', hPrevious'⟩ := h'.tokens
  have hPairs : Token.Ordered c.rest := hOrdered.sublist hSuffix.sublist
  cases hLast' : us.getLast? with
  | none => simp [hPrevious', hLast']
  | some last' =>
    rw [hPrevious', hLast', hPrevious]
    rw [hRest, hRest', Token.Ordered, pairwise_append] at hPairs
    have hBefore := hPairs.2.2 last (mem_of_getLast? hLast) last'
      (by simp [mem_of_getLast? hLast'])
    exact Nat.le_trans hBefore last'.span_start_le_stop

theorem previous_advance (h : c.rest ≠ []) : c.advance.previous = c.span := by
  obtain ⟨t, rest, hRest⟩ := exists_cons_of_ne_nil h
  rw [advance_of_rest hRest, span, hRest]

/-- In a stream, the token read last does not come before the one read first. -/
theorem Leads.segment_le (h : c.Leads c') (hLt : c'.rest.length < c.rest.length)
    (hSuffix : c.rest <:+ all) (hOrdered : Token.Ordered all) :
    c.span.start ≤ c'.previous.start ∧ c.span.stop ≤ c'.previous.stop := by
  obtain ⟨first, last, ts, hRest, hFirst, hLast, hStart, hPrevious⟩ := h.exists_segment hLt
  have hPairs : Token.Ordered ts := by
    refine hOrdered.sublist (List.Sublist.trans ?_ hSuffix.sublist)
    simp [hRest]
  rw [hStart, hPrevious]
  cases ts with
  | nil => simp at hFirst
  | cons t ts =>
    obtain rfl : t = first := by simpa using hFirst
    rcases mem_cons.1 (mem_of_getLast? hLast) with rfl | hMem
    · simp
    · have hBefore := (pairwise_cons.1 hPairs).1 last hMem
      have hFirstLe := t.span_start_le_stop
      have hLastLe := last.span_start_le_stop
      omega

/-- From the next token through the one read last. -/
theorem Leads.merge_eq (h : c.Leads c') (hLt : c'.rest.length < c.rest.length)
    (hSuffix : c.rest <:+ all) (hOrdered : Token.Ordered all) :
    c.span.merge c'.previous = ⟨c.span.start, c'.previous.stop⟩ := by
  obtain ⟨hStart, hStop⟩ := h.segment_le hLt hSuffix hOrdered
  rw [Span.merge, Nat.min_eq_left hStart, Nat.max_eq_right hStop]

theorem Derives.leads {symbols : List Symbol} (h : c.Derives symbols c') : c.Leads c' := by
  induction h with
  | nil c => exact .refl c
  | slot _ _ ih => exact (Leads.advance _).trans ih
  | mint _ ih => exact ⟨ih.tokens, ih.finish⟩
  | absent _ _ ih => exact ih
  | phrase _ _ _ ihInside ih => exact ihInside.trans ih

/-! ## Tokens on their own -/

/-- The place in a stream that lacks the last `d` tokens and ends at `f`; where `n` tokens or more
are left, the token before is at `q`. -/
def within (d n : Nat) (f q : Span) (c : Cursor) : Cursor where
  rest := c.rest.take (c.rest.length - d)
  finish := f
  previous := if n ≤ c.rest.length then q else c.previous
  nextId := c.nextId

end Cursor

/-- Whether blocks stand between tokens; `b` says whether a token stands in front. -/
def Symbol.enclosesBlocks (b : Bool) : List Symbol → Bool
  | [] => true
  | .phrase (.block _) :: symbols => b && symbols.any isFilled && enclosesBlocks b symbols
  | symbol :: symbols => enclosesBlocks (b || symbol.isFilled) symbols

theorem Symbol.enclosesBlocks_phrase {b : Bool} {p : Phrase} {symbols : List Symbol}
    (hp : ∀ body, p ≠ .block body) :
    enclosesBlocks b (.phrase p :: symbols) = enclosesBlocks (b || p.isFilled) symbols := by
  cases p <;> first | exact absurd rfl (hp _) | rfl

namespace Production

variable {start last : Span} {p : Phrase} {inside : List Symbol}

theorem enclosesBlocks (h : Production start last p inside) :
    Symbol.enclosesBlocks false inside = true := by
  cases h <;> rfl

/-- A phrase without tokens has no place, unless it is a block. -/
theorem replace (h : Production start last p inside) (hInside : inside.any Symbol.isFilled = false)
    (hp : ∀ body, p ≠ .block body) (start' last' : Span) : Production start' last' p inside := by
  cases h <;> first | exact absurd rfl (hp _) | (cases hInside; done) | constructor

end Production

namespace Cursor

theorem startWith_take {tests : List (Token.Kind → Bool)} {ts : List Token} (n : Nat)
    (h : Token.startWith tests ts = false) : Token.startWith tests (ts.take n) = false := by
  induction tests generalizing ts n with
  | nil => cases h
  | cons test tests ih =>
    cases ts with
    | nil => simpa using h
    | cons t ts =>
      cases n with
      | zero => rfl
      | succ n =>
        simp only [Token.startWith, take_succ_cons, Bool.and_eq_false_iff] at h ⊢
        exact h.imp id (ih n)

variable {c c' : Cursor} {d n : Nat} {f q : Span}

theorem rest_within_of_lt (h : d < c.rest.length) : ∃ t rest, c.rest = t :: rest ∧
    (c.within d n f q).rest = t :: rest.take (rest.length - d) := by
  cases hRest : c.rest with
  | nil => simp [hRest] at h
  | cons t rest =>
    rw [hRest, length_cons] at h
    refine ⟨t, rest, rfl, ?_⟩
    simp only [within, hRest, length_cons]
    rw [Nat.succ_sub (Nat.le_of_lt_succ h), take_succ_cons]

theorem span_within (h : d < c.rest.length) : (c.within d n f q).span = c.span := by
  obtain ⟨t, rest, hRest, hWithin⟩ := rest_within_of_lt (n := n) (f := f) (q := q) h
  simp only [span, hRest, hWithin]

theorem advance_within (h : d < c.rest.length) (hn : c.rest.length ≤ n) :
    (c.within d n f q).advance = c.advance.within d n f q := by
  obtain ⟨t, rest, hRest, hWithin⟩ := rest_within_of_lt (n := n) (f := f) (q := q) h
  rw [advance_of_rest hWithin, advance_of_rest hRest]
  rw [hRest, length_cons] at hn
  simp [within, Nat.not_le.2 hn]

/-- What is derived is derived from its tokens alone. -/
theorem Derives.within {symbols : List Symbol} (h : c.Derives symbols c') {b : Bool}
    (hd : d ≤ c'.rest.length) (hn : c.rest.length + b.toNat ≤ n)
    (hBlocks : Symbol.enclosesBlocks b symbols = true) :
    (c.within d n f q).Derives symbols (c'.within d n f q) := by
  induction h generalizing b with
  | nil c => exact .nil _
  | @slot c _ _ _ hSlot h ih =>
    have hLength := hSlot.length
    have hLe := h.length.1
    obtain ⟨t, rest, hRest, hFits⟩ := hSlot
    have hRoom : d < c.rest.length := by omega
    obtain ⟨_, _, hRest', hWithin⟩ := rest_within_of_lt (n := n) (f := f) (q := q) hRoom
    obtain ⟨rfl, rfl⟩ := List.cons.inj (hRest.symm.trans hRest')
    refine .slot ⟨t, _, hWithin, hFits⟩ ?_
    rw [advance_within hRoom (by omega)]
    exact ih (b := true) hd (by simp only [Bool.toNat_true]; omega)
      (by simpa [Symbol.enclosesBlocks, Symbol.isFilled] using hBlocks)
  | mint h ih =>
    exact .mint (ih hd hn (by simpa [Symbol.enclosesBlocks, Symbol.isFilled] using hBlocks))
  | absent hTests h ih =>
    exact .absent (startWith_take _ hTests)
      (ih hd hn (by simpa [Symbol.enclosesBlocks, Symbol.isFilled] using hBlocks))
  | @phrase c c₁ _ p inside symbols hProduction hInside h ihInside ih =>
    have hLe := h.length.1
    have hLe' := hInside.length.1
    have hInside' := ihInside (b := false) (by omega) (by simp only [Bool.toNat_false]; omega)
      hProduction.enclosesBlocks
    -- a place is seen as it was if there is a token on the side where it is looked up
    have hPlaced : d < c.rest.length → c₁.rest.length < n →
        (c.within d n f q).Derives [.phrase p] (c₁.within d n f q) := by
      intro hRoom hBehind
      refine Production.derives ?_ hInside'
      rw [span_within hRoom]
      simpa [Cursor.within, Nat.not_le.2 hBehind] using hProduction
    cases hFilled : inside.any Symbol.isFilled with
    | true =>
      have hLt := hInside.length.2 hFilled
      obtain ⟨b', hBlocks⟩ : ∃ b', Symbol.enclosesBlocks b' symbols = true := by
        cases p <;> first | exact ⟨_, hBlocks⟩ | exact ⟨_, (Bool.and_eq_true_iff.1 hBlocks).2⟩
      have hb := b'.toNat_le
      exact (hPlaced (by omega) (by omega)).append (ih hd (by omega) hBlocks)
    | false =>
      by_cases hBlock : ∃ body, p = .block body
      · obtain ⟨body, rfl⟩ := hBlock
        simp only [Symbol.enclosesBlocks, Bool.and_eq_true] at hBlocks
        obtain ⟨⟨rfl, hNext⟩, hBlocks⟩ := hBlocks
        have hLt := h.length.2 hNext
        simp only [Bool.toNat_true] at hn
        refine (hPlaced (by omega) (by omega)).append (ih hd ?_ hBlocks)
        simp only [Bool.toNat_true]
        omega
      · have hNone : p.isFilled = false := Bool.eq_false_iff.2 fun hp => by
          rw [hProduction.any_isFilled hp] at hFilled
          cases hFilled
        have hp : ∀ body, p ≠ .block body := fun body hp => hBlock ⟨body, hp⟩
        refine Derives.phrase (hProduction.replace hFilled hp _ _) hInside' ?_
        rw [Symbol.enclosesBlocks_phrase hp, hNone, Bool.or_false] at hBlocks
        exact ih hd (b := b) (by omega) hBlocks

/-! ## Phrases that are expressions -/

/-- Operators that bind tighter than some power bind tighter than the least one. -/
theorem Derives.spine_zero {power : Nat} {e : Expr}
    (h : c.Derives [.phrase (.spine power e)] c') : c.Derives [.phrase (.spine 0 e)] c' := by
  have hPasses : Passes (fun p c c' => c.Derives [.phrase p] c' ∧ ∀ power e, p = .spine power e →
      c.Derives [.phrase (.spine 0 e)] c') [.phrase (.spine power e)] c c' := by
    refine h.passes fun {p inside c c'} hProduction hDerives hInside =>
      ⟨hProduction.derives hDerives, ?_⟩
    rintro power e rfl
    cases hProduction with
    | ofSimple => exact Production.ofSimple.derives hDerives
    | unary => exact Production.unary.derives hDerives
    | binary hLt =>
      obtain ⟨c₁, ⟨-, hLeft⟩, hToken, c₂, ⟨hRight, -⟩, rfl, rfl⟩ := hInside
      exact (Production.binary (Nat.zero_lt_of_lt hLt)).derives ((hLeft _ _ rfl).append
        (.slot hToken (hRight.append (derives_mint c₂))))
  obtain ⟨_, ⟨-, hSpine⟩, rfl⟩ := hPasses
  exact hSpine _ _ rfl

end Cursor

/-- The expression that a phrase is. -/
def Phrase.whole? : Phrase → Option Expr
  | .spine _ e | .simple e | .chain e => some e
  | _ => none

namespace Cursor

variable {c c' : Cursor}

/-- A phrase behind which nothing comes is an expression. -/
theorem Derives.expr_of_nil {p : Phrase} {e : Expr} (h : c.Derives [.phrase p] c') (hp : p.whole? = some e)
    (hNil : c'.rest = []) : c.Derives [.phrase (.expr 0 e)] c' := by
  have hNone : ∀ test, c'.Derives [.absent [test]] c' := fun test =>
    derives_absent (by simp [kind?, hNil])
  have hSpine : ∀ {e}, c.Derives [.phrase (.spine 0 e)] c' → c.Derives [.phrase (.expr 0 e)] c' :=
    fun h => Production.expr.derives (h.append (hNone _))
  have hSimple : ∀ {e}, c.Derives [.phrase (.simple e)] c' → c.Derives [.phrase (.spine 0 e)] c' := by
    intro e h
    refine Production.ofSimple.derives ((derives_absent ?_).append h)
    cases hKind : c.kind? with
    | none => rfl
    | some kind =>
      have hStarts : kind.startsSimple = true := h.starts hKind
      cases kind <;> first | rfl | cases hStarts
  cases p <;> cases hp
  case spine => exact hSpine h.spine_zero
  case simple => exact hSpine (hSimple h)
  case chain =>
      refine hSpine (hSimple (Production.ofSuffixed.derives ((derives_absent ?_).append
        (Production.suffixed.derives (h.append (hNone _))))))
      cases hKind : c.kind? with
      | none => rfl
      | some kind =>
        have hStarts : kind.startsPrefix = true := h.starts hKind
        simp [hStarts]

end Cursor

/-! ## Places -/

/-- An expression reaches from its first token through its last one. -/
def Phrase.Covers (c c' : Cursor) : Phrase → Prop
  | .expr _ e | .spine _ e | .simple e | .suffixed e | .chain e =>
    e.span = ⟨c.span.start, c'.previous.stop⟩
  | _ => True

namespace Cursor

variable {c c' : Cursor} {all : List Token}

theorem Derives.covers {symbols : List Symbol} (hOrdered : Token.Ordered all)
    (h : c.Derives symbols c') :
    Passes (fun p c c' => c.Derives [.phrase p] c' ∧ (c.rest <:+ all → p.Covers c c')) symbols c c' := by
  refine h.passes fun {p inside c c'} hProduction hDerives hInside =>
    ⟨hProduction.derives hDerives, fun hSuffix => ?_⟩
  have hMerge : p.isFilled = true → c.span.merge c'.previous = ⟨c.span.start, c'.previous.stop⟩ :=
    fun hFilled => hDerives.leads.merge_eq (hDerives.length.2 (hProduction.any_isFilled hFilled))
      hSuffix hOrdered
  cases hProduction
  case name =>
    obtain ⟨hSlot, rfl, rfl⟩ := hInside
    rw [Phrase.Covers, previous_minted, previous_advance hSlot.rest_ne_nil]
    rfl
  case ofSuffixed | ofSimple =>
    obtain ⟨-, _, ⟨-, hCovers⟩, rfl⟩ := hInside
    exact hCovers hSuffix
  case suffixed | expr =>
    obtain ⟨_, ⟨-, hCovers⟩, -, rfl⟩ := hInside
    exact hCovers hSuffix
  case unary =>
    obtain ⟨hSlot, c₁, ⟨hExpr, hCovers⟩, rfl, rfl⟩ := hInside
    have hLength := hSlot.length
    have hLt := hExpr.length.2 rfl
    have hLeads := Leads.advance c
    have hStart : c.span.start ≤ c.advance.span.start :=
      hLeads.start_le (fun hNil => by simp [hNil] at hLt) hSuffix hOrdered
    have hStop : c.span.stop ≤ c₁.previous.stop := by
      rw [← previous_advance hSlot.rest_ne_nil]
      exact hLeads.stop_le (by omega) hExpr.leads hSuffix hOrdered
    show c.span.merge _ = _
    rw [hCovers (hLeads.suffix.trans hSuffix), Span.merge, Nat.min_eq_left hStart,
      Nat.max_eq_right hStop]
    rfl
  case binary =>
    obtain ⟨c₁, ⟨hLeft, hCovers⟩, hSlot, c₂, ⟨hRight, hCovers'⟩, rfl, rfl⟩ := hInside
    have hLt := hRight.length.2 rfl
    have hLeads := hLeft.leads.trans (.advance c₁)
    have hStart : c.span.start ≤ c₁.advance.span.start :=
      hLeads.start_le (fun hNil => by simp [hNil] at hLt) hSuffix hOrdered
    have hStop : c₁.previous.stop ≤ c₂.previous.stop :=
      hLeft.leads.stop_le (hLeft.length.2 rfl) ((Leads.advance c₁).trans hRight.leads) hSuffix hOrdered
    show Span.merge _ _ = _
    rw [hCovers hSuffix, hCovers' (hLeads.suffix.trans hSuffix), Span.merge,
      Nat.min_eq_left hStart, Nat.max_eq_right hStop]
    rfl
  all_goals first | trivial | exact hMerge rfl

end Cursor

namespace Parser

/-- From these tokens alone, wherever they stand, the expression is read and no token is left. -/
def Rereads (ts : List Token) (e : Expr) : Prop :=
  ∃ id, ∀ previous finish, ∃ c', expr ⟨ts, finish, previous, id⟩ = .ok (e, c') ∧ c'.rest = []

/-- The expression is read from tokens that stand next to one another in the stream, and covers
them. -/
def Found (all : List Token) (e : Expr) : Prop :=
  ∃ before ts after, all = before ++ (ts ++ after) ∧ Rereads ts e ∧
    ∃ first last, ts.head? = some first ∧ ts.getLast? = some last ∧
      e.span = ⟨first.span.start, last.span.stop⟩

/-- All expressions among the parts of a tree are found in the stream. -/
def FoundIn (all : List Token) (nodes : List Node) : Prop := ∀ e, .expr e ∈ nodes → Found all e

section FoundIn

variable {all : List Token} {nodes nodes' : List Node}

@[simp]
theorem foundIn_nil : FoundIn all [] := by
  simp [FoundIn]

@[simp]
theorem foundIn_append :
    FoundIn all (nodes ++ nodes') ↔ FoundIn all nodes ∧ FoundIn all nodes' := by
  simp [FoundIn, or_imp, forall_and]

@[simp]
theorem foundIn_expr {e : Expr} : FoundIn all [.expr e] ↔ Found all e := by
  simp [FoundIn]

@[simp]
theorem foundIn_cons_field {f : Field} : FoundIn all (.field f :: nodes) ↔ FoundIn all nodes := by
  simp [FoundIn]

@[simp]
theorem foundIn_cons_function {body : FunctionBody} :
    FoundIn all (.function body :: nodes) ↔ FoundIn all nodes := by
  simp [FoundIn]

@[simp]
theorem foundIn_cons_block {body : Block} :
    FoundIn all (.block body :: nodes) ↔ FoundIn all nodes := by
  simp [FoundIn]

@[simp]
theorem foundIn_cons_statement {s : Stmt} :
    FoundIn all (.statement s :: nodes) ↔ FoundIn all nodes := by
  simp [FoundIn]

end FoundIn

section Segments

variable {all : List Token} {c c' : Cursor} {e : Expr}

/-- A phrase that is an expression is found, because it is read again. -/
theorem found_of_derives {p : Phrase} (hOrdered : Token.Ordered all) (hSuffix : c.rest <:+ all)
    (h : c.Derives [.phrase p] c') (hp : p.whole? = some e) : Found all e := by
  have hLt : c'.rest.length < c.rest.length := h.length.2 (by cases p <;> first | rfl | cases hp)
  obtain ⟨first, last, ts, hRest, hFirst, hLast, hStart, hPrevious⟩ := h.leads.exists_segment hLt
  have hSpan : e.span = ⟨first.span.start, last.span.stop⟩ := by
    obtain ⟨_, ⟨-, hCovers⟩, rfl⟩ := h.covers hOrdered
    rw [← hStart, ← hPrevious]
    cases p <;> cases hp <;> exact hCovers hSuffix
  obtain ⟨before, hBefore⟩ := hSuffix
  refine ⟨before, ts, c'.rest, by rw [← hBefore, hRest], ⟨c.nextId, fun previous finish => ?_⟩,
    first, last, hFirst, hLast, hSpan⟩
  have hAlone : c.within c'.rest.length c.rest.length finish previous =
      ⟨ts, finish, previous, c.nextId⟩ := by
    simp [Cursor.within, hRest]
  have hDerives := h.within (b := false) (f := finish) (q := previous) (Nat.le_refl _)
    (Nat.le_refl c.rest.length) (by cases p <;> first | rfl | cases hp)
  rw [hAlone] at hDerives
  have hNil : (c'.within c'.rest.length c.rest.length finish previous).rest = [] := by
    simp [Cursor.within]
  exact ⟨_, operation_of_derives (hDerives.expr_of_nil hp hNil) (Nat.le_refl _), hNil⟩

end Segments

end Parser

open LuaShape.Parser (Found FoundIn)

theorem Phrase.whole_of_mem_tops {p : Phrase} {e : Expr} (h : .expr e ∈ p.tops) :
    e ∈ p.whole? ∨ p = .args [e] ∧ Expr.standAlone [e] = true := by
  have hExpr {e' : Expr} (he' : .expr e ∈ e'.tops) : e = e' := by
    cases e' <;> simpa [Expr.tops] using he'
  unfold Phrase.tops at h
  split at h
  case h_1 | h_2 | h_3 => exact .inl (hExpr h ▸ rfl)
  case h_4 | h_5 =>
    obtain rfl := Node.expr.inj (mem_singleton.1 h)
    exact .inr ⟨rfl, rfl⟩
  case h_8 s => cases s <;> simp [Stmt.tops] at h
  all_goals simp at h

theorem Production.foundIn {all : List Token} {start last : Span} {p : Phrase}
    {inside : List Symbol} (h : Production start last p inside)
    (hInside : FoundIn all (inside.flatMap Symbol.nodes)) (hOwn : ∀ e ∈ p.whole?, Found all e)
    (hAlone : ∀ e, p = .args [e] → Expr.standAlone [e] = true → Found all e) :
    FoundIn all p.nodes := by
  intro e he
  obtain hIn | hTop := h.mem_nodes he
  · exact hInside e hIn
  obtain hWhole | ⟨hArgs, hStands⟩ := Phrase.whole_of_mem_tops hTop
  · exact hOwn e hWhole
  · exact hAlone e hArgs hStands

/-- Every expression inside what is derived is found. -/
theorem Cursor.Derives.foundIn {all : List Token} {c c' : Cursor} {symbols : List Symbol}
    (hOrdered : Token.Ordered all) (h : c.Derives symbols c') (hSuffix : c.rest <:+ all) :
    FoundIn all (symbols.flatMap Symbol.nodes) := by
  induction h with
  | nil => simp
  | @slot c _ _ _ _ _ ih => exact ih ((Leads.advance c).suffix.trans hSuffix)
  | mint _ ih | absent _ _ ih => exact ih hSuffix
  | @phrase c c₁ _ p inside _ hProduction hInside h ihInside ih =>
    refine Parser.foundIn_append.2 ⟨hProduction.foundIn (ihInside hSuffix) (fun e he => ?_) ?_,
      ih (hInside.leads.suffix.trans hSuffix)⟩
    · exact Parser.found_of_derives hOrdered hSuffix (hProduction.derives hInside) he
    · -- a string or a table without parentheses is an expression as it stands
      rintro e rfl hAlone
      cases hProduction with
      | someArgs =>
        have hFound : FoundIn all e.inside ∧ Found all e := by
          simpa [Symbol.nodes, Phrase.nodes, exprParts, Expr.parts_eq] using ihInside hSuffix
        exact hFound.2
      | bareString =>
        have hSpan : c.span.merge c₁.previous = c.span := by
          cases hInside with
          | slot hSlot hRest => cases hRest with
            | mint hNil =>
              cases hNil
              rw [previous_minted, previous_advance hSlot.rest_ne_nil, Span.merge_self]
        have hString : c.Derives [.phrase (.simple (.string ⟨_, c.span.merge c₁.previous⟩ _))] c₁ :=
          Production.string.derives hInside
        rw [hSpan] at hString
        exact Parser.found_of_derives hOrdered hSuffix hString rfl
      | bareTable =>
        exact Parser.found_of_derives hOrdered hSuffix (Production.table.derives hInside) rfl

namespace Parser

/-- **Every expression of a chunk is found among the tokens it was read from.** -/
theorem foundIn_of_chunk {c c' : Cursor} {chunk : Chunk} (hOrdered : Token.Ordered c.rest)
    (h : Parser.chunk c = .ok (chunk, c')) : FoundIn c.rest chunk.parts := by
  simpa [Symbol.nodes, Phrase.nodes, Chunk.parts] using
    ((ends_chunk c).of_ok h).1.foundIn hOrdered (suffix_refl _)

end Parser

end LuaShape
