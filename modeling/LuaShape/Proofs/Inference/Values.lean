import LuaShape.Proofs.Inference.Effect
import LuaShape.Proofs.Inference.Trace

/-!
# The values that reading makes

Reading turns every expression into a new term and gives each such term to at most one
name or field.  What is in hand is known, and the terms in hand may be stored.  An act makes
steps, and hands out what is known again (`Act.changes`).  The terms in hand stay storable until
they are put out of hand, because an act stores nothing but what it puts out of hand and new
terms (`Held.step`).

Main result: `changes_readBlock`.
-/

namespace LuaShape

open List

open Inference

namespace Read

theorem atSlot_ne_literal (slot : Nat) (t : Term) (value : Literal) :
    atSlot slot t ≠ .literal value := by
  unfold atSlot
  split <;> nofun

/-- The operands of a later slot of a call are those of the call. -/
theorem atSlot_eq_operation {slot : Nat} {t : Term} {op : Operator} {operands : List TermId}
    (h : atSlot slot t = .operation op operands) : ∃ first, t = .operation (.call first) operands := by
  unfold atSlot at h
  split at h <;> cases h
  exact ⟨_, rfl⟩

theorem parts_atSlot {slot : Nat} {t : Term} {v : TermId} (h : v ∈ (atSlot slot t).parts) :
    v ∈ t.parts := by
  unfold atSlot at h
  split at h
  · exact h
  · cases h
  · cases h

end Read

namespace Inference

/-- Something in hand is known, and a term may be stored. -/
def KnowsItem (s : Inference) : Item → Prop
  | .term v => s.Storable v
  | .table x => s.KnowsTable x
  | .function id => s.KnowsFunction id
  | .symbol _ => True

end Inference

namespace Act

/-- The terms that an act may store: the one it puts out of hand, and new ones. -/
def Stores (d : Act) (s : Inference) (v : TermId) : Prop :=
  d.taken? = some (.term v) ∨ s.terms.size ≤ v.index

variable {hand : List Item} {r : Reading}

/-- An act that hands out no term. -/
theorem changes_of_given {d : Act} (hKnown : ∀ item ∈ d.given r, (d.run r).inference.KnowsItem item)
    (hGiven : ∀ v, .term v ∉ d.given r)
    (h : Changes (d.Stores r.inference) r.inference (d.run r).inference) :
    Changes (d.Stores r.inference) r.inference (d.run r).inference ∧
      ∀ item ∈ d.given r, (d.run r).inference.KnowsItem item ∧
        ∀ v, item = .term v → d.Stores r.inference v :=
  ⟨h, fun item hItem => ⟨hKnown item hItem, fun v hv => absurd (hv ▸ hItem) (hGiven v)⟩⟩

/-- An act that hands out nothing. -/
theorem changes_of_nothing {d : Act} (hGiven : d.given r = [])
    (h : Changes (d.Stores r.inference) r.inference (d.run r).inference) :
    Changes (d.Stores r.inference) r.inference (d.run r).inference ∧
      ∀ item ∈ d.given r, (d.run r).inference.KnowsItem item ∧
        ∀ v, item = .term v → d.Stores r.inference v := by
  rw [hGiven]
  exact ⟨h, nofun⟩

/-- A new term that is no literal of a table. -/
theorem changes_new {P : TermId → Prop} (hs : r.inference.Sound) {t : Term}
    (ht : r.inference.LinksTerm t) (hTable : ∀ x, t ≠ .literal (.table x))
    (hArgs : ∀ slot callee args, t = .operation (.call slot) (callee :: args) →
      ∀ arg ∈ args, r.inference.IsHere arg) :
    Changes P r.inference (r.inference.alloc t).2 ∧
      (r.inference.alloc t).2.Storable ⟨r.inference.terms.size⟩ :=
  ⟨.single (.alloc ht), hs.storable_alloc ht (fun x hx => absurd hx (hTable x)) hArgs⟩

/-- All that an act does is steps.  What it hands out is known, and the terms among it may be
stored. -/
theorem changes (hs : r.inference.Sound) (hHand : ∀ item ∈ hand, r.inference.KnowsItem item)
    {d : Act} (hFits : d.Fits hand r) :
    Changes (d.Stores r.inference) r.inference (d.run r).inference ∧
      ∀ item ∈ d.given r, (d.run r).inference.KnowsItem item ∧
        ∀ v, item = .term v → d.Stores r.inference v := by
  have hTerm : ∀ v, .term v ∈ hand → r.inference.Storable v := fun v hv => hHand _ hv
  cases d with
  | tell report =>
    cases report with
    | term t =>
      have hLinks : r.inference.LinksTerm t := by
        refine ⟨fun v hv => (hTerm v (hFits.1 _ (by simp [Report.items, hv]))).known,
          fun x hx => absurd hx (hFits.2.1 x), fun id hId => ?_⟩
        exact hHand (.function id) (hFits.1 _ (by simp [Report.items, hId]))
      obtain ⟨hChanges, hStorable⟩ := changes_new hs hLinks hFits.2.1 (by
        rintro slot callee args rfl arg hArg
        exact (hTerm arg (hFits.1 _ (by simp [Report.items, Term.parts, hArg]))).here)
      exact ⟨hChanges, forall_mem_singleton.2 ⟨hStorable, fun _ hv =>
        .inr (Nat.le_of_eq (congrArg TermId.index (Item.term.inj hv)))⟩⟩
    | object function symbol value =>
      obtain ⟨hChanges, hStorable, hOrigin⟩ :=
        storable_addBuiltObject hs function symbol (hTerm value (hFits _ (by simp [Report.items])))
      refine ⟨hChanges, forall_mem_singleton.2 ⟨hStorable, ?_⟩⟩
      rintro v ⟨⟩
      exact hOrigin.imp_left fun hEq => by rw [taken?, hEq]
    | assignment target value inside =>
      refine changes_of_nothing rfl ((changes_addAssignment hs target inside (hTerm value
        (hFits _ (by simp [Report.items])))).mono fun v hv => ?_)
      exact hv.imp_left fun hEq => by rw [taken?, hEq]
    | entry table key value inside =>
      refine changes_of_nothing rfl ((changes_addTableField hs (hHand (.table table)
        (hFits _ (by simp [Report.items]))) key inside (hTerm value
        (hFits _ (by simp [Report.items])))).mono fun v hv => ?_)
      exact .inl (by rw [taken?, hv])
    | binding | table => exact hFits.elim
    | use id allowed =>
      refine changes_of_nothing rfl (changes_addUsage ?_ allowed)
      rcases hFits with hId | ⟨v, -, hPart⟩
      · exact (hTerm id hId).known
      · exact (hs.grounded.term v).part id hPart
    | moduleLevel => exact changes_of_nothing rfl (.single .aside)
    | function name =>
      exact changes_of_given (forall_mem_singleton.2
        (r.inference.knowsFunction_newFunction name)) (by simp [given])
        (.single ⟨.newFunction name, fun hs => hs.leadsTo_newFunction name⟩)
    | receiver id base =>
      exact changes_of_nothing rfl
        (changes_setReceiver id (hTerm base (hFits _ (by simp [Report.items]))).known)
    | parameters id =>
      exact changes_of_nothing rfl (.single (.modifyFunction id fun _ _ _ hr => { hr with }))
    | selfValue symbol value =>
      exact changes_of_nothing rfl
        (.single (.bind symbol (hTerm value (hFits _ (by simp [Report.items]))).known))
    | returned function slot id =>
      exact changes_of_nothing rfl
        (changes_addReturn function slot (hTerm id (hFits _ (by simp [Report.items]))).known)
    | call id =>
      exact changes_of_nothing rfl
        (changes_addCall hs.grounded (hTerm id (hFits _ (by simp [Report.items]))).known)
    | method base name id isColon =>
      exact changes_of_nothing rfl (changes_methodDefined hs.grounded
        (hTerm base (hFits _ (by simp [Report.items]))).known name id isColon)
    | functionEnd id => exact changes_of_nothing rfl (changes_endFunction hs.grounded id)
    | require argument => exact changes_of_nothing rfl (changes_resolveRequire argument)
  | construct =>
    have hTable : Changes (Act.construct.Stores r.inference) r.inference
        (r.inference.newTable "table").2 := .single (.newTable "table")
    have hKnown := r.inference.knowsTable_newTable "table"
    obtain ⟨hLiteral, hStorable⟩ := (hTable.sound hs).storable_literal
      (r.inference.table?_newTable_self "table") rfl hKnown
    refine ⟨hTable.trans hLiteral, forall_mem_cons.2 ⟨⟨hStorable, fun _ hv =>
      .inr (Nat.le_of_eq (congrArg TermId.index (Item.term.inj hv)))⟩,
      forall_mem_singleton.2 ⟨?_, fun _ hv => by cases hv⟩⟩⟩
    exact hLiteral.table (hTable.leadsTo hs.grounded).grounded hKnown
  | further slot first =>
    have hLinks : r.inference.LinksTerm (Read.atSlot slot (r.inference.term first)) :=
      ⟨fun v hv => (hs.grounded.term first).part v (Read.parts_atSlot hv),
        fun x hx => absurd hx (Read.atSlot_ne_literal _ _ _),
        fun id hId => absurd hId (Read.atSlot_ne_literal _ _ _)⟩
    obtain ⟨hChanges, hStorable⟩ := changes_new hs hLinks
      (fun _ => Read.atSlot_ne_literal _ _ _) fun other callee args hCall => by
        obtain ⟨_, hEq⟩ := Read.atSlot_eq_operation hCall
        refine (hTerm first hFits).args callee args ?_
        rw [Arena.callParts?, show r.inference.terms.get first = _ from hEq]
    exact ⟨hChanges, forall_mem_singleton.2 ⟨hStorable, fun _ hv =>
      .inr (Nat.le_of_eq (congrArg TermId.index (Item.term.inj hv)))⟩⟩
  | bind kind name =>
    exact changes_of_given (by simp [given, Inference.KnowsItem]) (by simp [given])
      (.single ⟨.mint kind name, fun hs => hs.leadsTo_mint kind name⟩)
  | note | enter | exit | nest | leave => exact changes_of_nothing rfl .refl

end Act

/-- What is in hand is known, and the terms in hand are different ones. -/
structure Held (hand : List Item) (s : Inference) : Prop where
  known : ∀ item ∈ hand, s.KnowsItem item
  once : ∀ v, hand.count (.term v) ≤ 1

/-- An act hands out nothing twice. -/
theorem Act.nodup_given (r : Reading) (d : Act) : (d.given r).Nodup := by
  unfold given
  split <;> simp

/-- What is in hand behind an act is known, and its terms are different ones. -/
theorem Held.step {hand : List Item} {r : Reading} {d : Act} (h : Held hand r.inference)
    (hs : r.inference.Sound) (hFits : d.Fits hand r) :
    Held (d.hand hand r) (d.run r).inference := by
  obtain ⟨hChanges, hGiven⟩ := Act.changes hs h.known hFits
  have hLater := (hChanges.leadsTo hs.grounded).later
  have hSub := d.rest_sublist hand
  -- What the act may store is not in hand any more.
  have hKept : ∀ v, .term v ∈ d.rest hand → ¬ d.Stores r.inference v := by
    rintro v hv (hTaken | hLe)
    · rw [Act.rest, hTaken] at hv
      have hCount := count_pos_iff.2 hv
      have hOnce := h.once v
      rw [count_erase_self] at hCount
      omega
    · exact Nat.not_lt.2 hLe (h.known (.term v) (hSub.subset hv)).known
  refine ⟨fun item hItem => ?_, fun v => ?_⟩
  · rcases mem_append.1 hItem with hItem | hItem
    · exact (hGiven item hItem).1
    · have hHeld := h.known item (hSub.subset hItem)
      cases item with
      | term v => exact hChanges.storable hs (hKept v hItem) hHeld
      | table x => exact hLater.table x hHeld
      | function id => exact hLater.function id hHeld
      | symbol => trivial
  · rw [Act.hand, count_append]
    by_cases hv : .term v ∈ d.given r
    · rw [count_eq_zero.2 fun hMem => hKept v hMem ((hGiven _ hv).2 v rfl)]
      exact nodup_iff_count_le_one.1 (d.nodup_given r) (.term v)
    · rw [count_eq_zero.2 hv, Nat.zero_add]
      exact Nat.le_trans (hSub.count_le _) (h.once v)

namespace Flows

variable {hand left : List Item} {r : Reading} {acts : List Act}

/-- Acts are nothing but steps. -/
theorem changes (h : Flows hand r acts left) (hs : r.inference.Sound)
    (hHand : Held hand r.inference) :
    Changes (fun _ => True) r.inference (r.after acts).inference := by
  induction acts generalizing hand r with
  | nil => exact .refl
  | cons d acts ih =>
    have hFirst := (Act.changes hs hHand.known h.1).1
    exact (hFirst.mono fun _ _ => trivial).trans
      (ih h.2 (hFirst.sound hs) (hHand.step hs h.1))

end Flows

namespace Inference

/-- Reading a block is nothing but steps. -/
theorem changes_readBlock {s : Inference} (hs : Sound s) (body : Block) (r : Reading)
    (hr : r.inference = s) :
    Changes (fun _ => True) s ((Read.readBlock body).run r).2.inference := by
  have hReads : Read.Reads 0 [] _ (Read.readBlock body) fun _ => [] := Read.reads_readBlock body
  obtain ⟨acts, hRun, hFlows, -⟩ := hReads r
  subst hr
  rw [hRun]
  exact hFlows.changes hs ⟨by simp, by simp⟩

end Inference

end LuaShape
