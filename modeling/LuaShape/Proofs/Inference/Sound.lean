import LuaShape.Proofs.Inference.Grounded
import Mathlib.Logic.Relation

/-!
# What every change keeps

A `Step` is an elementary change that leaves nothing dangling.  `Sound` is what all other
invariants rest on: nothing dangles, and every key has a definition.  Steps keep it, and along
steps terms stay what they are and known tables stay known.

`Storable` says of a term that it may be given to a name or a field.  It stays so until
it is stored (`Changes.storable`).
-/

namespace LuaShape

namespace Arena

theorem lt_of_get {a : Arena} {v : TermId} (h : a.get v ≠ .vararg) : v.index < a.size := by
  refine Nat.lt_of_not_le fun hLe => h ?_
  have hNone : a.terms[v.index]? = none := Array.getElem?_eq_none hLe
  simp [get, hNone]

theorem lt_of_tableLiteral? {a : Arena} {v : TermId} {x : TableId}
    (h : a.tableLiteral? v = some x) : v.index < a.size :=
  lt_of_get fun hEq => by simp [tableLiteral?, hEq] at h

end Arena

namespace Inference

/-- A change that leaves nothing dangling. -/
structure Step (P : TermId → Prop) (s s' : Inference) : Prop where
  change : Change P s s'
  leadsTo : s.Grounded → s.LeadsTo s'

/-- Steps, one after the other. -/
abbrev Changes (P : TermId → Prop) : Inference → Inference → Prop :=
  Relation.ReflTransGen (Step P)

theorem Changes.mono {P Q : TermId → Prop} (h : ∀ v, P v → Q v) {s s' : Inference}
    (hChanges : Changes P s s') : Changes Q s s' :=
  Relation.ReflTransGen.mono (fun _ _ hStep => ⟨hStep.change.mono h, hStep.leadsTo⟩) s s' hChanges

/-- Nothing dangles, and every key has a definition. -/
structure Sound (s : Inference) : Prop where
  grounded : s.Grounded
  isFilled : ∀ x t, s.table? x = some t → TableRecord.IsFilled t.fields

theorem sound_empty (buckets : List String) : Sound (empty buckets) :=
  ⟨grounded_empty buckets, nofun⟩

namespace Sound

variable {s : Inference} (hs : Sound s)
include hs

theorem id_eq (x : TableId) (t : TableRecord) (h : s.table? x = some t) : t.id = x :=
  (hs.grounded.table x t h).id_eq

theorem literal_lt (v : TermId) (x : TableId) (h : s.terms.tableLiteral? v = some x) :
    x.index < s.registry.size :=
  (hs.grounded.knowsTable_of_tableLiteral? h).2.lt

end Sound

section Change

variable {P : TermId → Prop} {s s' : Inference} {v : TermId}

/-! ## Terms and numbers -/

/-- Besides tables and definitions, a change leaves all as it is, or it adds a term, or it
gives a number. -/
theorem Change.frame (h : Change P s s') :
    (s'.current = s.current ∧ s'.buckets = s.buckets) ∧
      (s'.terms = s.terms ∧ s'.registry = s.registry ∨
        (∃ t, s'.terms = (s.terms.alloc t).2 ∧ s'.registry = s.registry) ∨
        ∃ kind name, s'.terms = s.terms ∧ s'.registry = (s.registry.mint kind name).2) := by
  cases h with
  | alloc t => exact ⟨⟨rfl, rfl⟩, .inr (.inl ⟨t, rfl, rfl⟩)⟩
  | mint kind name => exact ⟨⟨rfl, rfl⟩, .inr (.inr ⟨kind, name, rfl, rfl⟩)⟩
  | newTable hint => exact ⟨⟨rfl, rfl⟩, .inr (.inr ⟨.table, hint, rfl, rfl⟩)⟩
  | newFunction => exact ⟨⟨rfl, rfl⟩, .inr (.inr ⟨.function, _, rfl, rfl⟩)⟩
  | aside | relabel | promote | bind | modifyModule => exact ⟨⟨rfl, rfl⟩, .inl ⟨rfl, rfl⟩⟩
  | define ident value inFunction =>
    obtain ⟨_, _, _, _, hEq⟩ := s.exists_define_eq ident value inFunction
    rw [hEq]
    exact ⟨⟨rfl, rfl⟩, .inl ⟨rfl, rfl⟩⟩
  | attach id key value inFunction onInstance inConstructor =>
    obtain ⟨_, _, hEq⟩ :=
      s.exists_attachField_eq id key value inFunction onInstance inConstructor
    rw [hEq]
    exact ⟨⟨rfl, rfl⟩, .inl ⟨rfl, rfl⟩⟩
  | @makeInstance id owner =>
    obtain ⟨_, hEq⟩ :=
      (s.promoteClass owner none fun c => c).exists_makeInstance_eq id owner false
    rw [hEq]
    exact ⟨⟨rfl, rfl⟩, .inl ⟨rfl, rfl⟩⟩
  | @build id owner =>
    obtain ⟨_, hEq⟩ := s.exists_makeInstance_eq id owner true
    rw [hEq]
    exact ⟨⟨rfl, rfl⟩, .inl ⟨rfl, rfl⟩⟩

/-- The module being read is another one only when another one is begun. -/
theorem Change.current_eq (h : Change P s s') : s'.current = s.current := h.frame.1.1

/-- A change adds at most one term. -/
theorem Change.terms_eq (h : Change P s s') :
    s'.terms = s.terms ∨ ∃ t, s'.terms = (s.terms.alloc t).2 := by
  rcases h.frame.2 with ⟨hEq, -⟩ | ⟨t, hEq, -⟩ | ⟨_, _, hEq, -⟩
  · exact .inl hEq
  · exact .inr ⟨t, hEq⟩
  · exact .inl hEq

theorem Change.registry_le (h : Change P s s') : s.registry.size ≤ s'.registry.size := by
  rcases h.frame.2 with ⟨-, hEq⟩ | ⟨_, -, hEq⟩ | ⟨_, _, -, hEq⟩
  · exact Nat.le_of_eq (congrArg Registry.size hEq.symm)
  · exact Nat.le_of_eq (congrArg Registry.size hEq.symm)
  · rw [hEq, Registry.size_mint]
    exact Nat.le_succ _

theorem Change.terms_le (h : Change P s s') : s.terms.size ≤ s'.terms.size := by
  rcases h.terms_eq with hEq | ⟨t, hEq⟩
  · exact Nat.le_of_eq (congrArg Arena.size hEq.symm)
  · rw [hEq, Arena.size_alloc]
    exact Nat.le_succ _

/-- Terms stay what they are. -/
theorem Change.term_eq (h : Change P s s') (hv : v.index < s.terms.size) :
    s'.terms.get v = s.terms.get v := by
  rcases h.terms_eq with hEq | ⟨t, hEq⟩
  · rw [hEq]
  · rw [hEq, Arena.get_alloc_of_lt _ _ hv]

theorem Change.tableLiteral?_eq (h : Change P s s') (hv : v.index < s.terms.size) :
    s'.terms.tableLiteral? v = s.terms.tableLiteral? v := by
  rw [Arena.tableLiteral?, h.term_eq hv, Arena.tableLiteral?]

/-- A known table whose number has been given stays known. -/
theorem Change.exists_grows (h : Change P s s') {x : TableId} (hx : x.index < s.registry.size)
    {t : TableRecord} (ht : s.table? x = some t) : ∃ t', s'.table? x = some t' ∧ t.Grows t' := by
  rcases h.fate x with hFate | ⟨hLe, -⟩
  · rw [ht] at hFate
    exact hFate.exists_grows
  · omega

/-! ## Stored values -/

/-- A stored value has been stored before, or it is being stored. -/
theorem Storing.of_stored (h : Storing P s s') (hv : s'.Stored v) :
    s.Stored v ∨ v.index < s.terms.size ∧ (P v ∨ s.isUiLiteral v = true) := by
  obtain ⟨x, other, hMem⟩ := hv
  cases h with
  | kept h =>
    rcases h x other with hEq | ⟨-, hEq⟩ <;> rw [hEq] at hMem
    · exact .inl ⟨x, other, hMem⟩
    · cases hMem
  | attached id key value hFresh hKnown hValue h =>
    rcases h x other with hEq | ⟨-, -, hEq⟩ <;> rw [hEq] at hMem
    · exact .inl ⟨x, other, hMem⟩
    · rcases List.mem_append.1 hMem with hMem | hMem
      · exact .inl ⟨x, other, hMem⟩
      · cases List.mem_singleton.1 hMem
        exact .inr ⟨hKnown, hValue⟩
  | copied id owner hOwner h =>
    rcases h x other with hEq | ⟨-, part, hPart, hEq⟩ <;> rw [hEq] at hMem
    · exact .inl ⟨x, other, hMem⟩
    · rcases List.mem_append.1 hMem with hMem | hMem
      · exact .inl ⟨x, other, hMem⟩
      · exact .inl ⟨id, other, hPart.subset hMem⟩

theorem Sound.step (hs : Sound s) (h : Step P s s') : Sound s' where
  grounded := (h.leadsTo hs.grounded).grounded
  isFilled x t ht := by
    rcases h.change.fate x with hFate | ⟨-, hNew⟩
    · rw [ht] at hFate
      exact hFate.isFilled (hs.isFilled x)
    · rw [ht] at hNew
      cases hNew
      exact fun _ => by simp

/-- A literal of a UI class stays one. -/
theorem Change.isUiLiteral (h : Change P s s') (hs : Sound s) (hv : s.isUiLiteral v = true) :
    s'.isUiLiteral v = true := by
  rw [Inference.isUiLiteral] at hv
  cases hLiteral : s.terms.tableLiteral? v with
  | none => simp [hLiteral] at hv
  | some x =>
    cases hTable : s.table? x with
    | none => simp [hLiteral, hTable] at hv
    | some t =>
      obtain ⟨t', ht', hGrows⟩ := h.exists_grows (hs.literal_lt v x hLiteral) hTable
      simp only [hLiteral, hTable, Option.bind_some, Option.map_some, Option.getD_some] at hv
      rw [Inference.isUiLiteral, h.tableLiteral?_eq (Arena.lt_of_tableLiteral? hLiteral),
        hLiteral, Option.bind_some, ht']
      exact hGrows.isAtomUi hv

/-- A value stays fresh until it is stored. -/
theorem Change.fresh (h : Change P s s') (hs : Sound s) (hv : ¬ P v) (hFresh : s.Fresh v) :
    s'.Fresh v := by
  intro hStored
  rcases h.storing.of_stored hStored with hOld | ⟨-, hValue⟩
  · exact h.isUiLiteral hs (hFresh hOld)
  · exact h.isUiLiteral hs (hValue.resolve_left hv)

theorem Change.isHere (h : Change P s s') (hs : Sound s) (hv : v.index < s.terms.size)
    (hHere : s.IsHere v) : s'.IsHere v := by
  intro x hx
  rw [h.tableLiteral?_eq hv] at hx
  obtain ⟨t, ht, hModule⟩ := hHere x hx
  obtain ⟨t', ht', hGrows⟩ := h.exists_grows (hs.literal_lt v x hx) ht
  exact ⟨t', ht', by rw [hGrows.module_eq, hModule, h.current_eq]⟩

end Change

/-! ## Sequences of changes -/

namespace Changes

variable {P : TermId → Prop} {s s' : Inference} {v : TermId}

theorem tail {s'' : Inference} (h : Changes P s s') (hStep : Step P s' s'') : Changes P s s'' :=
  Relation.ReflTransGen.tail h hStep

theorem sound (h : Changes P s s') (hs : Sound s) : Sound s' := by
  induction h with
  | refl => exact hs
  | tail _ hStep ih => exact ih.step hStep

theorem leadsTo (h : Changes P s s') (hs : s.Grounded) : s.LeadsTo s' := by
  induction h with
  | refl => exact .refl hs
  | tail _ hStep ih => exact ih.trans (hStep.leadsTo ih.grounded)

theorem table (h : Changes P s s') (hs : s.Grounded) {x : TableId} (hx : s.KnowsTable x) :
    s'.KnowsTable x :=
  (h.leadsTo hs).later.table x hx

theorem current_eq (h : Changes P s s') : s'.current = s.current := by
  induction h with
  | refl => rfl
  | tail _ hStep ih => exact hStep.change.current_eq.trans ih

theorem fresh (h : Changes P s s') (hs : Sound s) (hv : ¬ P v) (hFresh : s.Fresh v) :
    s'.Fresh v := by
  induction h with
  | refl => exact hFresh
  | tail hChanges hStep ih => exact hStep.change.fresh (sound hChanges hs) hv ih

theorem isHere (h : Changes P s s') (hs : Sound s) (hv : s.KnowsTerm v)
    (hHere : s.IsHere v) : s'.IsHere v := by
  induction h with
  | refl => exact hHere
  | tail hChanges hStep ih =>
    exact hStep.change.isHere (sound hChanges hs)
      ((leadsTo hChanges hs.grounded).later.knowsTerm hv) ih

end Changes

/-! ## Storable values -/

/-- A term that may be given to a name or a field.  Of a call, the arguments count too,
since a target may be given one of them. -/
structure Storable (s : Inference) (v : TermId) : Prop where
  fresh : s.Fresh v
  known : s.KnowsTerm v
  here : s.IsHere v
  args : ∀ callee args, s.terms.callParts? v = some (callee, args) → ∀ arg ∈ args, s.IsHere arg

/-- A value stays storable until it is stored. -/
theorem Changes.storable {P : TermId → Prop} {s s' : Inference} {v : TermId}
    (h : Changes P s s') (hs : Sound s) (hv : ¬ P v) (hStorable : s.Storable v) :
    s'.Storable v := by
  have hLater := (h.leadsTo hs.grounded).later
  refine ⟨h.fresh hs hv hStorable.fresh, hLater.knowsTerm hStorable.known,
    h.isHere hs hStorable.known hStorable.here, fun callee args hCall arg hArg => ?_⟩
  rw [Arena.callParts?, show s'.terms.get v = _ from hLater.term_eq v hStorable.known] at hCall
  exact h.isHere hs ((hs.grounded.knowsTerm_of_callParts? hCall).2 arg hArg)
    (hStorable.args callee args hCall arg hArg)

/-- A new term is storable, if it is no literal of a table made elsewhere and no call with
such arguments. -/
theorem Sound.storable_alloc {s : Inference} (hs : Sound s) {t : Term} (ht : s.LinksTerm t)
    (hTable : ∀ x, t = .literal (.table x) → ∃ r, s.table? x = some r ∧ r.module = s.current)
    (hArgs : ∀ slot callee args, t = .operation (.call slot) (callee :: args) →
      ∀ arg ∈ args, s.IsHere arg) :
    (s.alloc t).2.Storable (s.alloc t).1 := by
  have hChange : Change (fun _ => False) s (s.alloc t).2 := .alloc t
  have hGet : (s.alloc t).2.terms.get (s.alloc t).1 = t := s.terms.get_alloc_self t
  refine ⟨?_, s.knowsTerm_alloc t, fun x hx => ?_, fun callee args hCall arg hArg => ?_⟩
  · exact hChange.fresh hs not_false fun hStored =>
      absurd (hs.grounded.stored _ hStored) (Nat.lt_irrefl _)
  · rw [Arena.tableLiteral?, hGet] at hx
    refine hTable x ?_
    split at hx <;> cases hx
    rfl
  · rw [Arena.callParts?, hGet] at hCall
    split at hCall <;> cases hCall
    refine hChange.isHere hs (ht.part arg ?_) (hArgs _ callee args rfl arg hArg)
    exact List.mem_cons_of_mem _ hArg

end Inference

end LuaShape
