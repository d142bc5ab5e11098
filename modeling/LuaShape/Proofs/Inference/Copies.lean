import LuaShape.Proofs.Inference.Direct
import LuaShape.Proofs.Inference.Reached
import LuaShape.Proofs.Project.Chunks
import Mathlib.Data.Set.Card
import Mathlib.Logic.Relation

/-!
# Cycles of copies

A name is a copy of the values it is given, and a required module of the values it returns.
Where terms are nothing but literals and copies, the types of a term are those of the
literals it is copied from, directly or through other copies, however the copies run in
circles.

Resolution walks such terms depth first.  A term that is asked for again while it is in
progress has no types yet, so the terms inside a cycle are remembered with too few types,
and what is remembered of a term is of no use for the proof.  What a visit returns is more:
it has the types of all terms that were met for the first time since its start
(`Gathers`).  For the first visit these are all terms there are.

Main result: `mem_resolve_iff_of_onlyCopies`.
-/

namespace LuaShape

open List

/-- A term that stands for one of its own values or for values of other terms. -/
def Term.isCopy : Term → Bool
  | .literal _ | .reference _ | .require _ _ _ => true
  | _ => false

namespace Inference

/-! ## Copies -/

/-- The terms that a term is a copy of: the values of a name that no derived class has
taken the place of, or the values that a required module returns. -/
def copied (s : Inference) (id : TermId) : List TermId :=
  match s.term id with
  | .reference ident => (s.standing (s.definitionsOf ident)).map Definition.value
  | .require _ target slot =>
    (((target.bind s.moduleNamed?).bind fun m => m.returns[slot]?).getD []).map Definition.value
  | _ => []

/-- A term is a copy of another one, directly or through others. -/
def CopyOf (s : Inference) : TermId → TermId → Prop :=
  Relation.ReflTransGen fun x y => y ∈ s.copied x

/-- A name that can be seen outside functions is given values, but none that counts is
given when a module is loaded. -/
def IsSetLate (s : Inference) (ident : Ident) : Prop :=
  s.isModuleLevel ident = true ∧ s.definitionsOf ident ≠ [] ∧
    ∀ d ∈ s.definitionsOf ident, s.isSuperseded d.value = false → d.inFunction = true

/-- All that a term is copied from are literals and copies, no more than 201 of them; no use
of them is recorded, and their names are given no values through instances. -/
structure OnlyCopies (s : Inference) (id : TermId) : Prop where
  few : {x | s.CopyOf id x}.encard ≤ 201
  isCopy : ∀ x, s.CopyOf id x → (s.term x).isCopy = true
  unused : ∀ x, s.CopyOf id x → s.usage? (s.usageKey x) = none
  plain : ∀ x ident, s.CopyOf id x → s.term x = .reference ident →
    ∀ d ∈ s.definitionsOf ident, s.isSuperseded d.value = false → d.onInstance = false

/-! ## What a copy adds by itself -/

/-- The types that a literal or a copy has by itself. -/
def added (s : Inference) (id : TermId) : TypeSet :=
  match s.term id with
  | .literal value => s.literalTypes value
  | .reference ident =>
    if !(s.definitionsOf ident).isEmpty &&
        (s.standing (s.definitionsOf ident)).all Definition.inFunction &&
        s.isModuleLevel ident then .single .nil
    else .empty
  | _ => .empty

variable {s : Inference}

theorem mem_standing {defs : List Definition} {d : Definition} :
    d ∈ s.standing defs ↔ d ∈ defs ∧ s.isSuperseded d.value = false := by
  simp [standing]

theorem mem_added_iff {id : TermId} {tag : TypeTag} :
    tag ∈ s.added id ↔
      (∃ value, s.term id = .literal value ∧ tag ∈ s.literalTypes value) ∨
        tag = .nil ∧ ∃ ident, s.term id = .reference ident ∧ s.IsSetLate ident := by
  rw [added]
  split
  · rename_i value hTerm
    simp [hTerm]
  · rename_i ident hTerm
    have hLate : (!(s.definitionsOf ident).isEmpty &&
        (s.standing (s.definitionsOf ident)).all Definition.inFunction &&
        s.isModuleLevel ident) = true ↔ s.IsSetLate ident := by
      simp only [Bool.and_eq_true, Bool.not_eq_true', isEmpty_eq_false_iff, all_eq_true,
        mem_standing, and_imp, IsSetLate]
      constructor
      · rintro ⟨⟨hDefined, hAll⟩, hLevel⟩
        exact ⟨hLevel, hDefined, hAll⟩
      · rintro ⟨hLevel, hDefined, hAll⟩
        exact ⟨⟨hDefined, hAll⟩, hLevel⟩
    simp only [hTerm, reduceCtorEq, false_and, exists_false, false_or, Term.reference.injEq,
      exists_eq_left']
    split
    · rename_i hSet
      simp [hLate.1 hSet, TypeSet.single]
    · rename_i hSet
      simp [mt hLate.2 hSet]
  · rename_i hLiteral hReference
    simp only [SortedSet.not_mem_empty, false_iff]
    rintro (⟨value, hTerm, -⟩ | ⟨-, ident, hTerm, -⟩)
    · exact hLiteral value hTerm
    · exact hReference ident hTerm

theorem definedTypes_of_plain {m : Type → Type} [Monad m] (types : TermId → m TypeSet)
    {defs : List Definition} (h : ∀ d ∈ defs, d.onInstance = false) :
    definedTypes types defs = unionOf types (defs.map Definition.value) := by
  induction defs with
  | nil => rfl
  | cons d defs ih =>
    rw [definedTypes, map_cons, unionOf, ih fun d hd => h d (mem_cons_of_mem _ hd),
      h d mem_cons_self]
    rfl

/-- The rule for a literal or a copy: the types of all that it is a copy of, and its own. -/
theorem termRule_of_isCopy {m : Type → Type} [Monad m] [LawfulMonad m] (s : Inference)
    (types : TermId → m TypeSet) {id : TermId} (hCopy : (s.term id).isCopy = true)
    (hPlain : ∀ ident, s.term id = .reference ident →
      ∀ d ∈ s.definitionsOf ident, s.isSuperseded d.value = false → d.onInstance = false) :
    s.termRule types (s.term id) =
      (fun found => found.union (s.added id)) <$> unionOf types (s.copied id) := by
  cases hTerm : s.term id with
  | literal value =>
    have hOwn : SortedSet.empty.union (s.literalTypes value) = s.literalTypes value :=
      SortedSet.ext_mem fun tag => by simp
    simp only [termRule, copied, added, hTerm, unionOf, map_pure, hOwn]
  | reference ident =>
    have hDefined : definedTypes types (s.standing (s.definitionsOf ident)) = _ :=
      definedTypes_of_plain types fun d hd =>
        hPlain ident hTerm d (mem_standing.1 hd).1 (mem_standing.1 hd).2
    simp only [termRule, copied, added, hTerm, identRule, hDefined, map_eq_pure_bind]
    congr 1
    funext found
    split <;> rfl
  | require name target slot =>
    simp only [termRule, copied, added, hTerm, requireRule]
    exact (id_map _).symm
  | member | index | operation | vararg =>
    rw [hTerm] at hCopy
    cases hCopy

/-! ## Visits -/

/-- A type that a term, or one that it is copied from, has by itself. -/
def Collects (s : Inference) (id : TermId) (tag : TypeTag) : Prop :=
  ∃ x, s.CopyOf id x ∧ tag ∈ s.added x

theorem Collects.of_copied {id x : TermId} {tag : TypeTag} (hx : x ∈ s.copied id)
    (h : s.Collects x tag) : s.Collects id tag := by
  obtain ⟨y, hCopy, hTag⟩ := h
  exact ⟨y, .head hx hCopy, hTag⟩

/-- Nothing is remembered of a term that it does not collect. -/
def Within (s : Inference) (seen : Seen) : Prop :=
  ∀ id types, seen.find? id = some types → ∀ tag ∈ types, s.Collects id tag

theorem mem_keys_insert {seen : Seen} {id x : TermId} {types : TypeSet} :
    x ∈ (seen.insert id types).keys ↔ x = id ∨ x ∈ seen.keys :=
  OrderedMap.mem_keys_upsertIn

theorem Within.insert {s : Inference} {seen : Seen} (h : s.Within seen) {id : TermId}
    {types : TypeSet} (hTypes : ∀ tag ∈ types, s.Collects id tag) :
    s.Within (seen.insert id types) := by
  intro x found hFound
  rw [OrderedMap.insert, OrderedMap.find?_upsert] at hFound
  split at hFound
  · rename_i hSame
    cases hFound
    exact hSame ▸ hTypes
  · exact h x found hFound

/-- What asking for the types of some terms does: all that was met stays met, the terms
are met, and nothing is found that they do not collect.  All that a term adds that is met
for the first time is found, and what it is a copy of is met as well. -/
structure Gathers (s : Inference) (seen : Seen) (ids : List TermId)
    (result : TypeSet × Seen) : Prop where
  kept : ∀ x ∈ seen.keys, x ∈ result.2.keys
  met : ∀ x ∈ ids, x ∈ result.2.keys
  types_within : ∀ tag ∈ result.1, ∃ x ∈ ids, s.Collects x tag
  within : s.Within result.2
  found : ∀ x ∈ result.2.keys, x ∉ seen.keys → ∀ tag ∈ s.added x, tag ∈ result.1
  closed : ∀ x ∈ result.2.keys, x ∉ seen.keys → ∀ y ∈ s.copied x, y ∈ result.2.keys

namespace Gathers

variable {s : Inference} {seen seen' : Seen} {id : TermId} {ids : List TermId}
  {types types' : TypeSet}

/-- Asking for nothing, or for a term that has been met. -/
theorem of_met (hWithin : s.Within seen) (hIds : ∀ x ∈ ids, x ∈ seen.keys)
    (hTypes : ∀ tag ∈ types, ∃ x ∈ ids, s.Collects x tag) : Gathers s seen ids (types, seen) where
  kept := fun _ hx => hx
  met := hIds
  types_within := hTypes
  within := hWithin
  found := fun _ hx hNew => absurd hx hNew
  closed := fun _ hx hNew => absurd hx hNew

/-- Asking for a term of which something is remembered. -/
theorem of_remembered (hWithin : s.Within seen) (hFound : seen.find? id = some types) :
    Gathers s seen [id] (types, seen) := by
  refine of_met hWithin (fun x hx => ?_) fun tag hTag => ?_
  · exact OrderedMap.mem_keys_iff.2 ⟨types, mem_singleton.1 hx ▸ hFound⟩
  · exact ⟨id, mem_cons_self, hWithin id types hFound tag hTag⟩

/-- Asking for one term and then for others. -/
theorem cons {result : TypeSet × Seen} (h : Gathers s seen [id] (types, seen'))
    (h' : Gathers s seen' ids result) :
    Gathers s seen (id :: ids) (types.union result.1, result.2) where
  kept := fun x hx => h'.kept x (h.kept x hx)
  met := by
    intro x hx
    rcases mem_cons.1 hx with rfl | hx
    · exact h'.kept x (h.met x mem_cons_self)
    · exact h'.met x hx
  types_within := by
    intro tag hTag
    rcases SortedSet.mem_union.1 hTag with hTag | hTag
    · obtain ⟨x, hx, hCollects⟩ := h.types_within tag hTag
      rw [mem_singleton] at hx
      exact ⟨id, mem_cons_self, hx ▸ hCollects⟩
    · obtain ⟨x, hx, hCollects⟩ := h'.types_within tag hTag
      exact ⟨x, mem_cons_of_mem id hx, hCollects⟩
  within := h'.within
  found := by
    intro x hx hNew tag hTag
    rw [SortedSet.mem_union]
    by_cases hFirst : x ∈ seen'.keys
    · exact Or.inl (h.found x hFirst hNew tag hTag)
    · exact Or.inr (h'.found x hx hFirst tag hTag)
  closed := by
    intro x hx hNew y hy
    by_cases hFirst : x ∈ seen'.keys
    · exact h'.kept y (h.closed x hFirst hNew y hy)
    · exact h'.closed x hx hFirst y hy

/-- Visiting a term: it is remembered without types, what it is a copy of is asked for,
and then it is remembered with what has been found and what it adds. -/
theorem visit {result : TypeSet × Seen}
    (h : Gathers s (seen.insert id .empty) (s.copied id) result) :
    Gathers s seen [id] (result.1.union (s.added id),
      result.2.insert id (result.1.union (s.added id))) := by
  have hTypes : ∀ tag ∈ result.1.union (s.added id), s.Collects id tag := by
    intro tag hTag
    rcases SortedSet.mem_union.1 hTag with hTag | hTag
    · obtain ⟨x, hx, hCollects⟩ := h.types_within tag hTag
      exact hCollects.of_copied hx
    · exact ⟨id, .refl, hTag⟩
  refine { kept := ?_, met := ?_, types_within := ?_, within := h.within.insert hTypes,
           found := ?_, closed := ?_ }
  · exact fun x hx => mem_keys_insert.2 (Or.inr (h.kept x (mem_keys_insert.2 (Or.inr hx))))
  · intro x hx
    exact mem_keys_insert.2 (Or.inl (mem_singleton.1 hx))
  · exact fun tag hTag => ⟨id, mem_cons_self, hTypes tag hTag⟩
  · intro x hx hNew tag hTag
    rw [SortedSet.mem_union]
    by_cases hSame : x = id
    · exact Or.inr (hSame ▸ hTag)
    · refine Or.inl (h.found x ((mem_keys_insert.1 hx).resolve_left hSame) ?_ tag hTag)
      exact fun hOld => (mem_keys_insert.1 hOld).elim hSame hNew
  · intro x hx hNew y hy
    refine mem_keys_insert.2 (Or.inr ?_)
    by_cases hSame : x = id
    · exact h.met y (hSame ▸ hy)
    · refine h.closed x ((mem_keys_insert.1 hx).resolve_left hSame) ?_ y hy
      exact fun hOld => (mem_keys_insert.1 hOld).elim hSame hNew

end Gathers

/-! ## Runs -/

/-- The terms of a set that have not been met. -/
def unmet (terms : Finset TermId) (seen : Seen) : Finset TermId :=
  terms.filter (· ∉ seen.keys)

variable {terms : Finset TermId} {seen : Seen} {id : TermId} {s : Inference}

theorem card_unmet_le {seen seen' : Seen} (h : ∀ x ∈ seen.keys, x ∈ seen'.keys) :
    (unmet terms seen').card ≤ (unmet terms seen).card := by
  refine Finset.card_le_card fun x hx => ?_
  rw [unmet, Finset.mem_filter] at hx ⊢
  exact ⟨hx.1, fun hMet => hx.2 (h x hMet)⟩

theorem card_unmet_insert_lt (hId : id ∈ terms) (hNew : id ∉ seen.keys) (types : TypeSet) :
    (unmet terms (seen.insert id types)).card < (unmet terms seen).card := by
  refine Finset.card_lt_card (Finset.ssubset_iff_of_subset ?_ |>.2 ⟨id, ?_, ?_⟩)
  · intro x hx
    rw [unmet, Finset.mem_filter] at hx ⊢
    exact ⟨hx.1, fun hMet => hx.2 (mem_keys_insert.2 (Or.inr hMet))⟩
  · exact Finset.mem_filter.2 ⟨hId, hNew⟩
  · intro hMem
    exact (Finset.mem_filter.1 hMem).2 (mem_keys_insert.2 (Or.inl rfl))

/-- Where asking for one term gathers from every memo that leaves no more than `depth` terms
unmet, so does asking for several. -/
theorem gathers_unionOf {depth : Nat} {types : TermId → StateM Seen TypeSet} {ids : List TermId}
    (h : ∀ id ∈ ids, ∀ seen, s.Within seen → (unmet terms seen).card ≤ depth →
      Gathers s seen [id] ((types id).run seen)) (hWithin : s.Within seen)
    (hDepth : (unmet terms seen).card ≤ depth) :
    Gathers s seen ids ((unionOf types ids).run seen) := by
  induction ids generalizing seen with
  | nil => exact .of_met hWithin (fun _ hx => by cases hx) (fun _ hTag => by simp at hTag)
  | cons id ids ih =>
    have hFirst := h id mem_cons_self seen hWithin hDepth
    have hRest := ih (fun x hx => h x (mem_cons_of_mem id hx)) hFirst.within
      ((card_unmet_le hFirst.kept).trans hDepth)
    exact hFirst.cons hRest

theorem narrow_of_unused (h : s.usage? (s.usageKey id) = none) (types : TypeSet) :
    s.narrow id types = types := by
  rw [narrow, narrowUnder, h]

/-- Resolution gathers, as long as the depth that is left is enough for all terms that have
not been met. -/
theorem gathers_typesWithin {root : TermId} (hRoot : s.OnlyCopies root)
    (hTerms : ∀ x, s.CopyOf root x → x ∈ terms) {depth : Nat} (hId : s.CopyOf root id)
    (hWithin : s.Within seen) (hDepth : (unmet terms seen).card ≤ depth) :
    Gathers s seen [id] ((s.typesWithin depth id).run seen) := by
  induction depth generalizing id seen with
  | zero =>
    have hNone : unmet terms seen = ∅ := Finset.card_eq_zero.1 (Nat.le_zero.1 hDepth)
    have hKey : id ∈ seen.keys := by
      by_contra hNew
      have hMem : id ∈ unmet terms seen := Finset.mem_filter.2 ⟨hTerms id hId, hNew⟩
      rw [hNone] at hMem
      exact Finset.notMem_empty id hMem
    obtain ⟨found, hFound⟩ := OrderedMap.mem_keys_iff.1 hKey
    have hRun : (s.typesWithin 0 id).run seen = ((seen.find? id).getD .empty, seen) := rfl
    rw [hRun, hFound]
    exact .of_remembered hWithin hFound
  | succ depth ih =>
    cases hFound : seen.find? id with
    | some found =>
      rw [s.run_typesWithin_of_seen depth hFound]
      exact .of_remembered hWithin hFound
    | none =>
      have hNew : id ∉ seen.keys := by
        rw [OrderedMap.mem_keys_iff, hFound]
        simp
      have hLess := card_unmet_insert_lt (hTerms id hId) hNew .empty
      have hStart : s.Within (seen.insert id .empty) :=
        hWithin.insert fun tag hTag => by simp at hTag
      have hParts : Gathers s (seen.insert id .empty) (s.copied id)
          ((unionOf (s.typesWithin depth) (s.copied id)).run (seen.insert id .empty)) := by
        have hLeft : (unmet terms (seen.insert id .empty)).card ≤ depth := by omega
        refine gathers_unionOf ?_ hStart hLeft
        intro x hx seen' hWithin' hDepth'
        exact ih (hId.tail hx) hWithin' hDepth'
      rw [s.run_typesWithin_of_new depth hFound,
        s.termRule_of_isCopy _ (hRoot.isCopy id hId) fun ident => hRoot.plain id ident hId]
      simp only [narrow_of_unused (hRoot.unused id hId)]
      exact hParts.visit

/-- A visit from the start finds what a term collects, and nothing else. -/
theorem OnlyCopies.mem_resolve_iff (h : s.OnlyCopies id) {tag : TypeTag} :
    tag ∈ s.resolve id ↔ s.Collects id tag := by
  have hFinite : {x | s.CopyOf id x}.Finite := Set.finite_of_encard_le_coe h.few
  have hTerms : ∀ x, s.CopyOf id x → x ∈ hFinite.toFinset := fun x hx => hFinite.mem_toFinset.2 hx
  have hDepth : (unmet hFinite.toFinset .empty).card ≤ maxDepth := by
    refine (Finset.card_filter_le _ _).trans ?_
    have hFew := h.few
    rw [hFinite.encard_eq_coe_toFinset_card] at hFew
    exact_mod_cast hFew
  have hGathers := gathers_typesWithin h hTerms .refl (fun _ _ hFound => by cases hFound) hDepth
  have hNew : ∀ x, x ∉ (OrderedMap.empty : Seen).keys := fun x hx => by cases hx
  have hMet : ∀ x, s.CopyOf id x → x ∈ ((s.typesWithin maxDepth id).run .empty).2.keys := by
    intro x hCopy
    induction hCopy with
    | refl => exact hGathers.met id mem_cons_self
    | tail _ hCopied ih => exact hGathers.closed _ ih (hNew _) _ hCopied
  constructor
  · intro hTag
    obtain ⟨x, hx, hCollects⟩ := hGathers.types_within tag hTag
    exact mem_singleton.1 hx ▸ hCollects
  · rintro ⟨x, hCopy, hTag⟩
    exact hGathers.found x (hMet x hCopy) (hNew x) tag hTag

/-- **Cycles of copies lose nothing.**  Where all that a term is copied from are literals,
names and required modules, its types are those of the literals, and `nil` if one of the
names is given values only after loading, whatever cycles there are. -/
theorem mem_resolve_iff_of_onlyCopies {s : Inference} {id : TermId} (h : s.OnlyCopies id)
    (tag : TypeTag) :
    tag ∈ s.resolve id ↔
      (∃ x value, s.CopyOf id x ∧ s.term x = .literal value ∧ tag ∈ s.literalTypes value) ∨
        tag = .nil ∧ ∃ x ident, s.CopyOf id x ∧ s.term x = .reference ident ∧
          s.IsSetLate ident := by
  rw [h.mem_resolve_iff]
  constructor
  · rintro ⟨x, hCopy, hTag⟩
    rcases mem_added_iff.1 hTag with ⟨value, hTerm, hTag⟩ | ⟨hNil, ident, hTerm, hLate⟩
    · exact Or.inl ⟨x, value, hCopy, hTerm, hTag⟩
    · exact Or.inr ⟨hNil, x, ident, hCopy, hTerm, hLate⟩
  · rintro (⟨x, value, hCopy, hTerm, hTag⟩ | ⟨hNil, x, ident, hCopy, hTerm, hLate⟩)
    · exact ⟨x, hCopy, mem_added_iff.2 (Or.inl ⟨value, hTerm, hTag⟩)⟩
    · exact ⟨x, hCopy, mem_added_iff.2 (Or.inr ⟨hNil, ident, hTerm, hLate⟩)⟩

/-- Terms from which copying does not lead out hold all that one of them is copied from. -/
theorem OnlyCopies.of_closed (terms : List TermId) (hId : id ∈ terms) (hFew : terms.length ≤ 201)
    (hTerms : ∀ x ∈ terms, (∀ y ∈ s.copied x, y ∈ terms) ∧ (s.term x).isCopy = true ∧
      s.usage? (s.usageKey x) = none)
    (hPlain : ∀ entry ∈ s.definitions.entries, ∀ d ∈ entry.2, d.onInstance = false) :
    s.OnlyCopies id := by
  have hMem : ∀ x, s.CopyOf id x → x ∈ terms := by
    intro x hCopy
    induction hCopy with
    | refl => exact hId
    | tail _ hCopied ih => exact (hTerms _ ih).1 _ hCopied
  refine { few := ?_, isCopy := fun x hx => (hTerms x (hMem x hx)).2.1,
           unused := fun x hx => (hTerms x (hMem x hx)).2.2, plain := ?_ }
  · have hSubset : {x | s.CopyOf id x} ⊆ (terms.toFinset : Set TermId) := fun x hx =>
      mem_toFinset.2 (hMem x hx)
    refine (Set.encard_le_encard hSubset).trans ?_
    rw [Set.encard_coe_eq_coe_finsetCard]
    exact_mod_cast terms.toFinset_card_le.trans hFew
  · intro x ident _ _ d hd _
    rw [definitionsOf, OrderedMap.get] at hd
    cases hFound : s.definitions.find? ident with
    | none =>
      rw [hFound] at hd
      cases hd
    | some defs =>
      rw [hFound] at hd
      exact hPlain _ (OrderedMap.find?_eq_some_iff.1 hFound) d hd

set_option maxRecDepth 100000 in
/-- Two modules that require each other, and a global that one of them sets in a
function. -/
theorem types_of_mutual_requires :
    let files : List SourceFile := [⟨"a", "local v = require('b') v = g return v"⟩,
      ⟨"b", "local w = require('a') w = 1 function f() g = w end return w"⟩]
    let s := ((empty []).registerAll ["b", "a"]).readAll (files.filterMap SourceFile.chunk?)
      ["b", "a"]
    s.OnlyCopies ⟨13⟩ ∧ s.resolve ⟨13⟩ = .of [.nil, .number] ∧
      ∀ tag, tag ∈ s.resolve ⟨13⟩ ↔
        (∃ x value, s.CopyOf ⟨13⟩ x ∧ s.term x = .literal value ∧ tag ∈ s.literalTypes value) ∨
          tag = .nil ∧ ∃ x ident, s.CopyOf ⟨13⟩ x ∧ s.term x = .reference ident ∧
            s.IsSetLate ident := by
  intro files s
  have hRead : s.resolve ⟨13⟩ = .of [.nil, .number] ∧
      (∀ x ∈ ([⟨13⟩, ⟨9⟩, ⟨11⟩, ⟨8⟩, ⟨4⟩, ⟨0⟩, ⟨2⟩] : List TermId),
        (∀ y ∈ s.copied x, y ∈ ([⟨13⟩, ⟨9⟩, ⟨11⟩, ⟨8⟩, ⟨4⟩, ⟨0⟩, ⟨2⟩] : List TermId)) ∧
          (s.term x).isCopy = true ∧ s.usage? (s.usageKey x) = none) ∧
      ∀ entry ∈ s.definitions.entries, ∀ d ∈ entry.2, d.onInstance = false := by
    decide +kernel
  obtain ⟨hTypes, hTerms, hPlain⟩ := hRead
  have hCopies : s.OnlyCopies ⟨13⟩ := .of_closed _ mem_cons_self (by decide) hTerms hPlain
  exact ⟨hCopies, hTypes, mem_resolve_iff_of_onlyCopies hCopies⟩

end Inference

end LuaShape
