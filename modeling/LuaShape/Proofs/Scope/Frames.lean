import LuaShape.Scope.Tree

/-!
# The way out of a scope

For looking names up, a scope tree is a stack: the current scope, the scope around it, and so
on out to the module.  The tree keeps the scopes that were left, but they lie behind none of the
scopes on the way out, because every scope was entered after the one around it.  `Nested` states
this, and under it entering a scope puts it in front of the way out (`chain_push`), leaving one
takes it away (`chain_pop`), and a binding is added to the first scope (`chain_bind`).

Apart from bindings, the way out of a scope never changes.  `Keyed` says which keys it has.
-/

namespace LuaShape.ScopeTree

open List

/-! ## The way out -/

/-- Every scope was entered after the scope around it. -/
def ParentsFirst (scopes : Array Scope) : Prop :=
  ∀ (index : Nat) (s : Scope) (parent : Nat),
    scopes[index]? = some s → s.parent = some parent → parent < index

/-- The scopes lie inside earlier ones, and the current scope is one of them. -/
structure Nested (t : ScopeTree) : Prop where
  current_lt : t.scopes.size > t.current
  parents : ParentsFirst t.scopes

/-- A way out is as long as it is, whatever the limit. -/
theorem enclosing_limit {scopes : Array Scope} (hScopes : ParentsFirst scopes)
    {limit limit' index : Nat} (h : index < limit) (h' : index < limit') :
    enclosing scopes limit index = enclosing scopes limit' index := by
  induction limit generalizing limit' index with
  | zero => omega
  | succ limit ih =>
    cases limit' with
    | zero => omega
    | succ limit' =>
      cases hScope : scopes[index]? with
      | none => simp [enclosing, hScope]
      | some s =>
        cases hParent : s.parent with
        | none => simp [enclosing, hScope, hParent]
        | some parent =>
          have hLt := hScopes index s parent hScope hParent
          have hSame : enclosing scopes limit parent = enclosing scopes limit' parent :=
            ih (by omega) (by omega)
          simp only [enclosing, hScope, hParent, hSame]

/-- The way out of a scope depends only on the scopes up to it. -/
theorem enclosing_congr {scopes scopes' : Array Scope} (hScopes : ParentsFirst scopes)
    (limit index : Nat) (h : ∀ i ≤ index, scopes'[i]? = scopes[i]?) :
    enclosing scopes' limit index = enclosing scopes limit index := by
  induction limit generalizing index with
  | zero => rfl
  | succ limit ih =>
    simp only [enclosing, h index (Nat.le_refl index)]
    cases hScope : scopes[index]? with
    | none => rfl
    | some s =>
      cases hParent : s.parent with
      | none => simp [hParent]
      | some parent =>
        have hLt := hScopes index s parent hScope hParent
        simp only [hParent]
        rw [ih parent fun i hi => h i (by omega)]

/-- A scope and the scopes around it, innermost first. -/
def outward (t : ScopeTree) (index : ScopeIndex) : List Scope :=
  enclosing t.scopes t.scopes.size index

/-- The current scope and the scopes around it, innermost first. -/
def chain (t : ScopeTree) : List Scope := t.outward t.current

variable {t : ScopeTree}

/-- The way out of a scope is the scope and the way out of the scope around it. -/
theorem Nested.outward_eq (h : t.Nested) {index : Nat} {s : Scope}
    (hScope : t.scopes[index]? = some s) :
    t.outward index = s :: (match s.parent with
      | some parent => t.outward parent
      | none => []) := by
  have hLt : index < t.scopes.size := (Array.getElem?_eq_some_iff.1 hScope).1
  rw [outward, enclosing_limit h.parents hLt (Nat.lt_succ_self index)]
  cases hParent : s.parent with
  | none => simp [enclosing, hScope, hParent]
  | some parent =>
    have hParentLt := h.parents index s parent hScope hParent
    have hSame : enclosing t.scopes index parent = t.outward parent :=
      enclosing_limit h.parents hParentLt (by omega)
    simp only [enclosing, hScope, hParent, hSame]

theorem Nested.exists_current (h : t.Nested) : ∃ s, t.scopes[t.current]? = some s := by
  have hSome : t.scopes[t.current]?.isSome = true := by simpa using h.current_lt
  exact Option.isSome_iff_exists.1 hSome

/-! ## Operations -/

theorem nested_ofModule (home : ModuleScopeId) : (ofModule home).Nested where
  current_lt := Nat.zero_lt_one
  parents := by
    intro index s parent hScope hParent
    cases index with
    | zero =>
      simp only [ofModule, getElem?_toArray, getElem?_cons_zero,
        Option.some.injEq] at hScope
      subst hScope
      cases hParent
    | succ index => simp [ofModule] at hScope

theorem Nested.push {t : ScopeTree} (h : t.Nested) (kind : ScopeKind) (key : ScopeKey) :
    (t.push kind key).Nested where
  current_lt := by simp [ScopeTree.push]
  parents := by
    intro index s parent hScope hParent
    simp only [ScopeTree.push, Array.getElem?_push] at hScope
    split at hScope
    · rename_i hLast
      cases hScope
      cases hParent
      rw [hLast]
      exact h.current_lt
    · exact h.parents index s parent hScope hParent

theorem Nested.bind {t : ScopeTree} (h : t.Nested) (name : String) (id : SymbolId) :
    (t.bind name id).Nested where
  current_lt := by simpa [ScopeTree.bind] using h.current_lt
  parents := by
    intro index s parent hScope hParent
    simp only [ScopeTree.bind, Array.getElem?_modify] at hScope
    split at hScope
    · obtain ⟨old, hOld, rfl⟩ := Option.map_eq_some_iff.1 hScope
      exact h.parents index old parent hOld hParent
    · exact h.parents index s parent hScope hParent

theorem Nested.pop {t : ScopeTree} (h : t.Nested) : t.pop.Nested := by
  rw [ScopeTree.pop]
  split
  · rename_i parent hParent
    obtain ⟨s, hScope, hParent⟩ := Option.bind_eq_some_iff.1 hParent
    have hLt := h.parents t.current s parent hScope hParent
    have hCurrent := h.current_lt
    refine ⟨?_, h.parents⟩
    show t.scopes.size > parent
    omega
  · exact h

/-- Ways out do not change when a scope is entered. -/
theorem outward_push (h : t.Nested) (kind : ScopeKind) (key : ScopeKey) {index : Nat}
    (hIndex : index < t.scopes.size) : (t.push kind key).outward index = t.outward index := by
  have hSize : (t.push kind key).scopes.size = t.scopes.size + 1 := by simp [push]
  rw [outward, hSize, enclosing_limit (h.push kind key).parents (by omega) hIndex]
  refine enclosing_congr h.parents t.scopes.size index fun i hi => ?_
  have hNe : i ≠ t.scopes.size := by omega
  simp [push, Array.getElem?_push, hNe]

/-- Entering a scope puts it in front. -/
theorem chain_push (h : t.Nested) (kind : ScopeKind) (key : ScopeKey) :
    (t.push kind key).chain = { kind, parent := some t.current, key } :: t.chain := by
  have hNew : (t.push kind key).scopes[(t.push kind key).current]? =
      some { kind, parent := some t.current, key } := by
    simp [push]
  exact ((h.push kind key).outward_eq hNew).trans
    (congrArg _ (outward_push h kind key h.current_lt))

theorem chain_ne_nil (h : t.Nested) : t.chain ≠ [] := by
  obtain ⟨s, hScope⟩ := h.exists_current
  rw [chain, h.outward_eq hScope]
  exact cons_ne_nil _ _

/-- A new binding is put at the end of the first scope. -/
theorem chain_bind (h : t.Nested) (name : String) (id : SymbolId) :
    (t.bind name id).chain =
      t.chain.modifyHead fun s => { s with bindings := s.bindings ++ [(name, id)] } := by
  obtain ⟨s, hScope⟩ := h.exists_current
  have hNew : (t.bind name id).scopes[(t.bind name id).current]? =
      some { s with bindings := s.bindings ++ [(name, id)] } := by
    simp [bind, Array.getElem?_modify, hScope]
  rw [chain, (h.bind name id).outward_eq hNew, chain, h.outward_eq hScope, modifyHead_cons]
  cases hParent : s.parent with
  | none => rfl
  | some parent =>
    have hLt := h.parents t.current s parent hScope hParent
    have hSize : (t.bind name id).scopes.size = t.scopes.size := by simp [bind]
    -- The changed scope lies behind every scope on the way out of its parent.
    have hSame : (t.bind name id).outward parent = t.outward parent := by
      rw [outward, hSize]
      refine enclosing_congr h.parents t.scopes.size parent fun i hi => ?_
      have hNe : i ≠ t.current := by omega
      simp [bind, Array.getElem?_modify, Ne.symm hNe]
    simp only [hSame]

theorem exists_pop_eq (t : ScopeTree) : ∃ index, t.pop = { t with current := index } := by
  rw [pop]
  split <;> exact ⟨_, rfl⟩

/-- Leaving a scope takes it away, unless it is the only one. -/
theorem chain_pop (h : t.Nested) :
    t.pop.chain = if t.chain.tail = [] then t.chain else t.chain.tail := by
  obtain ⟨s, hScope⟩ := h.exists_current
  have hChain : t.chain = _ := h.outward_eq hScope
  cases hParent : s.parent with
  | none =>
    have hPop : t.pop = t := by
      rw [pop, scope?, hScope, Option.bind_some, hParent]
    rw [hParent] at hChain
    rw [hPop, hChain, tail_cons, if_pos rfl]
  | some parent =>
    have hPop : t.pop = { t with current := parent } := by
      rw [pop, scope?, hScope, Option.bind_some, hParent]
    have hTail : t.chain.tail = t.pop.chain := by
      rw [hChain, hParent, hPop, tail_cons]
      rfl
    rw [hTail, if_neg (chain_ne_nil h.pop)]

/-! ## Keys -/

/-- What the scopes on the way out are, apart from their bindings. -/
def way (t : ScopeTree) (index : ScopeIndex) : List (ScopeKind × ScopeKey) :=
  (t.outward index).map fun s => (s.kind, s.key)

/-- The function that a scope is the body of. -/
def function? : ScopeKind × ScopeKey → Option FunctionId
  | (.function, .function id) => some id
  | _ => none

/-- The keys on a way out: a function has its own, and a block that of the scope around it. -/
inductive Keyed (home : ModuleScopeId) : List (ScopeKind × ScopeKey) → Prop
  | module : Keyed home [(.module, .module home)]
  | function (id : FunctionId) {way : List (ScopeKind × ScopeKey)} (h : Keyed home way) :
      Keyed home ((.function, .function id) :: way)
  | block {kind : ScopeKind} {key : ScopeKey} {way : List (ScopeKind × ScopeKey)}
      (h : Keyed home ((kind, key) :: way)) : Keyed home ((.block, key) :: (kind, key) :: way)

section Keys

variable {home : ModuleScopeId} {kind : ScopeKind} {key : ScopeKey}
  {way : List (ScopeKind × ScopeKey)}

/-- A key is that of the innermost function, or that of the module. -/
theorem Keyed.key_eq (h : Keyed home ((kind, key) :: way)) :
    key = (((kind, key) :: way).findSome? function?).elim (.module home) .function := by
  generalize hWay : (kind, key) :: way = all at h
  induction h generalizing kind key way with
  | module | function => cases hWay; rfl
  | block _ ih =>
    cases hWay
    exact ih rfl

/-- A key is that of the innermost scope that is no block. -/
theorem Keyed.nearest (h : Keyed home ((kind, key) :: way)) :
    (((kind, key) :: way).find? fun s => s.1 ≠ .block).map Prod.snd = some key := by
  generalize hWay : (kind, key) :: way = all at h
  induction h generalizing kind key way with
  | module | function => cases hWay; rfl
  | block _ ih =>
    cases hWay
    exact ih rfl

end Keys

/-- The way out of a scope starts with what it is. -/
theorem Nested.way_eq {t : ScopeTree} (h : t.Nested) {index : Nat} {s : Scope}
    (hScope : t.scopes[index]? = some s) : ∃ rest, t.way index = (s.kind, s.key) :: rest := by
  rw [way, h.outward_eq hScope]
  exact ⟨_, rfl⟩

theorem way_bind (t : ScopeTree) (name : String) (id : SymbolId) (index : ScopeIndex) :
    (t.bind name id).way index = t.way index := by
  have hSize : (t.bind name id).scopes.size = t.scopes.size := by simp [bind]
  rw [way, way, outward, outward, hSize]
  generalize t.scopes.size = limit
  induction limit generalizing index with
  | zero => rfl
  | succ limit ih =>
    cases hScope : t.scopes[index]? with
    | none => simp [enclosing, bind, Array.getElem?_modify, hScope]
    | some s =>
      by_cases hCurrent : t.current = index <;> cases hParent : s.parent <;>
        simp [enclosing, bind, Array.getElem?_modify, hScope, hCurrent, hParent, ← ih]

end LuaShape.ScopeTree
