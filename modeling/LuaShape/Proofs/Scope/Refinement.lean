import LuaShape.Proofs.Scope.Frames

/-!
# A scope tree refines a stack of frames

`Scoping` carries out operations on a scope tree and, beside it, on a stack of frames: entering
a scope pushes an empty frame, leaving one pops a frame but never the last, and a binding is put
in front of the top frame.  The bindings that were ever added are listed too, each with the scope
it was added to.  Every operation keeps tree, stack and list in step (`Refined.step`).

Main result: `tree_refines_frames`.
-/

namespace LuaShape

open List

namespace ScopeTree

variable {t : ScopeTree}

/-! ## Bindings of a tree -/

/-- A scope has a binding. -/
def Binds (t : ScopeTree) (index : Nat) (name : String) (id : SymbolId) : Prop :=
  ∃ s, t.scopes[index]? = some s ∧ (name, id) ∈ s.bindings

variable {index : Nat} {name : String} {id : SymbolId}

theorem binds_push {kind : ScopeKind} {key : ScopeKey} :
    (t.push kind key).Binds index name id ↔ t.Binds index name id := by
  by_cases hNew : index = t.scopes.size <;> simp [Binds, push, Array.getElem?_push, hNew]

theorem binds_bind (h : t.Nested) {name new : String} {id symbol : SymbolId} :
    (t.bind new symbol).Binds index name id ↔
      t.Binds index name id ∨ index = t.current ∧ name = new ∧ id = symbol := by
  obtain ⟨s, hScope⟩ := h.exists_current
  by_cases hIndex : t.current = index
  · subst hIndex
    simp [Binds, bind, Array.getElem?_modify, hScope]
  · simp [Binds, bind, Array.getElem?_modify, hIndex, Ne.symm hIndex]

/-- A binding that only one scope has is found there. -/
theorem Binds.definingScope?_eq (h : t.Binds index name id)
    (hOnly : ∀ i n, t.Binds i n id → i = index) : t.definingScope? id = some index := by
  obtain ⟨s, hScope, hMem⟩ := h
  have hDeclares : s.declares id = true := any_eq_true.2 ⟨_, hMem, by simp⟩
  obtain ⟨hLt, hEq⟩ := List.getElem?_eq_some_iff.1 (Array.getElem?_toList ▸ hScope)
  refine List.findIdx?_eq_some_iff_getElem.2 ⟨hLt, by rwa [hEq], fun j hj hOther => ?_⟩
  obtain ⟨⟨n, other⟩, hBinding, hSame⟩ := any_eq_true.1 hOther
  obtain rfl : other = id := by simpa using hSame
  have hBinds : t.Binds j n other := ⟨_, by simp, hBinding⟩
  exact Nat.lt_irrefl _ (hOnly j n hBinds ▸ hj)

theorem exists_binds_of_definingScope? (h : t.definingScope? id = some index) :
    ∃ name, t.Binds index name id := by
  obtain ⟨hLt, hDeclares, -⟩ := findIdx?_eq_some_iff_getElem.1 h
  obtain ⟨⟨name, other⟩, hBinding, hSame⟩ := any_eq_true.1 hDeclares
  obtain rfl : other = id := by simpa using hSame
  exact ⟨name, _, by simp, hBinding⟩

theorem exists_binds_of_nameOf? (h : t.nameOf? id = some name) : ∃ index, t.Binds index name id := by
  obtain ⟨s, hs, hFound⟩ := exists_of_findSome?_eq_some h
  obtain ⟨⟨n, symbol⟩, hFind, rfl⟩ := Option.map_eq_some_iff.1 hFound
  obtain rfl : symbol = id := by simpa using find?_some hFind
  obtain ⟨i, hScope⟩ := getElem?_of_mem hs
  exact ⟨i, s, by simpa using hScope, mem_of_find?_eq_some hFind⟩

/-- A binding that has only one name is found under it. -/
theorem Binds.nameOf?_eq (h : t.Binds index name id) (hOnly : ∀ i n, t.Binds i n id → n = name) :
    t.nameOf? id = some name := by
  cases hName : t.nameOf? id with
  | none =>
    obtain ⟨s, hScope, hMem⟩ := h
    have hNone := findSome?_eq_none_iff.1 hName s
      (Array.mem_toList_iff.2 (Array.mem_of_getElem? hScope))
    exact absurd (by simp) (find?_eq_none.1 (Option.map_eq_none_iff.1 hNone) _ hMem)
  | some other =>
    obtain ⟨i, hBinds⟩ := exists_binds_of_nameOf? hName
    rw [hOnly i other hBinds]

end ScopeTree

/-! ## The stack -/

/-- A frame: the function whose body it is for, if any, and its bindings, newest first. -/
structure Frame where
  function : Option FunctionId := none
  bindings : List (String × SymbolId) := []

/-- A scope as a frame. -/
def Frame.ofScope (s : Scope) : Frame := ⟨ScopeTree.function? (s.kind, s.key), s.bindings.reverse⟩

/-- A binding as it was added: to which scope, and whether a function frame was open. -/
structure Added where
  symbol : SymbolId
  name : String
  scope : ScopeIndex
  inFunction : Bool

/-- An operation on scopes. -/
inductive ScopeOp where
  | pushFunction (id : FunctionId)
  | pushBlock
  | pop
  | add (kind : SymbolKind) (name : String)
  /-- Something else gets a number. -/
  | mint (kind : SymbolKind) (name : String)

/-- A scope tree beside a stack of frames. -/
structure Scoping where
  tree : ScopeTree
  registry : Registry
  frames : List Frame := [{}]
  added : List Added := []

namespace Scoping

/-- Whether a function frame is open. -/
def inFunction (m : Scoping) : Bool := m.frames.any fun frame => frame.function.isSome

/-- The newest binding of a name in the innermost frame that has one. -/
def lookup? (m : Scoping) (name : String) : Option SymbolId :=
  ((m.frames.flatMap Frame.bindings).find? fun binding => binding.1 = name).map Prod.snd

/-- Carry out an operation on both. -/
def step (m : Scoping) : ScopeOp → Scoping
  | .pushFunction id =>
    { m with tree := m.tree.pushFunction id, frames := { function := some id } :: m.frames }
  | .pushBlock => { m with tree := m.tree.pushBlock, frames := {} :: m.frames }
  | .pop =>
    { m with
      tree := m.tree.pop
      frames := if m.frames.tail = [] then m.frames else m.frames.tail }
  | .add kind name =>
    let (symbol, tree, registry) := m.tree.declare m.registry kind name
    { tree
      registry
      frames := m.frames.modifyHead fun frame =>
        { frame with bindings := (name, symbol) :: frame.bindings }
      added := ⟨symbol, name, m.tree.current, m.inFunction⟩ :: m.added }
  | .mint kind name => { m with registry := (m.registry.mint kind name).2 }

/-- The tree and the stack are in step. -/
structure Refined (m : Scoping) : Prop where
  nested : m.tree.Nested
  frames_eq : m.frames = m.tree.chain.map Frame.ofScope
  keyed : ∀ index < m.tree.scopes.size, ScopeTree.Keyed m.tree.home (m.tree.way index)
  binds : ∀ index name id, m.tree.Binds index name id ↔
    ∃ b ∈ m.added, b.scope = index ∧ b.name = name ∧ b.symbol = id
  unique : ∀ b ∈ m.added, ∀ b' ∈ m.added, b.symbol = b'.symbol → b = b'
  fresh : ∀ b ∈ m.added, b.symbol.index < m.registry.size
  level : ∀ b ∈ m.added,
    b.inFunction = (m.tree.way b.scope).any fun s => (ScopeTree.function? s).isSome

namespace Refined

variable {m : Scoping}

theorem binds_of_mem (h : m.Refined) {b : Added} (hb : b ∈ m.added) :
    m.tree.Binds b.scope b.name b.symbol :=
  (h.binds _ _ _).2 ⟨b, hb, rfl, rfl, rfl⟩

theorem scope_lt (h : m.Refined) {b : Added} (hb : b ∈ m.added) :
    b.scope < m.tree.scopes.size := by
  obtain ⟨s, hScope, -⟩ := h.binds_of_mem hb
  exact (Array.getElem?_eq_some_iff.1 hScope).1

theorem start (home : ModuleScopeId) (registry : Registry) :
    Refined { tree := .ofModule home, registry } where
  nested := ScopeTree.nested_ofModule home
  frames_eq := rfl
  keyed := by
    intro index hIndex
    obtain rfl : index = 0 := Nat.lt_one_iff.1 hIndex
    exact .module
  binds := by
    intro index name id
    cases index <;> simp [ScopeTree.Binds, ScopeTree.ofModule]
  unique := by simp
  fresh := by simp
  level := by simp

variable (h : m.Refined)
include h

theorem push (kind : ScopeKind) (key : ScopeKey)
    (hKeyed : ScopeTree.Keyed m.tree.home ((kind, key) :: m.tree.way m.tree.current)) :
    Refined
      { m with
        tree := m.tree.push kind key
        frames := { function := ScopeTree.function? (kind, key) } :: m.frames } := by
  have hOld {index : Nat} (hIndex : index < m.tree.scopes.size) :
      (m.tree.push kind key).way index = m.tree.way index :=
    congrArg _ (ScopeTree.outward_push h.nested kind key hIndex)
  refine { h with
    nested := h.nested.push kind key, frames_eq := ?_, keyed := ?_, binds := ?_, level := ?_ }
  · rw [ScopeTree.chain_push h.nested, h.frames_eq]
    rfl
  · intro index hIndex
    have hSize : (m.tree.push kind key).scopes.size = m.tree.scopes.size + 1 := by
      simp [ScopeTree.push]
    rcases Nat.lt_or_eq_of_le (Nat.le_of_lt_succ (hSize ▸ hIndex)) with hLt | rfl
    · exact hOld hLt ▸ h.keyed index hLt
    · have hNew : (m.tree.push kind key).way m.tree.scopes.size =
          (kind, key) :: m.tree.way m.tree.current :=
        congrArg (List.map _) (ScopeTree.chain_push h.nested kind key)
      exact hNew ▸ hKeyed
  · exact fun index name id => ScopeTree.binds_push.trans (h.binds index name id)
  · exact fun b hb => (h.level b hb).trans (by rw [hOld (h.scope_lt hb)])

theorem grow {registry : Registry} (hLe : m.registry.size ≤ registry.size) :
    Refined { m with registry } :=
  { h with fresh := fun b hb => Nat.lt_of_lt_of_le (h.fresh b hb) hLe }

theorem pop : (m.step .pop).Refined := by
  have hNested := h.nested.pop
  have hFrames : (m.step .pop).frames = m.tree.pop.chain.map Frame.ofScope := by
    show (if m.frames.tail = [] then m.frames else m.frames.tail) = _
    rw [ScopeTree.chain_pop h.nested, h.frames_eq, ← map_tail, apply_ite (List.map _)]
    simp only [map_eq_nil_iff]
  obtain ⟨index, hPop⟩ := m.tree.exists_pop_eq
  show Refined { m with tree := m.tree.pop, frames := (m.step .pop).frames }
  rw [hPop] at hNested hFrames ⊢
  exact { h with nested := hNested, frames_eq := hFrames }

theorem add (kind : SymbolKind) (name : String) : (m.step (.add kind name)).Refined := by
  let symbol : SymbolId := ⟨m.registry.size⟩
  let new : Added := ⟨symbol, name, m.tree.current, m.inFunction⟩
  have hOther {b : Added} (hb : b ∈ m.added) : b.symbol ≠ symbol := fun hSame =>
    Nat.lt_irrefl _ (congrArg SymbolId.index hSame ▸ h.fresh b hb)
  refine ⟨h.nested.bind name symbol, ?_, ?_, ?_, ?_, ?_, ?_⟩
  · show m.frames.modifyHead _ = (m.tree.bind name symbol).chain.map _
    rw [ScopeTree.chain_bind h.nested, h.frames_eq]
    cases m.tree.chain <;> simp [Frame.ofScope, symbol]
  · intro index hIndex
    show ScopeTree.Keyed m.tree.home ((m.tree.bind name symbol).way index)
    rw [ScopeTree.way_bind]
    exact h.keyed index (by simpa [step, ScopeTree.declare, ScopeTree.bind] using hIndex)
  · intro index other id
    show (m.tree.bind name symbol).Binds index other id ↔ ∃ b ∈ new :: m.added, _
    rw [ScopeTree.binds_bind h.nested, h.binds]
    simp [new, eq_comm, or_comm]
  · intro b hb b' hb' hSame
    rcases mem_cons.1 hb with rfl | hb <;> rcases mem_cons.1 hb' with rfl | hb'
    · rfl
    · exact absurd hSame.symm (hOther hb')
    · exact absurd hSame (hOther hb)
    · exact h.unique b hb b' hb' hSame
  · intro b hb
    show b.symbol.index < (m.registry.mint kind name).2.size
    rw [Registry.size_mint]
    rcases mem_cons.1 hb with rfl | hb
    · exact Nat.lt_succ_self _
    · exact Nat.lt_succ_of_lt (h.fresh b hb)
  · intro b hb
    show _ = ((m.tree.bind name symbol).way b.scope).any _
    rw [ScopeTree.way_bind]
    rcases mem_cons.1 hb with rfl | hb
    · show m.frames.any _ = _
      rw [h.frames_eq, ScopeTree.way, any_map, any_map]
      rfl
    · exact h.level b hb

/-- The way out of the current scope starts with its key. -/
theorem way_current : ∃ kind rest,
    m.tree.way m.tree.current = (kind, m.tree.currentKey) :: rest := by
  obtain ⟨s, hScope⟩ := h.nested.exists_current
  obtain ⟨rest, hWay⟩ := h.nested.way_eq hScope
  exact ⟨s.kind, rest, by rw [hWay, ScopeTree.currentKey, ScopeTree.scope?, hScope]; rfl⟩

/-- Every operation keeps the tree and the stack in step. -/
theorem step (op : ScopeOp) : (m.step op).Refined := by
  have hKeyed := h.keyed _ h.nested.current_lt
  cases op with
  | pushFunction id => exact h.push .function (.function id) (.function id hKeyed)
  | pushBlock =>
    obtain ⟨kind, rest, hWay⟩ := h.way_current
    refine h.push .block m.tree.currentKey ?_
    rw [hWay] at hKeyed ⊢
    exact .block hKeyed
  | pop => exact h.pop
  | add kind name => exact h.add kind name
  | mint kind name => exact h.grow (by simp)

theorem run (ops : List ScopeOp) : (ops.foldl Scoping.step m).Refined := by
  induction ops generalizing m with
  | nil => exact h
  | cons op ops ih => exact ih (h.step op)

/-! ## What the tree says -/

theorem lookup?_eq (name : String) : m.tree.lookup? name = m.lookup? name := by
  rw [Scoping.lookup?, h.frames_eq, flatMap_map, find?_flatMap, map_findSome?]
  rfl

/-- The key of the current scope is that of the innermost function frame. -/
theorem currentKey_eq : m.tree.currentKey =
    (m.frames.filterMap Frame.function).head?.elim (.module m.tree.home) .function := by
  obtain ⟨kind, rest, hWay⟩ := h.way_current
  have hKeyed := h.keyed _ h.nested.current_lt
  rw [hWay] at hKeyed
  rw [hKeyed.key_eq, ← hWay, ScopeTree.way, findSome?_map, head?_filterMap, h.frames_eq,
    findSome?_map]
  rfl

/-- A binding keeps its scope and its name. -/
theorem kept {b : Added} (hb : b ∈ m.added) :
    m.tree.definingScope? b.symbol = some b.scope ∧ m.tree.nameOf? b.symbol = some b.name := by
  have hOnly {index : Nat} {name : String} (hBinds : m.tree.Binds index name b.symbol) :
      index = b.scope ∧ name = b.name := by
    obtain ⟨other, hOther, rfl, rfl, hSame⟩ := (h.binds index name b.symbol).1 hBinds
    rw [h.unique other hOther b hb hSame]
    exact ⟨rfl, rfl⟩
  have hBinds := h.binds_of_mem hb
  exact ⟨hBinds.definingScope?_eq fun _ _ hOther => (hOnly hOther).1,
    hBinds.nameOf?_eq fun _ _ hOther => (hOnly hOther).2⟩

/-- An index of the bindings by their symbols, to which each is added when it is declared, holds
the scope and the name that searches through the tree find. -/
theorem index_eq (id : SymbolId) :
    m.tree.definingScope? id = (m.added.find? fun b => b.symbol = id).map Added.scope ∧
      m.tree.nameOf? id = (m.added.find? fun b => b.symbol = id).map Added.name := by
  cases hFind : m.added.find? fun b => b.symbol = id with
  | some b =>
    obtain rfl : b.symbol = id := by simpa using find?_some hFind
    exact h.kept (mem_of_find?_eq_some hFind)
  | none =>
    have hFree (index : Nat) (name : String) : ¬ m.tree.Binds index name id := by
      intro hBinds
      obtain ⟨b, hb, -, -, hSame⟩ := (h.binds index name id).1 hBinds
      exact absurd hSame (by simpa using find?_eq_none.1 hFind b hb)
    refine ⟨Option.eq_none_iff_forall_not_mem.2 fun index hIndex => ?_,
      Option.eq_none_iff_forall_not_mem.2 fun name hName => ?_⟩
    · obtain ⟨name, hBinds⟩ := ScopeTree.exists_binds_of_definingScope? hIndex
      exact hFree index name hBinds
    · obtain ⟨index, hBinds⟩ := ScopeTree.exists_binds_of_nameOf? hName
      exact hFree index name hBinds

theorem isModuleLevel_iff (id : SymbolId) : m.tree.isModuleLevel id = true ↔
    ∃ b ∈ m.added, b.symbol = id ∧ b.inFunction = false := by
  have hLevel {b : Added} (hb : b ∈ m.added) :
      m.tree.isModuleLevel b.symbol = true ↔ b.inFunction = false := by
    obtain ⟨s, hScope, -⟩ := h.binds_of_mem hb
    obtain ⟨rest, hWay⟩ := h.nested.way_eq hScope
    have hKeyed := h.keyed b.scope (h.scope_lt hb)
    rw [hWay] at hKeyed
    rw [ScopeTree.isModuleLevel, (h.kept hb).1, Option.bind_some, ScopeTree.scope?, hScope,
      Option.map_some, hKeyed.key_eq, h.level b hb, hWay, ← isSome_findSome?]
    cases ((s.kind, s.key) :: rest).findSome? ScopeTree.function? <;> simp
  constructor
  · intro hModule
    cases hDefining : m.tree.definingScope? id with
    | none => simp [ScopeTree.isModuleLevel, hDefining] at hModule
    | some index =>
      obtain ⟨name, hBinds⟩ := ScopeTree.exists_binds_of_definingScope? hDefining
      obtain ⟨b, hb, -, -, rfl⟩ := (h.binds index name id).1 hBinds
      exact ⟨b, hb, rfl, (hLevel hb).1 hModule⟩
  · rintro ⟨b, hb, rfl, hOutside⟩
    exact (hLevel hb).2 hOutside

end Refined

/-- **A scope tree refines a stack of frames.**  After any operations on the tree of a module,
names are looked up as in the stack, newest binding and innermost frame first.  Every binding
that was ever added keeps its scope and its name, whether or not the scope has been left.  The
key of a scope is that of the innermost scope around it that is no block, the scope itself
included.  The bindings at module level are those that were added while no function frame was
open. -/
theorem tree_refines_frames (home : ModuleScopeId) (registry : Registry) (ops : List ScopeOp) :
    let m := ops.foldl Scoping.step { tree := .ofModule home, registry }
    (∀ name, m.tree.lookup? name = m.lookup? name) ∧
      (∀ b ∈ m.added, m.tree.definingScope? b.symbol = some b.scope ∧
        m.tree.nameOf? b.symbol = some b.name) ∧
      (∀ (index : Nat) (s : Scope), m.tree.scopes[index]? = some s →
        ((m.tree.outward index).find? fun outer => outer.kind ≠ .block).map Scope.key =
          some s.key) ∧
      ∀ id, m.tree.isModuleLevel id = true ↔
        ∃ b ∈ m.added, b.symbol = id ∧ b.inFunction = false := by
  intro m
  have h : m.Refined := (Refined.start home registry).run ops
  refine ⟨h.lookup?_eq, fun b => h.kept, fun index s hScope => ?_, h.isModuleLevel_iff⟩
  obtain ⟨rest, hWay⟩ := h.nested.way_eq hScope
  have hKeyed := h.keyed index (Array.getElem?_eq_some_iff.1 hScope).1
  rw [hWay] at hKeyed
  have hNearest := hKeyed.nearest
  rw [← hWay, ScopeTree.way, find?_map, Option.map_map] at hNearest
  exact hNearest

end Scoping

end LuaShape
