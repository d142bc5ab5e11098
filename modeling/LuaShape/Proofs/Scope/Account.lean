import LuaShape.Proofs.LoadOrder.FreeNames
import LuaShape.Proofs.Scope.AssignedGlobals

/-!
# What a walk adds to its account

A walk by the rules of scope passes over no name: every name among the parts of the code is
mentioned, but for those inside a call that requires a module by a literal name.  It enters
all globals that the code assigns, with what is assigned inside a function as such, and each
require under the number of a part of the code.

The effects of loading code are read off the syntax with a list of the local names in scope,
and function bodies are skipped.  What the walk enters outside functions is what the effects
have.
-/

namespace LuaShape

open List

/-- The name that a part of a tree is or starts with, under the number of the expression if
it is one. -/
def Node.occurrence? : Node → Option (Option Nat × String)
  | .expr (.name mark text) => some (some mark.id, text)
  | .statement (.function _ name _) => some (none, name.root)
  | _ => none

/-! ## Effects of expressions -/

namespace Effects

variable {a b : Effects} {name : String}

@[simp]
theorem mem_writes_append : name ∈ (a ++ b).writes ↔ name ∈ a.writes ∨ name ∈ b.writes :=
  SortedSet.mem_union

@[simp]
theorem mem_requires_append : name ∈ (a ++ b).requires ↔ name ∈ a.requires ∨ name ∈ b.requires :=
  SortedSet.mem_union

@[simp]
theorem not_mem_writes_none : name ∉ none.writes := SortedSet.not_mem_empty name

@[simp]
theorem not_mem_requires_none : name ∉ none.requires := SortedSet.not_mem_empty name

@[simp]
theorem not_mem_writes_read (scope : List String) (text : String) :
    name ∉ (read scope text).writes := by
  rw [read]
  split <;> exact SortedSet.not_mem_empty name

@[simp]
theorem not_mem_requires_write (scope : List String) (text : String) :
    name ∉ (write scope text).requires := by
  rw [write]
  split <;> exact SortedSet.not_mem_empty name

@[simp]
theorem not_mem_writes_require (module : Option String) : name ∉ (require module).writes := by
  cases module <;> exact SortedSet.not_mem_empty name

/-- Evaluating an expression assigns nothing. -/
theorem not_mem_writes_ofExpr (scope : List String) (e : Expr) :
    name ∉ (ofExpr scope e).writes := by
  intro h
  rcases (has_ofExpr_iff (d := .write name)).1 h with ⟨_, hDoes, -⟩ | ⟨inner, hInner, hMem⟩
  · cases hDoes
  · exact not_mem_writes_ofExpr scope inner hMem
termination_by sizeOf e
decreasing_by exact Expr.sizeOf_operand_lt hInner

/-- A module that an expression stands for is among those that it requires. -/
theorem mem_requires_ofExpr {place : Lexical.Place} {scope : List String}
    (h : place.Names scope) {argument : String} :
    (e : Expr) → place.requiredBy? e = some argument →
      ModuleName.ofRequire argument ∈ (ofExpr scope e).requires
  | .call _ callee args, hRequired => by
      have hName : place.requiredName? callee args = some argument := hRequired
      rw [ofExpr, h.required?_eq, hName, mem_requires_append, mem_requires_append]
      exact .inl (.inl (SortedSet.mem_insert.2 (.inl rfl)))
  | .paren _ inner, hRequired => mem_requires_ofExpr h inner hRequired

/-- Other effects write the same globals and require no fewer modules. -/
structure Within (a b : Effects) : Prop where
  writes : ∀ name, name ∈ a.writes ↔ name ∈ b.writes
  requires : ∀ name, name ∈ a.requires → name ∈ b.requires

theorem within_none (h : ∀ name, name ∉ a.writes) : none.Within a :=
  ⟨fun name => iff_of_false not_mem_writes_none (h name),
    fun _ hMem => absurd hMem not_mem_requires_none⟩

end Effects

namespace Lexical

/-! ## Accounts -/

/-- The name of a part is mentioned, or the part stands inside a call, among certain parts,
that requires a module. -/
def Account.Covers (account : Account) (nodes : List Node) (n : Node) : Prop :=
  ∀ node name, n.occurrence? = some (node, name) →
    (∃ m ∈ account.mentions, m.node = node ∧ m.name = name) ∨
      ∃ mark callee args, .expr (.call mark callee args) ∈ nodes ∧
        n ∈ (Expr.call mark callee args).inside ∧
        ∃ argument inFunction, (mark.id, argument, inFunction) ∈ account.required

/-- What an expression requires at some place it requires at the top of a file. -/
theorem Place.requiredBy?_empty {place : Place} {argument : String} :
    (e : Expr) → place.requiredBy? e = some argument → requiredBy? {} e = some argument
  | .call _ callee args, h => by
      have hName : place.requiredName? callee args = some argument := h
      rw [requiredName?] at hName
      split at hName
      · rename_i hGlobal
        exact (if_pos ⟨hGlobal.1, rfl⟩).trans hName
      · cases hName
  | .paren _ inner, h => requiredBy?_empty inner h

/-- A require is entered under the number of an expression, among certain parts, that requires
the module. -/
def RequiredIn (nodes : List Node) (entry : Nat × String × Bool) : Prop :=
  ∃ e, .expr e ∈ nodes ∧ e.mark.id = entry.1 ∧ Place.requiredBy? {} e = some entry.2.1

theorem RequiredIn.mono {nodes nodes' : List Node} {entry : Nat × String × Bool}
    (h : RequiredIn nodes entry) (hNodes : nodes ⊆ nodes') : RequiredIn nodes' entry := by
  obtain ⟨e, he, hEntry⟩ := h
  exact ⟨e, hNodes he, hEntry⟩

theorem RequiredIn.mem_numbers {nodes : List Node} {entry : Nat × String × Bool}
    (h : RequiredIn nodes entry) : entry.1 ∈ Node.numbers nodes := by
  obtain ⟨e, he, hId, -⟩ := h
  exact mem_filterMap.2 ⟨.expr e, he, congrArg some hId⟩

/-- What code adds to an account if it has certain parts, assigns certain globals and is loaded
with certain effects; `inside` says that it is inside a function.  Outside functions it assigns
what its effects write, if it is regular.  What it requires is among its effects or inside a
function. -/
structure Adds (inside : Bool) (nodes : List Node) (globals : List String) (effects : Effects)
    (before after : Account) : Prop where
  mentions : before.mentions ⊆ after.mentions
  assigned : before.assigned ⊆ after.assigned
  required : before.required ⊆ after.required
  covers : ∀ n ∈ nodes, after.Covers nodes n
  globals : ∀ name ∈ globals, name ∈ after.assigned.map Prod.fst
  assigned_new : ∀ entry ∈ after.assigned,
    entry ∈ before.assigned ∨ (inside = true → entry.2 = true)
  required_new : ∀ entry ∈ after.required, entry ∈ before.required ∨ RequiredIn nodes entry
  writes : inside = false → (∀ n ∈ nodes, n.isRegular = true) → ∀ name,
    (name, false) ∈ after.assigned ↔ (name, false) ∈ before.assigned ∨ name ∈ effects.writes
  requires : ∀ entry ∈ after.required, entry ∈ before.required ∨
    ModuleName.ofRequire entry.2.1 ∈ effects.requires ∨
    ∃ body, .function body ∈ nodes ∧ RequiredIn body.parts entry

section Rules

variable {inside : Bool} {nodes nodes' : List Node} {globals globals' : List String}
variable {effects effects' : Effects} {first second third : Account}

theorem Account.Covers.mono {n : Node} (h : first.Covers nodes n)
    (hMentions : first.mentions ⊆ second.mentions) (hRequired : first.required ⊆ second.required)
    (hNodes : nodes ⊆ nodes') : second.Covers nodes' n := by
  intro node name hName
  rcases h node name hName with ⟨m, hm, hEq⟩ | ⟨mark, callee, args, hCall, hInside, a, f, hEntry⟩
  · exact .inl ⟨m, hMentions hm, hEq⟩
  · exact .inr ⟨mark, callee, args, hNodes hCall, hInside, a, f, hRequired hEntry⟩

/-- Nothing is assigned or required. -/
theorem Adds.idle (hMentions : first.mentions ⊆ second.mentions)
    (hAssigned : second.assigned = first.assigned) (hRequired : second.required = first.required)
    (hCovers : ∀ n ∈ nodes, second.Covers nodes n) : Adds inside nodes [] .none first second where
  mentions := hMentions
  assigned := by rw [hAssigned]; exact List.Subset.refl _
  required := by rw [hRequired]; exact List.Subset.refl _
  covers := hCovers
  globals := fun name hName => by cases hName
  assigned_new := fun entry hEntry => .inl (hAssigned ▸ hEntry)
  required_new := fun entry hEntry => .inl (hRequired ▸ hEntry)
  writes := fun _ _ name => by simp [hAssigned]
  requires := fun entry hEntry => .inl (hRequired ▸ hEntry)

theorem Adds.refl (account : Account) : Adds inside [] [] .none account account :=
  .idle (List.Subset.refl _) rfl rfl fun n hn => by cases hn

theorem Adds.trans (h : Adds inside nodes globals effects first second)
    (h' : Adds inside nodes' globals' effects' second third) :
    Adds inside (nodes ++ nodes') (globals ++ globals') (effects ++ effects') first third where
  mentions := List.Subset.trans h.mentions h'.mentions
  assigned := List.Subset.trans h.assigned h'.assigned
  required := List.Subset.trans h.required h'.required
  covers := by
    intro n hn
    rcases mem_append.1 hn with hn | hn
    · exact (h.covers n hn).mono h'.mentions h'.required (subset_append_left _ _)
    · exact (h'.covers n hn).mono (List.Subset.refl _) (List.Subset.refl _)
        (subset_append_right _ _)
  globals := by
    intro name hName
    rcases mem_append.1 hName with hName | hName
    · exact map_subset Prod.fst h'.assigned (h.globals name hName)
    · exact h'.globals name hName
  assigned_new := by
    intro entry hEntry
    rcases h'.assigned_new entry hEntry with hOld | hNew
    · exact h.assigned_new entry hOld
    · exact .inr hNew
  required_new := by
    intro entry hEntry
    rcases h'.required_new entry hEntry with hOld | hIn
    · exact (h.required_new entry hOld).imp_right fun hIn => hIn.mono (subset_append_left _ _)
    · exact .inr (hIn.mono (subset_append_right _ _))
  writes := by
    intro hOutside hRegular name
    rw [forall_mem_append] at hRegular
    rw [Effects.mem_writes_append, ← or_assoc, ← h.writes hOutside hRegular.1]
    exact h'.writes hOutside hRegular.2 name
  requires := by
    intro entry hEntry
    rw [Effects.mem_requires_append]
    rcases h'.requires entry hEntry with hOld | hNew | ⟨body, hBody, hIn⟩
    · rcases h.requires entry hOld with hOld | hNew | ⟨body, hBody, hIn⟩
      · exact .inl hOld
      · exact .inr (.inl (.inl hNew))
      · exact .inr (.inr ⟨body, mem_append_left _ hBody, hIn⟩)
    · exact .inr (.inl (.inr hNew))
    · exact .inr (.inr ⟨body, mem_append_right _ hBody, hIn⟩)

/-- More parts, or the same in another order, if the new ones have no names. -/
theorem Adds.widen (h : Adds inside nodes globals effects first second) (hNodes : nodes ⊆ nodes')
    (hNew : ∀ n ∈ nodes', n ∈ nodes ∨ n.occurrence? = none) :
    Adds inside nodes' globals effects first second :=
  { h with
    covers := by
      intro n hn
      rcases hNew n hn with hOld | hNone
      · exact (h.covers n hOld).mono (List.Subset.refl _) (List.Subset.refl _) hNodes
      · intro node name hName
        rw [hNone] at hName
        cases hName
    required_new := fun entry hEntry =>
      (h.required_new entry hEntry).imp_right fun hIn => hIn.mono hNodes
    writes := fun hOutside hRegular => h.writes hOutside fun n hn => hRegular n (hNodes hn)
    requires := fun entry hEntry => (h.requires entry hEntry).imp_right
      (Or.imp_right fun ⟨body, hBody, hIn⟩ => ⟨body, hNodes hBody, hIn⟩) }

/-- Wherever it starts, a walk adds what certain code adds. -/
def Walks (inside : Bool) (nodes : List Node) (globals : List String) (effects : Effects)
    {α : Type} (w : Walk α) : Prop :=
  ∀ account, Adds inside nodes globals effects account (w.run account).2

variable {α β : Type} {w : Walk α} {u : α → Walk β}

theorem Walks.pure (a : α) : Walks inside [] [] .none (pure a : Walk α) :=
  fun account => .refl account

theorem Walks.bind (hw : Walks inside nodes globals effects w)
    (hu : ∀ account, Walks inside nodes' globals' effects' (u (w.run account).1)) :
    Walks inside (nodes ++ nodes') (globals ++ globals') (effects ++ effects') (w >>= u) :=
  fun account => (hw account).trans (hu account _)

/-- One walk after the other, whatever the first gives. -/
theorem Walks.next (hw : Walks inside nodes globals effects w) {v : Walk β}
    (hv : Walks inside nodes' globals' effects' v) :
    Walks inside (nodes ++ nodes') (globals ++ globals') (effects ++ effects')
      (w >>= fun _ => v) :=
  hw.bind fun _ => hv

theorem Walks.widen (h : Walks inside nodes globals effects w) (hNodes : nodes ⊆ nodes')
    (hNew : ∀ n ∈ nodes', n ∈ nodes ∨ n.occurrence? = none) :
    Walks inside nodes' globals effects w :=
  fun account => (h account).widen hNodes hNew

/-- Fewer globals, and effects that come to the same. -/
theorem Walks.adjust (h : Walks inside nodes globals effects w) (hGlobals : globals' ⊆ globals)
    (hEffects : effects.Within effects') : Walks inside nodes globals' effects' w := fun account =>
  { h account with
    globals := fun name hName => (h account).globals name (hGlobals hName)
    writes := fun hOutside hRegular name =>
      ((h account).writes hOutside hRegular name).trans (or_congr_right (hEffects.writes name))
    requires := fun entry hEntry => ((h account).requires entry hEntry).imp_right
      (Or.imp_left (hEffects.requires _)) }

/-- One more part, which has no name. -/
theorem Walks.snoc (h : Walks inside nodes globals effects w) {n : Node}
    (hn : n.occurrence? = none) : Walks inside (nodes ++ [n]) globals effects w := by
  refine h.widen (subset_append_left _ _) fun m hm => ?_
  rcases mem_append.1 hm with hm | hm
  · exact .inl hm
  · rw [mem_singleton.1 hm]
    exact .inr hn

/-- A step in front that adds nothing of interest. -/
theorem Walks.lead (hw : Walks inside [] [] .none w)
    (hu : ∀ account, Walks inside nodes globals effects (u (w.run account).1)) :
    Walks inside nodes globals effects (w >>= u) := by
  refine (hw.bind hu).adjust (List.Subset.refl _) ⟨fun name => ?_, fun name => ?_⟩ <;> simp

/-- A step behind that adds nothing of interest. -/
theorem Walks.trail (hw : Walks inside nodes globals effects w)
    (hu : ∀ a, Walks inside [] [] .none (u a)) : Walks inside nodes globals effects (w >>= u) := by
  have h := hw.bind fun _ => hu _
  rw [append_nil, append_nil] at h
  refine h.adjust (List.Subset.refl _) ⟨fun name => ?_, fun name => ?_⟩ <;> simp

/-- A function may be looked at from outside, where it is not run. -/
theorem Walks.ofFunction {body : FunctionBody} (h : Walks true body.parts globals effects w) :
    Walks inside body.parts globals .none w := by
  intro account
  have hAdds := h account
  have hSelf : .function body ∈ body.parts := by
    cases body
    exact mem_cons_self
  refine { hAdds with assigned_new := ?_, writes := ?_, requires := ?_ }
  · exact fun entry hEntry =>
      (hAdds.assigned_new entry hEntry).imp_right fun hInside _ => hInside rfl
  · intro _ _ name
    simp only [Effects.not_mem_writes_none, or_false]
    constructor
    · intro hNew
      rcases hAdds.assigned_new _ hNew with hOld | hInside
      · exact hOld
      · cases hInside rfl
    · exact fun hOld => hAdds.assigned hOld
  · exact fun entry hEntry =>
      (hAdds.required_new entry hEntry).imp_right fun hIn => .inr ⟨body, hSelf, hIn⟩

end Rules

/-! ## Steps -/

section Steps

variable {inside : Bool} {place : Place} {scope : List String}

theorem walks_declare (name : String) : Walks inside [] [] .none (declare name) := fun _ =>
  .idle (List.Subset.refl _) rfl rfl fun n hn => by cases hn

theorem walks_declareAll (names : List String) : Walks inside [] [] .none (declareAll names) := by
  induction names with
  | nil => exact .pure []
  | cons name names ih => exact (walks_declare name).lead fun _ => ih.lead fun _ => .pure _

/-- A mention covers the parts that have its name. -/
theorem walks_mention {n : Node} (m : Mention)
    (h : ∀ node name, n.occurrence? = some (node, name) → m.node = node ∧ m.name = name) :
    Walks inside [n] [] .none (mention m) := by
  refine fun account => .idle (subset_append_left _ _) rfl rfl fun n' hn' node name hName => ?_
  rw [mem_singleton.1 hn'] at hName
  exact .inl ⟨m, mem_append_right _ (mem_singleton.2 rfl), h node name hName⟩

theorem walks_name (place : Place) (mark : Mark) (text : String) :
    Walks inside [.expr (.name mark text)] [] .none (ofExpr place (.name mark text)) :=
  walks_mention _ fun node name hName => by
    cases hName
    exact ⟨rfl, rfl⟩

theorem walks_mentionNew (binding : String × Nat) :
    Walks inside [] [] .none (mentionNew binding) := fun _ =>
  .idle (subset_append_left _ _) rfl rfl fun n hn => by cases hn

theorem walks_declareWithValue (name : String) :
    Walks inside [] [] .none (declareWithValue name) :=
  (walks_declare name).lead fun _ => (walks_mentionNew _).lead fun _ => .pure _

theorem walks_declareGiven (names : List String) (given : Nat) :
    Walks inside [] [] .none (declareGiven given names) := by
  induction names generalizing given with
  | nil => cases given <;> exact .pure []
  | cons name names ih =>
    cases given with
    | zero => exact (walks_declare name).lead fun _ => (ih 0).lead fun _ => .pure _
    | succ given =>
      exact (walks_declareWithValue name).lead fun _ => (ih given).lead fun _ => .pure _

theorem walks_assign (h : place.Names scope) (name : String) :
    Walks place.inFunction [] (AssignedGlobals.global scope name) (Effects.write scope name)
      (assign place name) := by
  have hFree := h.meaning?_eq_none_iff name
  rw [assign, AssignedGlobals.global, Effects.write]
  by_cases hScope : name ∈ scope
  · have hSome : (place.meaning? name).isSome = true := by
      rw [Option.isSome_iff_ne_none]
      exact fun hNone => hFree.1 hNone hScope
    rw [if_pos hSome, if_pos hScope, if_pos hScope]
    exact .pure ()
  · rw [if_neg hScope, if_neg hScope, if_neg (by simp [hFree.2 hScope])]
    intro account
    have hRefl : Adds place.inFunction [] [] .none account account := .refl account
    refine { hRefl with
      assigned := subset_append_left _ _, globals := ?_, assigned_new := ?_
      writes := ?_, requires := fun _ => .inl }
    · intro other hOther
      cases mem_singleton.1 hOther
      exact mem_map_of_mem (mem_append_right _ (mem_singleton.2 rfl))
    · intro entry hEntry
      rcases mem_append.1 hEntry with hOld | hNew
      · exact .inl hOld
      · rw [mem_singleton.1 hNew]
        exact .inr id
    · intro hOutside _ other
      show (other, false) ∈ account.assigned ++ [(name, place.inFunction)] ↔
        _ ∨ other ∈ SortedSet.empty.insert name
      rw [hOutside, mem_append, mem_singleton, SortedSet.mem_insert]
      simp [SortedSet.not_mem_empty]

/-- A require is entered under the number of an expression, whose inner parts are covered if
the expression is a call. -/
theorem adds_require (place : Place) {nodes : List Node} {effects : Effects} {e : Expr}
    {argument : String} (hRequired : place.requiredBy? e = some argument) (account : Account)
    (he : .expr e ∈ nodes)
    (hNodes : ∀ n ∈ nodes, n.occurrence? = none ∨
      ∃ mark callee args, e = .call mark callee args ∧ n ∈ e.inside)
    (hWrites : ∀ name, name ∉ effects.writes)
    (hRequires : ModuleName.ofRequire argument ∈ effects.requires) :
    Adds inside nodes [] effects account
      ((require place e.mark.id (some argument)).run account).2 := by
  have hEntry : (e.mark.id, argument, place.inFunction) ∈
      account.required ++ [(e.mark.id, argument, place.inFunction)] :=
    mem_append_right _ (mem_singleton.2 rfl)
  have hNew : ∀ entry ∈ account.required ++ [(e.mark.id, argument, place.inFunction)],
      entry ∈ account.required ∨ entry = (e.mark.id, argument, place.inFunction) := by simp
  have hRefl : Adds inside [] [] .none account account := .refl account
  refine { hRefl with
    required := subset_append_left _ _, covers := ?_, required_new := ?_
    writes := ?_, requires := ?_ }
  · intro n hn node name hName
    rcases hNodes n hn with hNone | ⟨mark, callee, args, rfl, hInside⟩
    · rw [hNone] at hName
      cases hName
    · exact .inr ⟨mark, callee, args, he, hInside, argument, place.inFunction, hEntry⟩
  · refine fun entry hMem => (hNew entry hMem).imp_right ?_
    rintro rfl
    exact ⟨e, he, rfl, Place.requiredBy?_empty e hRequired⟩
  · intro _ _ name
    show (name, false) ∈ account.assigned ↔ _
    simp [hWrites name]
  · refine fun entry hMem => (hNew entry hMem).imp_right ?_
    rintro rfl
    exact .inl hRequires

theorem walks_require (h : place.Names scope) (mark : Mark) (inner : Expr) :
    Walks inside [.expr (.paren mark inner)] [] (Effects.ofExpr scope inner)
      (require place mark.id (place.requiredBy? inner)) := by
  cases hRequired : place.requiredBy? inner with
  | none =>
    exact ((Walks.pure ()).snoc rfl).adjust (List.Subset.refl _)
      (Effects.within_none fun _ => Effects.not_mem_writes_ofExpr scope inner)
  | some argument =>
    intro account
    refine adds_require place (e := .paren mark inner) hRequired account
      (mem_singleton.2 rfl) (fun n hn => ?_)
      (fun _ => Effects.not_mem_writes_ofExpr scope inner)
      (Effects.mem_requires_ofExpr h inner hRequired)
    rw [mem_singleton.1 hn]
    exact .inl rfl

/-- What can be assigned to is no name in parentheses, so both walks take the same targets for
names.  The statement is among the parts, and can only be regular if the target can be assigned
to. -/
theorem walks_assignTo (h : place.Names scope) {n : Node} (hn : n.occurrence? = none)
    {target : Expr} (hTarget : n.isRegular = true → target.isAssignable = true)
    (hExpr : Walks place.inFunction target.parts (AssignedGlobals.ofExpr scope target)
      (Effects.ofExpr scope target) (ofExpr place target)) :
    Walks place.inFunction (target.parts ++ [n])
      (AssignedGlobals.ofTarget scope target ++ AssignedGlobals.ofExpr scope target)
      (Effects.ofTarget scope target) (do
        ofExpr place target
        assignTo place target) := by
  have hOther (hEffects : Effects.ofTarget scope target = Effects.ofExpr scope target)
      (hGlobals : AssignedGlobals.ofTarget scope target = [])
      (hPure : target.isAssignable = true → assignTo place target = pure ()) :
      Walks place.inFunction (target.parts ++ [n])
        (AssignedGlobals.ofTarget scope target ++ AssignedGlobals.ofExpr scope target)
        (Effects.ofTarget scope target) (do
          ofExpr place target
          assignTo place target) := by
    rw [hEffects, hGlobals, nil_append]
    by_cases hRegular : n.isRegular = true
    · rw [hPure (hTarget hRegular)]
      exact (hExpr.trail fun _ => .pure ()).snoc hn
    · intro account
      obtain ⟨globals, effects, hAssign, hNone⟩ : ∃ globals effects, Walks place.inFunction []
          globals effects (assignTo place target) ∧ ∀ name, name ∉ effects.requires := by
        rw [assignTo]
        split
        · exact ⟨_, _, walks_assign h _, fun _ => Effects.not_mem_requires_write scope _⟩
        · exact ⟨[], .none, .pure (), fun _ => Effects.not_mem_requires_none⟩
      have hAdds := ((hExpr.next hAssign).snoc hn) account
      rw [append_nil] at hAdds
      refine { hAdds with
        globals := fun name hName => hAdds.globals name (mem_append_left _ hName)
        writes := fun _ hAll => absurd (hAll n (by simp)) hRegular
        requires := fun entry hEntry => (hAdds.requires entry hEntry).imp_right (Or.imp_left ?_) }
      simp [hNone]
  cases target with
  | name mark text =>
    refine (((walks_name place mark text).next (walks_assign h text)).snoc hn).adjust ?_ ?_
    · simp [AssignedGlobals.ofTarget, AssignedGlobals.ofExpr, Expr.nameValue?]
    · exact ⟨fun _ => by simp [Effects.ofTarget], fun _ => by simp [Effects.ofTarget]⟩
  | member mark object text => exact hOther rfl rfl fun _ => rfl
  | index mark object key => exact hOther rfl rfl fun _ => rfl
  | _ => exact hOther rfl rfl fun hAssignable => by cases hAssignable

end Steps

/-! ## The syntax -/

mutual

theorem adds_ofExpr {place : Place} {scope : List String} (h : place.Names scope) : (e : Expr) →
    Walks place.inFunction e.parts (AssignedGlobals.ofExpr scope e) (Effects.ofExpr scope e)
      (ofExpr place e)
  | .nil _ | .boolean _ _ | .number _ _ | .string _ _ | .vararg _ => (Walks.pure ()).snoc rfl
  | .function _ body => (adds_ofFunction h false body).snoc rfl
  | .table _ fields => (adds_ofFields h fields).snoc rfl
  | .name mark text => (walks_name place mark text).adjust (List.Subset.refl _)
      (Effects.within_none fun _ => Effects.not_mem_writes_read scope text)
  | .member _ object _ => (adds_ofExpr h object).snoc rfl
  | .index _ object key => (adds_ofExpr h object).bind fun _ => (adds_ofExpr h key).snoc rfl
  | .call mark callee args => by
      cases hName : place.requiredName? callee args with
      | some argument =>
        intro account
        rw [ofExpr, AssignedGlobals.ofExpr, h.required?_eq, hName]
        refine adds_require place (e := .call mark callee args) hName account ?_ ?_
          (fun _ => Effects.not_mem_writes_ofExpr scope _)
          (Effects.mem_requires_ofExpr h (.call mark callee args) hName)
        · rw [Expr.parts_eq]
          exact mem_append_right _ (mem_singleton.2 rfl)
        · intro n hn
          rw [Expr.parts_eq] at hn
          rcases mem_append.1 hn with hn | hn
          · exact .inr ⟨mark, callee, args, rfl, hn⟩
          · rw [mem_singleton.1 hn]
            exact .inl rfl
      | none =>
        rw [ofExpr, AssignedGlobals.ofExpr, h.required?_eq, hName]
        refine Walks.adjust ((adds_ofExpr h callee).bind fun _ => (adds_ofExprs h args).snoc rfl)
          (List.Subset.refl _) ⟨fun name => ?_, fun name hMem => ?_⟩
        · simp [Effects.ofExpr]
        · rw [Effects.mem_requires_append] at hMem
          rw [Effects.ofExpr, Effects.mem_requires_append, Effects.mem_requires_append]
          exact hMem.imp_left .inr
  | .methodCall _ object _ args =>
    (adds_ofExpr h object).bind fun _ => (adds_ofExprs h args).snoc rfl
  | .binary _ _ left right => (adds_ofExpr h left).bind fun _ => (adds_ofExpr h right).snoc rfl
  | .unary _ _ operand => (adds_ofExpr h operand).snoc rfl
  | .paren mark inner =>
    ((adds_ofExpr h inner).next (walks_require h mark inner)).adjust (subset_append_left _ [])
      ⟨fun _ => by rw [Effects.mem_writes_append, or_self, Effects.ofExpr],
        fun _ => by rw [Effects.mem_requires_append, or_self, Effects.ofExpr]; exact id⟩

theorem adds_ofExprs {place : Place} {scope : List String} (h : place.Names scope) :
    (es : List Expr) → Walks place.inFunction (exprParts es) (AssignedGlobals.ofExprs scope es)
      (Effects.ofExprs scope es) (ofExprs place es)
  | [] => .pure ()
  | e :: es => (adds_ofExpr h e).bind fun _ => adds_ofExprs h es

theorem adds_ofFields {place : Place} {scope : List String} (h : place.Names scope) :
    (fields : List Field) → Walks place.inFunction (fieldParts fields)
      (AssignedGlobals.ofFields scope fields) (Effects.ofFields scope fields)
      (ofFields place fields)
  | [] => .pure ()
  | .named _ value :: fields =>
    ((adds_ofExpr h value).snoc rfl).bind fun _ => adds_ofFields h fields
  | .keyed key value :: fields => by
      have hField := (adds_ofExpr h value).snoc (n := .field (.keyed key value)) rfl
      have hAll := ((adds_ofExpr h key).next hField).next (adds_ofFields h fields)
      rw [bind_assoc, append_assoc (AssignedGlobals.ofExpr scope key)] at hAll
      exact hAll
  | .positional value :: fields =>
    ((adds_ofExpr h value).snoc rfl).bind fun _ => adds_ofFields h fields

theorem adds_ofFunction {inside : Bool} {place : Place} {scope : List String}
    (h : place.Names scope) (isColon : Bool) : (body : FunctionBody) →
      Walks inside body.parts (AssignedGlobals.ofFunction scope isColon body) .none
        (ofFunction place isColon body)
  | .mk id params isVararg body span => by
      have hNames : ∀ account, Place.Names
          ⟨((declareAll ((if isColon then ["self"] else []) ++ params)).run account).1 ++
            place.bindings, true⟩ (params ++ (if isColon then ["self"] else []) ++ scope) := by
        intro account name
        rw [map_append, names_declareAll]
        simp [or_comm, h name]
      refine Walks.ofFunction (Walks.widen ((walks_declareAll _).lead fun account =>
        (adds_ofBlock (hNames account) body).trail fun _ => .pure ()) (subset_cons_self _ _)
          fun n hn => ?_)
      rcases mem_cons.1 hn with rfl | hn
      · exact .inr rfl
      · exact .inl hn

theorem adds_ofBlock {place : Place} {scope : List String} (h : place.Names scope) :
    (body : Block) → Walks place.inFunction body.parts (AssignedGlobals.ofBlock scope body)
      (Effects.ofBlock scope body) (ofBlock place body)
  | .mk statements _ => (adds_ofStmts h statements).snoc rfl

theorem adds_ofStmts {place : Place} {scope : List String} (h : place.Names scope) :
    (statements : List Stmt) → Walks place.inFunction (stmtParts statements)
      (AssignedGlobals.ofStmts scope statements) (Effects.ofStmts scope statements).1
      (ofStmts place statements)
  | [] => .pure []
  | s :: statements => by
      refine (adds_ofStmt h s).bind fun account => Walks.trail ?_ fun _ => .pure _
      rw [Effects.ofStmt_snd]
      exact adds_ofStmts (h.under (mem_names_ofStmt place s account)) statements

theorem adds_ofStmt {place : Place} {scope : List String} (h : place.Names scope) : (s : Stmt) →
    Walks place.inFunction s.parts (AssignedGlobals.ofStmt scope s) (Effects.ofStmt scope s).1
      (ofStmt place s)
  | .localVars _ names values =>
    ((adds_ofExprs h values).trail fun _ => walks_declareGiven names _).snoc rfl
  | .assign s targets values => by
      have hTargets := adds_ofTargets h (n := .statement (.assign s targets values)) rfl targets
        fun hRegular => by
          simp only [Node.isRegular, Node.assignsPlaces, Bool.and_eq_true] at hRegular
          exact hRegular.1.2
      have hAll := (adds_ofExprs h values).next (hTargets.trail fun _ => Walks.pure ([] : Bindings))
      refine hAll.widen ?_ fun n hn => .inl ?_
      · intro n hn
        simp only [Stmt.parts, mem_append] at hn ⊢
        grind
      · simp only [Stmt.parts, mem_append] at hn ⊢
        grind
  | .call _ e => ((adds_ofExpr h e).trail fun _ => .pure []).snoc rfl
  | .doBlock _ body => ((adds_ofBlock h body).trail fun _ => .pure []).snoc rfl
  | .whileLoop _ condition body =>
    (adds_ofExpr h condition).bind fun _ =>
      ((adds_ofBlock h body).trail fun _ => .pure []).snoc rfl
  | .repeatLoop _ (.mk body span) condition => by
      refine (adds_ofBlock h (.mk body span)).bind fun account => ?_
      -- the condition sees the locals of the body
      rw [Effects.ofStmts_snd]
      exact ((adds_ofExpr (h.under (mem_names_ofStmts place body account)) condition).trail
        fun _ => .pure []).snoc rfl
  | .ifElse _ clauses none =>
    (adds_ofClauses h clauses).bind fun _ => ((Walks.pure ()).trail fun _ => .pure []).snoc rfl
  | .ifElse _ clauses (some body) =>
    (adds_ofClauses h clauses).bind fun _ =>
      (((adds_ofBlock h body).trail fun _ => .pure ()).trail fun _ => .pure []).snoc rfl
  | .numericFor s var start limit step body => by
      have hEffects : (Effects.ofStmt scope (.numericFor s var start limit step body)).1 =
          Effects.ofExpr scope start ++ Effects.ofExpr scope limit ++
            (step.map (Effects.ofExpr scope)).getD .none ++
              Effects.ofBlock (var :: scope) body := by
        cases step <;> rfl
      have hInside : ∀ account,
          (place.under [((declareWithValue var).run account).1]).Names ([var] ++ scope) :=
        fun account => h.under fun name => Iff.rfl
      rw [hEffects]
      refine Walks.adjust ((adds_ofExpr h start).bind fun _ => (adds_ofExpr h limit).bind fun _ =>
        (adds_ofStep h step).bind fun _ => (walks_declareWithValue var).lead fun account =>
          ((adds_ofBlock (hInside account) body).trail fun _ => .pure []).snoc rfl)
        (List.Subset.refl _) ⟨fun name => ?_, fun name => ?_⟩
      · simp [or_assoc]
      · simp [or_assoc]
  | .genericFor _ names iterators body =>
    (adds_ofExprs h iterators).bind fun _ => (walks_declareAll names).lead fun account =>
      ((adds_ofBlock (h.under fun name => by rw [names_declareAll, mem_reverse])
        body).trail fun _ => .pure []).snoc rfl
  | .function s name body => by
      have hRoot : Walks place.inFunction [.statement (.function s name body)] [] .none
          (mentionAt place none name.root) :=
        walks_mention _ fun node name hName => by
          cases hName
          exact ⟨rfl, rfl⟩
      have hBody : Walks place.inFunction _ _ _ _ := adds_ofFunction h name.method.isSome body
      show Walks _ _ _ (Effects.ofFunctionName scope name) _
      rw [ofStmt, AssignedGlobals.ofStmt, AssignedGlobals.isPlain, Effects.ofFunctionName]
      by_cases hPlain : (name.members.isEmpty && name.method.isNone) = true
      · rw [if_pos hPlain, if_pos hPlain, if_pos (by simpa using hPlain)]
        refine Walks.adjust (hBody.bind fun _ => hRoot.bind fun _ =>
          (walks_assign h _).trail fun _ => .pure []) (List.Subset.refl _)
            ⟨fun other => ?_, fun other => ?_⟩ <;> simp
      · rw [if_neg hPlain, if_neg hPlain, if_neg (by simpa using hPlain)]
        refine Walks.widen (Walks.adjust (hRoot.bind fun _ => hBody.trail fun _ => .pure [])
          (by simp) ⟨fun other => ?_, fun other => ?_⟩) ?_ ?_
        · simp
        · simp
        · intro n hn
          simp only [Stmt.parts, mem_append] at hn ⊢
          exact hn.symm
        · intro n hn
          simp only [Stmt.parts, mem_append] at hn ⊢
          exact .inl hn.symm
  | .localFunction _ name body => by
      have hInside : ∀ account,
          (place.under [((declare name).run account).1]).Names ([name] ++ scope) :=
        fun account => h.under fun name => Iff.rfl
      exact ((walks_declare name).lead fun account =>
        (adds_ofFunction (hInside account) false body).trail fun _ =>
          (walks_mentionNew _).lead fun _ => .pure _).snoc rfl
  | .returnValues _ values => ((adds_ofExprs h values).trail fun _ => .pure []).snoc rfl
  | .breakLoop _ | .goto _ _ | .label _ _ => (Walks.pure []).snoc rfl

theorem adds_ofTargets {place : Place} {scope : List String} (h : place.Names scope) {n : Node}
    (hn : n.occurrence? = none) : (targets : List Expr) →
      (n.isRegular = true → targets.all Expr.isAssignable = true) →
      Walks place.inFunction (exprParts targets ++ [n]) (AssignedGlobals.ofTargets scope targets)
        (Effects.ofTargets scope targets) (ofTargets place targets)
  | [], _ => (Walks.pure ()).snoc hn
  | target :: targets, hTargets => by
      simp only [all_cons, Bool.and_eq_true] at hTargets
      have hFirst := walks_assignTo h hn (fun hRegular => (hTargets hRegular).1)
        (adds_ofExpr h target)
      have hAll := hFirst.next (adds_ofTargets h hn targets fun hRegular => (hTargets hRegular).2)
      rw [bind_assoc] at hAll
      refine hAll.widen ?_ fun m hm => .inl ?_
      · intro m hm
        simp only [exprParts, mem_append] at hm ⊢
        grind
      · simp only [exprParts, mem_append] at hm ⊢
        grind

theorem adds_ofClauses {place : Place} {scope : List String} (h : place.Names scope) :
    (clauses : List Clause) → Walks place.inFunction (clauseParts clauses)
      (AssignedGlobals.ofClauses scope clauses) (Effects.ofClauses scope clauses)
      (ofClauses place clauses)
  | [] => .pure ()
  | .mk condition body :: clauses => by
      have hAll := ((adds_ofExpr h condition).next (adds_ofBlock h body)).next
        (adds_ofClauses h clauses)
      rw [bind_assoc, append_assoc (AssignedGlobals.ofExpr scope condition)] at hAll
      exact hAll

theorem adds_ofStep {place : Place} {scope : List String} (h : place.Names scope) :
    (step : Option Expr) → Walks place.inFunction (stepParts step)
      (AssignedGlobals.ofStep scope step) ((step.map (Effects.ofExpr scope)).getD .none)
      (ofStep place step)
  | none => .pure ()
  | some e => adds_ofExpr h e

end

theorem walks_ofBlock (place : Place) (body : Block) : Walks place.inFunction body.parts
    (AssignedGlobals.ofBlock (place.bindings.map Prod.fst) body)
    (Effects.ofBlock (place.bindings.map Prod.fst) body) (ofBlock place body) :=
  adds_ofBlock (fun _ => Iff.rfl) body

end Lexical

end LuaShape
