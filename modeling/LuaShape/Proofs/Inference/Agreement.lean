import LuaShape.Inference.Reader
import LuaShape.Proofs.Inference.Quiet
import LuaShape.Proofs.Scope.Lexical
import LuaShape.Proofs.Scope.Refinement
import Mathlib.Data.List.Forall2

/-!
# A reader that follows the rules of scope

`Agrees` relates the state of reading a module to a walk over the same code by the rules of
scope.  The scopes around the point that is read, seen as a stack of frames, hold the bindings
that the walk is handed, and the functions among these frames are those that are being read.
The bindings that have come to be are those that the walk has declared, and the references
among the terms are, one by one and in order, what the walk has mentioned.  What the reading
reported, of globals and of requires, stands in the walk's account.  A reader step `Follows` a
walk if it leads from states that agree to states that agree.

There is one lemma for each thing that can happen to states that agree, and one rule for
each way of putting steps together.
-/

namespace LuaShape

open List

namespace Lexical

/-! ## Numbers and symbols -/

/-- A mention means what an identifier stands for.  `bound` has the symbol and the name of
each binding at its number. -/
def Mention.Denotes (bound : List (SymbolId × String)) (m : Mention) : Ident → Prop
  | .bound symbol => ∃ number, m.binding = some number ∧ bound[number]? = some (symbol, m.name)
  | .global name => m.binding = none ∧ name = m.name

/-- A mention has become a reference; that of an expression is noted under its number. -/
structure Mention.Lowered (bound : List (SymbolId × String))
    (lowered : List ((Nat × Nat) × TermId)) (m : Mention) (reference : TermId × Ident) :
    Prop where
  denotes : m.Denotes bound reference.2
  noted : ∀ node, m.node = some node → ((node, 0), reference.1) ∈ lowered

/-- A binding of a scope has a number. -/
def Numbered (bound : List (SymbolId × String)) (binding : String × SymbolId)
    (number : String × Nat) : Prop :=
  number.1 = binding.1 ∧ bound[number.2]? = some (binding.2, binding.1)

section Growing

variable {bound bound' : List (SymbolId × String)}

/-- Later lists keep the bindings of an earlier one at their numbers. -/
def Keeps (bound bound' : List (SymbolId × String)) : Prop :=
  ∀ (number : Nat) (binding : SymbolId × String), bound[number]? = some binding →
    bound'[number]? = some binding

theorem Mention.Denotes.mono (h : Keeps bound bound') {m : Mention} {ident : Ident}
    (hm : m.Denotes bound ident) : m.Denotes bound' ident := by
  cases ident with
  | bound symbol =>
    obtain ⟨number, hNumber, hBinding⟩ := hm
    exact ⟨number, hNumber, h number _ hBinding⟩
  | global name => exact hm

end Growing

/-- Scopes and frames that hold the same bindings find the same one for a name. -/
theorem find?_of_numbered {bound : List (SymbolId × String)}
    {bindings : List (String × SymbolId)} {numbers : Bindings}
    (h : List.Forall₂ (Numbered bound) bindings numbers) (name : String) :
    Option.Rel (Numbered bound) (bindings.find? fun binding => binding.1 = name)
      (numbers.find? fun number => number.1 = name) := by
  induction h with
  | nil => exact .none
  | @cons binding number _ _ hNumbered _ ih =>
    by_cases hName : binding.1 = name
    · simpa [find?_cons, hNumbered.1, hName] using Option.Rel.some hNumbered
    · simpa [find?_cons, hNumbered.1, hName] using ih

end Lexical

/-! ## Scopes -/

/-- A scope by the rules of scope: its bindings, and whether it is that of a function. -/
structure Level where
  bindings : Lexical.Bindings := []
  isFunction : Bool := false

/-- A frame holds the bindings of a scope. -/
structure Frame.Holds (bound : List (SymbolId × String)) (frame : Frame) (level : Level) :
    Prop where
  bindings : List.Forall₂ (Lexical.Numbered bound) frame.bindings level.bindings
  isFunction : frame.function.isSome = level.isFunction

section Holding

variable {bound bound' : List (SymbolId × String)} {frames : List Frame} {levels : List Level}

theorem Frame.Holds.mono (h : Lexical.Keeps bound bound') {frame : Frame} {level : Level}
    (hFrame : frame.Holds bound level) : frame.Holds bound' level :=
  ⟨List.Forall₂.imp (fun _ _ hNumbered => ⟨hNumbered.1, h _ _ hNumbered.2⟩) hFrame.bindings,
    hFrame.isFunction⟩

theorem numbered_of_holds (h : List.Forall₂ (Frame.Holds bound) frames levels) :
    List.Forall₂ (Lexical.Numbered bound) (frames.flatMap Frame.bindings)
      (levels.flatMap Level.bindings) := by
  induction h with
  | nil => exact .nil
  | cons hFrame _ ih =>
    rw [flatMap_cons, flatMap_cons]
    exact rel_append hFrame.bindings ih

theorem any_of_holds (h : List.Forall₂ (Frame.Holds bound) frames levels) :
    (frames.any fun frame => frame.function.isSome) = levels.any Level.isFunction := by
  induction h with
  | nil => rfl
  | cons hFrame _ ih => rw [any_cons, any_cons, hFrame.isFunction, ih]

theorem isEmpty_functions (frames : List Frame) :
    (!(frames.filterMap Frame.function).isEmpty) =
      frames.any fun frame => frame.function.isSome := by
  induction frames with
  | nil => rfl
  | cons frame frames ih => cases hFunction : frame.function <;> simp [hFunction, ← ih]

end Holding

/-- The scopes around a point of the code. -/
structure Setting where
  top : Level := {}
  outer : List Level := []

namespace Setting

/-- The scopes of a setting, innermost first. -/
def levels (c : Setting) : List Level := c.top :: c.outer

/-- A setting as the rules of scope see it. -/
def place (c : Setting) : Lexical.Place :=
  ⟨c.levels.flatMap Level.bindings, c.levels.any Level.isFunction⟩

/-- The setting behind new bindings. -/
def under (c : Setting) (new : Lexical.Bindings) : Setting :=
  { c with top := { c.top with bindings := new ++ c.top.bindings } }

/-- The setting in a scope of its own. -/
def inside (c : Setting) (isFunction : Bool) : Setting := ⟨{ isFunction }, c.levels⟩

theorem place_under (c : Setting) (new : Lexical.Bindings) :
    (c.under new).place = c.place.under new := by
  simp [place, under, levels, Lexical.Place.under]

theorem place_inside (c : Setting) (new : Lexical.Bindings) :
    ((c.inside false).under new).place = c.place.under new :=
  place_under _ new

@[simp]
theorem under_under (c : Setting) (old new : Lexical.Bindings) :
    (c.under old).under new = c.under (new ++ old) := by
  simp [under]

end Setting

/-- What a name refers to in the current scope. -/
def ScopeTree.ident (t : ScopeTree) (name : String) : Ident :=
  match t.lookup? name with
  | some symbol => .bound symbol
  | none => .global name

/-! ## Agreement -/

namespace Inference

/-- The bindings that have come to be since a state. -/
def boundSince (start s : Inference) : List (SymbolId × String) :=
  s.registry.bindingsFrom start.registry.size

/-- The references made since a state. -/
def referencesSince (start s : Inference) : List (TermId × Ident) :=
  s.terms.referencesFrom start.terms.size

end Inference

/-- A require that is reported has been taken account of. -/
def Lexical.Account.Knows (account : Lexical.Account) : Report → Prop
  | .require argument => ∃ node inFunction, (node, argument, inFunction) ∈ account.required
  | _ => True

/-- A report of anything but a require. -/
def Report.IsPlain : Report → Prop
  | .require _ => False
  | _ => True

theorem Report.IsPlain.knows {report : Report} (h : report.IsPlain) (account : Lexical.Account) :
    account.Knows report := by
  cases report with
  | require => exact h.elim
  | _ => trivial

theorem Report.IsQuiet.isPlain {report : Report} (h : report.IsQuiet) : report.IsPlain := by
  cases report with
  | require => exact h
  | _ => trivial

/-- The scopes that code is read in are those of a setting.  The frames they refine tell which
functions are being read, and the bindings added outside of functions are those that are marked. -/
def Reading.Framed (r : Reading) (start : Inference) (c : Setting) : Prop :=
  ∃ frames added,
    Scoping.Refined ⟨r.scope, r.inference.registry, frames, added⟩ ∧
    List.Forall₂ (Frame.Holds (start.boundSince r.inference)) frames c.levels ∧
    r.frames = frames.filterMap Frame.function ∧
    ∀ id, id ∈ r.inference.moduleLevel ↔ id ∈ start.moduleLevel ∨
      ∃ b ∈ added, b.symbol = id ∧ b.inFunction = false

/-- Reading and the rules of scope have come to the same point, as far as what is known goes. -/
structure Matches (start : Inference) (c : Setting) (r : Reading) (account : Lexical.Account) :
    Prop where
  framed : r.Framed start c
  current_eq : r.inference.current = start.current
  registry_le : start.registry.size ≤ r.inference.registry.size
  terms_le : start.terms.size ≤ r.inference.terms.size
  declared : (start.boundSince r.inference).map Prod.snd = account.declared
  mentions : List.Forall₂ (Lexical.Mention.Lowered (start.boundSince r.inference) r.lowered)
    account.mentions (start.referencesSince r.inference)
  assigned : ∀ name, r.inference.origins name = start.origins name ++
    (account.assigned.filter fun entry => entry.1 = name).map fun entry =>
      (start.current, entry.2)
  known : ∀ entry ∈ r.lowered, entry.2.index < r.inference.terms.size
  required : ∀ entry ∈ r.lowered, ∀ argument target slot,
    r.inference.term entry.2 = .require argument target slot →
      ∃ inFunction, (entry.1.1, argument, inFunction) ∈ account.required

/-- Reading and the rules of scope have come to the same point. -/
structure Agrees (start : Inference) (c : Setting) (r : Reading) (account : Lexical.Account) :
    Prop extends Matches start c r account where
  told : Told account.Knows start r.inference

section Agreement

variable {start : Inference} {c : Setting} {r : Reading} {account : Lexical.Account}

namespace Matches

/-- A name means the same in the scopes and by the rules of scope. -/
theorem denotes (h : Matches start c r account) (node : Option Nat) (name : String) :
    Lexical.Mention.Denotes (start.boundSince r.inference) ⟨node, name, c.place.meaning? name⟩
      (r.scope.ident name) := by
  obtain ⟨frames, added, hRefined, hHolds, -⟩ := h.framed
  have hFind := Lexical.find?_of_numbered (numbered_of_holds hHolds) name
  rw [ScopeTree.ident, hRefined.lookup?_eq, Scoping.lookup?, Lexical.Place.meaning?, Setting.place]
  generalize hFound : (frames.flatMap Frame.bindings).find? _ = found at hFind ⊢
  generalize (c.levels.flatMap Level.bindings).find? _ = number at hFind ⊢
  cases hFind with
  | none => exact ⟨rfl, rfl⟩
  | @some binding number hNumbered =>
    have hName : binding.1 = name := by simpa using find?_some hFound
    exact ⟨number.2, rfl, hName ▸ hNumbered.2⟩

/-- A name refers to a global exactly if no binding of it is in scope. -/
theorem ident_eq_global_iff (h : Matches start c r account) (name other : String) :
    r.scope.ident name = .global other ↔ other = name ∧ c.place.meaning? name = none := by
  have hDenotes := h.denotes none name
  cases hIdent : r.scope.ident name with
  | bound symbol =>
    rw [hIdent] at hDenotes
    obtain ⟨number, hNumber, -⟩ := hDenotes
    have hSome : c.place.meaning? name = some number := hNumber
    simp [hSome]
  | global found =>
    rw [hIdent] at hDenotes
    have hNone : c.place.meaning? name = none := hDenotes.1
    have hFound : found = name := hDenotes.2
    rw [hNone, hFound]
    simp [eq_comm]

/-- A function is being read exactly if one is around the point by the rules of scope. -/
theorem isEmpty_frames (h : Matches start c r account) :
    (!r.frames.isEmpty) = c.place.inFunction := by
  obtain ⟨frames, added, -, hHolds, hFrames, -⟩ := h.framed
  rw [hFrames, isEmpty_functions]
  exact any_of_holds hHolds

theorem quiet (h : Matches start c r account) {s : Inference}
    (hQuiet : r.inference.Quiet s) : Matches start c { r with inference := s } account := by
  have hBound : start.boundSince s = start.boundSince r.inference := hQuiet.bindingsFrom_eq _
  have hReferences : start.referencesSince s = start.referencesSince r.inference :=
    hQuiet.referencesFrom_eq _
  have hTerms := hQuiet.grows.terms_le
  exact {
    framed := by
      obtain ⟨frames, added, hRefined, hHolds, hFrames, hMarked⟩ := h.framed
      refine ⟨frames, added, hRefined.grow hQuiet.grows.registry_le, ?_, hFrames, fun id => ?_⟩
      · show List.Forall₂ (Frame.Holds (start.boundSince s)) frames c.levels
        rwa [hBound]
      · rw [← hMarked id]
        exact iff_of_eq (congrArg (id ∈ ·) hQuiet.moduleLevel_eq)
    current_eq := hQuiet.current_eq.trans h.current_eq
    registry_le := Nat.le_trans h.registry_le hQuiet.grows.registry_le
    terms_le := Nat.le_trans h.terms_le hTerms
    declared := by
      show (start.boundSince s).map Prod.snd = account.declared
      rw [hBound]
      exact h.declared
    mentions := by
      show List.Forall₂ (Lexical.Mention.Lowered (start.boundSince s) r.lowered)
        account.mentions (start.referencesSince s)
      rw [hBound, hReferences]
      exact h.mentions
    assigned := fun name => (hQuiet.origins_eq name).trans (h.assigned name)
    known := fun entry hEntry => Nat.lt_of_lt_of_le (h.known entry hEntry) hTerms
    required := by
      intro entry hEntry argument target slot hTerm
      have hSame := hQuiet.grows.term_eq (h.known entry hEntry)
      exact h.required entry hEntry argument target slot (hSame.symm.trans hTerm) }

end Matches

namespace Agrees

/-- A quiet change does not end the agreement. -/
theorem quiet (h : Agrees start c r account) {s : Inference} (hQuiet : r.inference.Quiet s)
    (hTold : Told account.Knows r.inference s) :
    Agrees start c { r with inference := s } account :=
  { h.toMatches.quiet hQuiet with told := h.told.trans hTold }

/-- A term is noted under the number of an expression.  If it is a require, it has been taken
account of. -/
theorem note (h : Agrees start c r account) {node slot : Nat} {id : TermId}
    (hKnown : id.index < r.inference.terms.size)
    (hRequire : ∀ argument target slot, r.inference.term id = .require argument target slot →
      ∃ inFunction, (node, argument, inFunction) ∈ account.required) :
    Agrees start c { r with lowered := ((node, slot), id) :: r.lowered } account where
  framed := h.framed
  current_eq := h.current_eq
  registry_le := h.registry_le
  terms_le := h.terms_le
  declared := h.declared
  mentions := List.Forall₂.imp (fun _ _ hLowered =>
    ⟨hLowered.denotes, fun node hNode => mem_cons_of_mem _ (hLowered.noted node hNode)⟩)
    h.mentions
  assigned := h.assigned
  known := by
    intro entry hEntry
    rcases mem_cons.1 hEntry with rfl | hEntry
    · exact hKnown
    · exact h.known entry hEntry
  required := by
    intro entry hEntry
    rcases mem_cons.1 hEntry with rfl | hEntry
    · exact hRequire
    · exact h.required entry hEntry
  told := h.told

/-- A reference is made, and noted if it is an expression. -/
theorem mention (h : Agrees start c r account) {m : Lexical.Mention} {ident : Ident}
    (hDenotes : m.Denotes (start.boundSince r.inference) ident) :
    Agrees start c
      { r with
        inference := (r.inference.alloc (.reference ident)).2
        lowered := (m.node.map fun node => ((node, 0), ⟨r.inference.terms.size⟩)).toList ++
          r.lowered }
      { account with mentions := account.mentions ++ [m] } where
  framed := h.framed
  current_eq := h.current_eq
  registry_le := h.registry_le
  terms_le := Nat.le_trans h.terms_le (Inference.Grows.alloc _ _).terms_le
  declared := h.declared
  mentions := by
    have hReferences : start.referencesSince (r.inference.alloc (.reference ident)).2 =
        start.referencesSince r.inference ++ [(⟨r.inference.terms.size⟩, ident)] :=
      Arena.referencesFrom_alloc h.terms_le ident
    rw [hReferences]
    refine rel_append (List.Forall₂.imp (fun _ _ hLowered => ?_) h.mentions)
      (.cons ?_ .nil)
    · exact ⟨hLowered.denotes, fun node hNode =>
        mem_append_right _ (hLowered.noted node hNode)⟩
    · exact ⟨hDenotes, fun node hNode => mem_append_left _ (by simp [hNode])⟩
  assigned := h.assigned
  known := by
    have hSize : (r.inference.alloc (.reference ident)).2.terms.size =
        r.inference.terms.size + 1 := Arena.size_alloc _ _
    intro entry hEntry
    show entry.2.index < (r.inference.alloc (.reference ident)).2.terms.size
    rw [hSize]
    rcases mem_append.1 hEntry with hEntry | hEntry
    · rw [Option.mem_toList, Option.map_eq_some_iff] at hEntry
      obtain ⟨node, -, rfl⟩ := hEntry
      exact Nat.lt_succ_self _
    · exact Nat.lt_succ_of_lt (h.known entry hEntry)
  required := by
    intro entry hEntry argument target slot hTerm
    rcases mem_append.1 hEntry with hEntry | hEntry
    · rw [Option.mem_toList, Option.map_eq_some_iff] at hEntry
      obtain ⟨node, -, rfl⟩ := hEntry
      have hNew : (r.inference.alloc (.reference ident)).2.term ⟨r.inference.terms.size⟩ =
          .reference ident := r.inference.terms.get_alloc_self _
      rw [hNew] at hTerm
      cases hTerm
    · have hSame := (Inference.Grows.alloc r.inference (.reference ident)).term_eq
        (h.known entry hEntry)
      exact h.required entry hEntry argument target slot (hSame.symm.trans hTerm)
  told := .tail (.term (.reference ident)) trivial h.told

/-- A global is assigned. -/
theorem assign (h : Agrees start c r account) {target : TermId} {name : String}
    (hTarget : (r.inference.term target).ident? = some (.global name)) (value : TermId)
    (inFunction : Bool) :
    Agrees start c
      { r with inference := r.inference.addAssignment target value inFunction }
      { account with assigned := account.assigned ++ [(name, inFunction)] } := by
  have hTold : Told account.Knows start (r.inference.addAssignment target value inFunction) :=
    .tail (.assignment target value inFunction) trivial h.told
  obtain ⟨s, given, hCalm, hEq⟩ :=
    r.inference.exists_addAssignment_global hTarget value inFunction
  have hGiven := h.toMatches.quiet hCalm.toQuiet
  obtain ⟨tables, functions, modules, definitions, hDefine⟩ :=
    s.exists_define_eq (.global name) given inFunction
  have hOrigins := s.origins_define_global name given inFunction
  rw [hEq, hDefine] at hTold
  rw [hEq]
  rw [hDefine] at hOrigins ⊢
  exact {
    framed := hGiven.framed
    current_eq := hGiven.current_eq
    registry_le := hGiven.registry_le
    terms_le := hGiven.terms_le
    declared := hGiven.declared
    mentions := hGiven.mentions
    assigned := by
      intro other
      have hCurrent : s.current = start.current := hGiven.current_eq
      refine (hOrigins other).trans ?_
      rw [hGiven.assigned other, hCurrent, filter_append, map_append,
        append_assoc]
      by_cases hName : name = other <;> simp [hName]
    known := hGiven.known
    required := hGiven.required
    told := hTold }

/-- A name is declared in the innermost scope, and marked if that is outside of functions. -/
theorem declare (h : Agrees start c r account) {kind : SymbolKind}
    (hKind : kind.isBinding = true) (name : String) :
    Agrees start (c.under [(name, account.declared.length)])
      { r with
        scope := r.scope.bind name ⟨r.inference.registry.size⟩
        inference := { r.inference with
          registry := (r.inference.registry.mint kind name).2
          moduleLevel := r.inference.moduleLevel ++
            if r.frames.isEmpty then [⟨r.inference.registry.size⟩] else [] } }
      { account with declared := account.declared ++ [name] } := by
  have hNew : start.boundSince (r.inference.tell (.binding kind name)) =
      start.boundSince r.inference ++ [(⟨r.inference.registry.size⟩, name)] :=
    Registry.bindingsFrom_mint h.registry_le kind name hKind
  have hKeeps : Lexical.Keeps (start.boundSince r.inference)
      (start.boundSince r.inference ++ [(⟨r.inference.registry.size⟩, name)]) :=
    fun number binding hBinding => by
      rw [List.getElem?_append_left (List.getElem?_eq_some_iff.1 hBinding).1, hBinding]
  have hNumber : account.declared.length = (start.boundSince r.inference).length := by
    rw [← h.declared, length_map]
  exact {
    framed := by
      obtain ⟨frames, added, hRefined, hHolds, hFrames, hMarked⟩ := h.framed
      have hInside := isEmpty_functions frames
      rw [← hFrames] at hInside
      obtain ⟨frame, outer, hTop, hOuter, rfl⟩ := forall₂_cons_right_iff.1 hHolds
      refine ⟨_, _, hRefined.step (.add kind name), ?_, hFrames, fun id => ?_⟩
      · show List.Forall₂ (Frame.Holds (start.boundSince (r.inference.tell (.binding kind name))))
          ({ frame with bindings := (name, _) :: frame.bindings } :: outer) (_ :: c.outer)
        rw [hNew]
        refine .cons ⟨.cons ⟨rfl, ?_⟩ (hTop.mono hKeeps).bindings, hTop.isFunction⟩
          (List.Forall₂.imp (fun _ _ hFrame => hFrame.mono hKeeps) hOuter)
        rw [hNumber]
        simp
      · rw [mem_append, hMarked id, or_assoc]
        refine or_congr_right ?_
        show _ ↔ ∃ b ∈ (⟨_, name, r.scope.current, List.any _ _⟩ : Added) :: added, _
        rw [← hInside, or_comm]
        cases r.frames.isEmpty <;> simp [@eq_comm _ id]
    current_eq := h.current_eq
    registry_le := Nat.le_trans h.registry_le (Inference.Grows.mint _ kind name).registry_le
    terms_le := h.terms_le
    declared := by
      show (start.boundSince (r.inference.tell (.binding kind name))).map Prod.snd = _
      rw [hNew, map_append, h.declared]
      rfl
    mentions := by
      show List.Forall₂ (Lexical.Mention.Lowered
        (start.boundSince (r.inference.tell (.binding kind name))) r.lowered) _ _
      rw [hNew]
      exact List.Forall₂.imp (fun _ _ hLowered =>
        ⟨hLowered.denotes.mono hKeeps, hLowered.noted⟩) h.mentions
    assigned := h.assigned
    known := h.known
    required := h.required
    told := by
      have hTold : Told account.Knows start _ := .tail (.binding kind name) trivial h.told
      split
      · exact .tail (.moduleLevel _) trivial hTold
      · rw [append_nil]
        exact hTold }

/-- A function is entered. -/
theorem enter (h : Agrees start c r account) (id : FunctionId) :
    Agrees start (c.inside true)
      { r with scope := r.scope.pushFunction id, frames := id :: r.frames } account :=
  { h with
    framed := by
      obtain ⟨frames, added, hRefined, hHolds, hFrames, hMarked⟩ := h.framed
      exact ⟨_, _, hRefined.step (.pushFunction id), .cons ⟨.nil, rfl⟩ hHolds,
        congrArg (id :: ·) hFrames, hMarked⟩ }

/-- A nested block is entered. -/
theorem nest (h : Agrees start c r account) :
    Agrees start (c.inside false) { r with scope := r.scope.pushBlock } account :=
  { h with
    framed := by
      obtain ⟨frames, added, hRefined, hHolds, hFrames, hMarked⟩ := h.framed
      exact ⟨_, _, hRefined.step .pushBlock, .cons ⟨.nil, rfl⟩ hHolds, hFrames, hMarked⟩ }

/-- The innermost scope is left. -/
theorem leave {inner : Setting} (h : Agrees start inner r account)
    (hOuter : inner.outer = c.levels) :
    Agrees start c
      { r with
        scope := r.scope.pop
        frames := if inner.top.isFunction then r.frames.tail else r.frames } account :=
  { h with
    framed := by
      obtain ⟨frames, added, hRefined, hHolds, hFrames, hMarked⟩ := h.framed
      obtain ⟨frame, outer, hTop, hRest, rfl⟩ := forall₂_cons_right_iff.1 hHolds
      rw [hOuter] at hRest
      have hSome : outer ≠ [] := by
        rintro rfl
        cases hRest
      refine ⟨outer, added, ?_, hRest, ?_, hMarked⟩
      · have hPop := hRefined.step .pop
        rwa [Scoping.step, tail_cons, if_neg hSome] at hPop
      · show (if inner.top.isFunction then r.frames.tail else r.frames) = _
        rw [hFrames, ← hTop.isFunction]
        cases hFrame : frame.function <;> simp [hFrame] }

/-- A require is taken account of. -/
theorem withRequired (h : Agrees start c r account) (entry : Nat × String × Bool) :
    Agrees start c r { account with required := account.required ++ [entry] } :=
  { h with
    required := by
      intro noted hNoted argument target slot hTerm
      obtain ⟨inFunction, hMem⟩ := h.required noted hNoted argument target slot hTerm
      exact ⟨inFunction, mem_append_left _ hMem⟩
    told := h.told.mono fun report hKnows => by
      cases report with
      | require argument =>
        obtain ⟨node, inFunction, hMem⟩ := hKnows
        exact ⟨node, inFunction, mem_append_left _ hMem⟩
      | _ => trivial }

end Agrees

end Agreement

/-! ## Steps that follow a walk -/

namespace Read

/-- From one state, a step follows a walk. -/
structure FollowsFrom (start : Inference) (r : Reading) (account : Lexical.Account) {α β : Type}
    (x : Read α) (w : Lexical.Walk β) (after : β → Setting) : Prop where
  agrees : Agrees start (after (w.run account).1) (x.run r).2 (w.run account).2
  grows : r.inference.Grows (x.run r).2.inference

/-- Wherever reading and the rules of scope agree, a step follows a walk. -/
def Follows (start : Inference) (c : Setting) {α β : Type} (x : Read α) (w : Lexical.Walk β)
    (after : β → Setting) : Prop :=
  ∀ r account, Agrees start c r account → FollowsFrom start r account x w after

/-- From one state, a step makes only a quiet change. -/
def StillFrom (r : Reading) {α : Type} (x : Read α) : Prop :=
  ∃ s, r.inference.Quiet s ∧ Told Report.IsPlain r.inference s ∧
    (x.run r).2 = { r with inference := s }

/-- A step makes only quiet changes. -/
def Still {α : Type} (x : Read α) : Prop := ∀ r, StillFrom r x

section Rules

variable {start : Inference} {c mid : Setting} {r : Reading} {account : Lexical.Account}
variable {α β γ δ : Type} {x : Read α} {f : α → Read β} {w : Lexical.Walk γ}
variable {u : γ → Lexical.Walk δ}

theorem FollowsFrom.bind {between : γ → Setting} {after : δ → Setting}
    (hx : FollowsFrom start r account x w between)
    (hf : FollowsFrom start (x.run r).2 (w.run account).2 (f (x.run r).1)
      (u (w.run account).1) after) :
    FollowsFrom start r account (x >>= f) (w >>= u) after :=
  ⟨hf.agrees, hx.grows.trans hf.grows⟩

theorem FollowsFrom.lead {after : γ → Setting} {b : δ}
    (hx : FollowsFrom start r account x (Pure.pure b : Lexical.Walk δ) fun _ => mid)
    (hf : FollowsFrom start (x.run r).2 account (f (x.run r).1) w after) :
    FollowsFrom start r account (x >>= f) w after :=
  ⟨hf.agrees, hx.grows.trans hf.grows⟩

theorem Follows.pure (a : α) (b : γ) {after : γ → Setting} :
    Follows start (after b) (pure a : Read α) (pure b : Lexical.Walk γ) after :=
  fun r _ h => ⟨h, .refl r.inference⟩

theorem Follows.done {a : α} {b : γ} {after : γ → Setting} (h : c = after b) :
    Follows start c (Pure.pure a : Read α) (Pure.pure b : Lexical.Walk γ) after := by
  rw [h]
  exact .pure a b

theorem Follows.ending {b : γ} {after : γ → Setting}
    (hx : Follows start c x (Pure.pure b : Lexical.Walk γ) fun _ => mid) (h : mid = after b) :
    Follows start c x (Pure.pure b : Lexical.Walk γ) after := by
  subst h
  exact fun r account h => ⟨(hx r account h).agrees, (hx r account h).grows⟩

/-- The walk gives something else for what it has found. -/
theorem Follows.giving {between : γ → Setting} {after : δ → Setting}
    (hx : Follows start c x w between) (g : γ → δ) (hAfter : ∀ b, between b = after (g b)) :
    Follows start c x (w >>= fun b => Pure.pure (g b)) after := by
  intro r account h
  refine ⟨?_, (hx r account h).grows⟩
  show Agrees start (after (g (w.run account).1)) (x.run r).2 (w.run account).2
  rw [← hAfter]
  exact (hx r account h).agrees

/-- One step after the other.  The second may rely on where its input comes from. -/
theorem Follows.bind {between : γ → Setting} {after : δ → Setting}
    (hx : Follows start c x w between)
    (hf : ∀ r b, Follows start (between b) (f (x.run r).1) (u b) after) :
    Follows start c (x >>= f) (w >>= u) after :=
  fun r account h => (hx r account h).bind (hf r _ _ _ (hx r account h).agrees)

/-- A step in front that has no counterpart in the walk. -/
theorem Follows.lead {after : γ → Setting} {b : δ}
    (hx : Follows start c x (Pure.pure b : Lexical.Walk δ) fun _ => mid)
    (hf : ∀ r, Follows start mid (f (x.run r).1) w after) : Follows start c (x >>= f) w after :=
  fun r account h => (hx r account h).lead (hf r _ _ (hx r account h).agrees)

/-- A step behind that has no counterpart in the walk. -/
theorem Follows.trail {between after : γ → Setting} (hx : Follows start c x w between)
    (hf : ∀ r b, Follows start (between b) (f (x.run r).1) (Pure.pure b) fun _ => after b) :
    Follows start c (x >>= f) w after :=
  fun r account h => ⟨(hf r _ _ _ (hx r account h).agrees).agrees,
    (hx r account h).grows.trans (hf r _ _ _ (hx r account h).agrees).grows⟩

/-- A step that looks at the state. -/
theorem Follows.get_bind {f : Reading → Read β} {after : γ → Setting}
    (hf : ∀ r account, Agrees start c r account → FollowsFrom start r account (f r) w after) :
    Follows start c (get >>= f) w after :=
  fun r account h => ⟨(hf r account h).agrees, (hf r account h).grows⟩

theorem StillFrom.followsFrom (hx : StillFrom r x) (h : Agrees start c r account) (b : γ) :
    FollowsFrom start r account x (Pure.pure b : Lexical.Walk γ) fun _ => c := by
  obtain ⟨s, hQuiet, hTold, hEq⟩ := hx
  refine ⟨?_, ?_⟩
  · show Agrees start c (x.run r).2 account
    rw [hEq]
    exact h.quiet hQuiet (hTold.mono fun _ hPlain => hPlain.knows account)
  · rw [hEq]
    exact hQuiet.grows

theorem Still.follows (hx : Still x) (b : γ) :
    Follows start c x (Pure.pure b : Lexical.Walk γ) fun _ => c :=
  fun r _ h => (hx r).followsFrom h b

theorem StillFrom.bind (hx : StillFrom r x) (hf : StillFrom (x.run r).2 (f (x.run r).1)) :
    StillFrom r (x >>= f) := by
  obtain ⟨s, hQuiet, hTold, hEq⟩ := hx
  obtain ⟨s', hQuiet', hTold', hEq'⟩ := hf
  rw [hEq] at hQuiet' hTold'
  refine ⟨s', hQuiet.trans hQuiet', hTold.trans hTold', ?_⟩
  show ((f (x.run r).1).run (x.run r).2).2 = { r with inference := s' }
  rw [hEq', hEq]

theorem Still.pure (a : α) : Still (pure a : Read α) :=
  fun r => ⟨r.inference, .refl _, .refl _, rfl⟩

theorem Still.bind (hx : Still x) (hf : ∀ r, Still (f (x.run r).1)) : Still (x >>= f) :=
  fun r => (hx r).bind (hf r _)

theorem Still.get_bind {f : Reading → Read β} (hf : ∀ r, Still (f r)) : Still (get >>= f) :=
  fun r => hf r r

theorem Still.learn {f : Inference → Inference} (report : Report) (h : report.IsQuiet)
    (hf : ∀ s, f s = s.tell report) : Still (learn f) := by
  obtain rfl : f = fun s => s.tell report := funext hf
  exact fun r => ⟨_, (r.inference.calm_tell h).toQuiet, .single report h.isPlain, rfl⟩

theorem Still.learnGet {f : Inference → α × Inference} (report : Report) (h : report.IsQuiet)
    (hf : ∀ s, (f s).2 = s.tell report) : Still (learnGet f) := by
  intro r
  refine ⟨_, (r.inference.calm_tell h).toQuiet, .single report h.isPlain, ?_⟩
  rw [← hf]
  rfl

end Rules

end Read

end LuaShape
