import LuaShape.Proofs.Inference.Act
import LuaShape.Proofs.Inference.Agreement

/-!
# Steps that follow the rules of scope

One statement for each step of reading that does not look inside expressions.  Most are
still: they concern no names.  A step that declares names follows the walk that declares
them, a step that looks a name up follows a mention, and an assignment to a name that was
looked up follows an assignment.
-/

namespace LuaShape.Read

open List

/-! ## Steps without names -/

section Steps

variable {start : Inference} {c : Setting} {r : Reading} {account : Lexical.Account}

theorem still_alloc {t : Term} (h : t.ident? = none) : Still (alloc t) :=
  .learnGet (.term t) h fun _ => rfl

theorem still_use (id : TermId) (allowed : List TypeTag) : Still (use id allowed) :=
  .learn (.use id allowed) trivial fun _ => rfl

theorem still_inFunction : Still inFunction := .get_bind fun _ => .pure _

theorem still_useAs (allowed : List TypeTag) (id : TermId) : Still (useAs allowed id) := by
  unfold useAs
  split
  · exact .pure ()
  · exact still_use id allowed

theorem still_useNumbers (ids : List TermId) : Still (useNumbers ids) := by
  induction ids with
  | nil => exact .pure ()
  | cons id ids ih => exact (still_use id [.number]).bind fun _ => ih

theorem still_addEntry (table : TableId) (key : String) (value : TermId) :
    Still (addEntry table key value) :=
  still_inFunction.bind fun _ => .learn (.entry table key value _) trivial fun _ => rfl

theorem still_entryKey? (key : Expr) (id : TermId) : Still (entryKey? key id) :=
  .get_bind fun _ => .pure _

theorem still_useTarget (target : TermId) : Still (useTarget target) := by
  refine .get_bind fun r => ?_
  split
  · exact still_use _ _
  · exact still_use _ _
  · exact .pure ()

theorem still_valueOrNil (value : Option TermId) : Still (valueOrNil value) := by
  cases value with
  | some value => exact .pure value
  | none => exact still_alloc rfl

theorem still_readMembers (base : TermId) (members : List String) :
    Still (readMembers base members) := by
  induction members generalizing base with
  | nil => exact .pure base
  | cons name members ih => exact (still_alloc rfl).bind fun _ => ih _

theorem still_noteReceiver (id : FunctionId) (receiver : Option TermId) :
    Still (noteReceiver id receiver) := by
  cases receiver with
  | some base => exact .learn (.receiver id base) trivial fun _ => rfl
  | none => exact .pure ()

/-! ## Terms of expressions -/

/-- A term is noted that is no require, or has been taken account of as one. -/
theorem followsFrom_note (h : Agrees start c r account) (node slot : Nat) {id : TermId}
    (hKnown : id.index < r.inference.terms.size)
    (hRequire : ∀ argument target slot, r.inference.term id = .require argument target slot →
      ∃ inFunction, (node, argument, inFunction) ∈ account.required) {γ : Type} (b : γ) :
    FollowsFrom start r account (note node slot id) (pure b : Lexical.Walk γ) fun _ => c :=
  ⟨h.note hKnown hRequire, .refl r.inference⟩

theorem term_alloc (r : Reading) (t : Term) :
    ((alloc t).run r).2.inference.term ((alloc t).run r).1 = t :=
  r.inference.terms.get_alloc_self t

theorem alloc_lt (r : Reading) (t : Term) :
    ((alloc t).run r).1.index < ((alloc t).run r).2.inference.terms.size := by
  show r.inference.terms.size < (r.inference.terms.alloc t).2.size
  rw [Arena.size_alloc]
  exact Nat.lt_succ_self _

/-- A new term that is neither a name nor a require is noted, perhaps after other steps. -/
theorem follows_allocNote {t : Term} (hIdent : t.ident? = none)
    (hRequire : ∀ argument target slot, t ≠ .require argument target slot) {α γ : Type}
    {y : TermId → Read α} {w : Lexical.Walk γ} (hy : ∀ id, Follows start c (y id) w fun _ => c)
    (node : Nat) :
    Follows start c (do
      let id ← alloc t
      let _ ← y id
      note node 0 id) w fun _ => c := by
  intro r account h
  have hAlloc := (still_alloc hIdent r).followsFrom h ()
  have hThen := hy ((alloc t).run r).1 ((alloc t).run r).2 account hAlloc.agrees
  have hNote := followsFrom_note hThen.agrees node 0
    (Nat.lt_of_lt_of_le (alloc_lt r t) hThen.grows.terms_le)
    (fun argument target slot hTerm => by
      rw [hThen.grows.term_eq (alloc_lt r t), term_alloc] at hTerm
      exact absurd hTerm (hRequire argument target slot)) ()
  exact ⟨hNote.agrees, hAlloc.grows.trans (hThen.grows.trans hNote.grows)⟩

theorem follows_make (mark : Mark) {t : Term} (hIdent : t.ident? = none)
    (hRequire : ∀ argument target slot, t ≠ .require argument target slot) {γ : Type} (b : γ) :
    Follows start c (make mark t) (pure b : Lexical.Walk γ) fun _ => c :=
  follows_allocNote hIdent hRequire (fun _ => (Still.pure ()).follows b) mark.id

theorem follows_makeCall (mark : Mark) (callee : TermId) (args : List TermId) {γ : Type} (b : γ) :
    Follows start c (makeCall mark callee args) (pure b : Lexical.Walk γ) fun _ => c := by
  have hCall : ∀ id, Still (learn fun s => s.addCall id) :=
    fun id => .learn (.call id) trivial fun _ => rfl
  exact .lead ((still_use callee _).follows ()) fun _ =>
    follows_allocNote rfl (fun _ _ _ => Term.noConfusion) (fun id => (hCall id).follows b) mark.id

/-- A term is noted, and taken account of if it is a require. -/
theorem followsFrom_noteRequire (h : Agrees start c r account) (node : Nat) {id : TermId}
    (hKnown : id.index < r.inference.terms.size) {required : Option String}
    (hRequired : ∀ argument target slot,
      r.inference.term id = .require argument target slot → required = some argument) :
    FollowsFrom start r account (note node 0 id) (Lexical.require c.place node required)
      fun _ => c := by
  cases required with
  | none =>
    refine followsFrom_note h node 0 hKnown (fun argument target slot hTerm => ?_) ()
    cases hRequired argument target slot hTerm
  | some name =>
    refine ⟨(h.withRequired (node, name, c.place.inFunction)).note hKnown ?_,
      .refl r.inference⟩
    intro argument target slot hTerm
    cases hRequired argument target slot hTerm
    exact ⟨c.place.inFunction, mem_append_right _ (mem_singleton.2 rfl)⟩

/-- A module is looked up and becomes a require. -/
theorem follows_makeRequire (mark : Mark) (argument : String) :
    Follows start c (do
      let target ← learnGet fun s => s.resolveRequire argument
      make mark (.require argument target 0))
      (Lexical.require c.place mark.id (some argument)) fun _ => c := by
  intro r account h
  have hMem : (mark.id, argument, c.place.inFunction) ∈
      account.required ++ [(mark.id, argument, c.place.inFunction)] :=
    mem_append_right _ (mem_singleton.2 rfl)
  have hQuiet := r.inference.quiet_resolveRequire argument
  have hRequired := (h.withRequired (mark.id, argument, c.place.inFunction)).quiet hQuiet
    (.single (.require argument) ⟨_, _, hMem⟩)
  have hAlloc := (still_alloc (t := .require argument (r.inference.resolveRequire argument).1 0)
    rfl _).followsFrom hRequired ()
  have hNote := followsFrom_note hAlloc.agrees mark.id 0 (alloc_lt _ _)
    (fun argument' target slot hTerm => by
      rw [term_alloc] at hTerm
      cases hTerm
      exact ⟨_, hMem⟩) ()
  exact ⟨hNote.agrees, hQuiet.grows.trans (hAlloc.grows.trans hNote.grows)⟩

/-- A name is looked up and becomes a reference. -/
theorem follows_makeName (mark : Mark) (name : String) :
    Follows start c (identOf name >>= fun ident => make mark (.reference ident))
      (Lexical.mentionAt c.place (some mark.id) name) fun _ => c := by
  intro r account h
  exact ⟨h.mention (h.denotes (some mark.id) name), .alloc r.inference _⟩

/-- The first name of a function statement is looked up and becomes a reference. -/
theorem follows_allocName (name : String) :
    Follows start c (identOf name >>= fun ident => alloc (.reference ident))
      (Lexical.mentionAt c.place none name) fun _ => c := by
  intro r account h
  exact ⟨h.mention (h.denotes none name), .alloc r.inference _⟩

/-- A declared name becomes a reference to its binding. -/
theorem followsFrom_mentionNew (h : Agrees start c r account) {symbol : SymbolId} {name : String}
    {number : Nat}
    (hBound : (start.boundSince r.inference)[number]? = some (symbol, name)) :
    FollowsFrom start r account (alloc (.reference (.bound symbol)))
      (Lexical.mentionNew (name, number)) fun _ => c :=
  ⟨h.mention (m := ⟨none, name, some number⟩) ⟨number, rfl, hBound⟩, .alloc r.inference _⟩

/-! ## Assignments -/

/-- An assignment to a local, or to no name, is quiet. -/
theorem stillFrom_assign {target : TermId}
    (h : ∀ name, (r.inference.term target).ident? ≠ some (.global name)) (value : TermId) :
    StillFrom r (assign target value) :=
  ⟨_, (r.inference.calm_addAssignment h value _).toQuiet,
    .single (.assignment target value _) trivial, rfl⟩

/-- An assignment to a name that is looked up. -/
theorem followsFrom_assign (h : Agrees start c r account) {target : TermId} {name : String}
    (hTarget : ∀ other, (r.inference.term target).ident? = some (.global other) ↔
      other = name ∧ c.place.meaning? name = none) (value : TermId) :
    FollowsFrom start r account (assign target value) (Lexical.assign c.place name)
      fun _ => c := by
  rw [Lexical.assign]
  split
  · rename_i hSome
    refine (stillFrom_assign ?_ value).followsFrom h ()
    intro other hOther
    rw [((hTarget other).1 hOther).2] at hSome
    cases hSome
  · rename_i hNone
    have hFree : c.place.meaning? name = none := by simpa using hNone
    have hGlobal := (hTarget name).2 ⟨rfl, hFree⟩
    have hAssigned := h.assign hGlobal value (!r.frames.isEmpty)
    rw [h.isEmpty_frames] at hAssigned
    refine ⟨?_, r.inference.grows_tell (.assignment target value (!r.frames.isEmpty))⟩
    show Agrees start c { r with
      inference := r.inference.addAssignment target value (!r.frames.isEmpty) } _
    rw [h.isEmpty_frames]
    exact hAssigned

/-! ## Declarations -/

/-- What declaring a name does. -/
theorem run_declare (kind : SymbolKind) (name : String) (r : Reading) :
    (declare kind name).run r = (⟨r.inference.registry.size⟩,
      { r with
        scope := r.scope.bind name ⟨r.inference.registry.size⟩
        inference := { r.inference with
          registry := (r.inference.registry.mint kind name).2
          moduleLevel := r.inference.moduleLevel ++
            if r.frames.isEmpty then [⟨r.inference.registry.size⟩] else [] } }) := by
  obtain ⟨s, scope, frames, lowered⟩ := r
  cases frames with
  | nil => rfl
  | cons =>
    simp only [isEmpty_cons, Bool.false_eq_true, if_false, append_nil]
    rfl

theorem follows_declare (kind : SymbolKind) (hKind : kind.isBinding = true) (name : String) :
    Follows start c (declare kind name) (Lexical.declare name)
      fun binding => c.under [binding] := by
  intro r account h
  refine ⟨?_, ?_⟩
  · rw [run_declare]
    exact h.declare hKind name
  · rw [run_declare]
    exact (Inference.Grows.mint r.inference kind name).trans (.of_eq rfl rfl)

/-- Inside a function, nothing is marked. -/
theorem follows_bindName (hInside : c.place.inFunction = true) (kind : SymbolKind)
    (hKind : kind.isBinding = true) (name : String) :
    Follows start c (bindName kind name) (Lexical.declare name)
      fun binding => c.under [binding] := by
  intro r account h
  have hFrames := h.isEmpty_frames
  rw [hInside, Bool.not_eq_true'] at hFrames
  have hDeclare := h.declare hKind name
  rw [hFrames] at hDeclare
  simp only [Bool.false_eq_true, if_false, append_nil] at hDeclare
  exact ⟨hDeclare, .mint r.inference kind name⟩

/-- The symbol of a declared name is found under its number. -/
theorem boundSince_declare (h : Agrees start c r account) {kind : SymbolKind}
    (hKind : kind.isBinding = true) (name : String) :
    (start.boundSince ((declare kind name).run r).2.inference)[account.declared.length]? =
      some (((declare kind name).run r).1, name) := by
  have hNew : start.boundSince (r.inference.tell (.binding kind name)) =
      start.boundSince r.inference ++ [(⟨r.inference.registry.size⟩, name)] :=
    Registry.bindingsFrom_mint h.registry_le kind name hKind
  rw [run_declare, ← h.declared, length_map]
  show (start.boundSince (r.inference.tell (.binding kind name)))[_]? = _
  rw [hNew]
  simp

/-- A declared name is given a value, which a quiet step makes. -/
theorem followsFrom_give (h : Agrees start c r account) {symbol : SymbolId} {name : String}
    {number : Nat} (hBound : (start.boundSince r.inference)[number]? = some (symbol, name))
    {z : Read TermId} (hz : Still z) :
    FollowsFrom start r account (do
      let target ← alloc (.reference (.bound symbol))
      let value ← z
      assign target value) (Lexical.mentionNew (name, number)) fun _ => c := by
  have hMention := followsFrom_mentionNew h hBound
  have hLater := (hz ((alloc (.reference (.bound symbol))).run r).2).followsFrom
    hMention.agrees ()
  have hIdent : ((z.run ((alloc (.reference (.bound symbol))).run r).2).2.inference.term
      ((alloc (.reference (.bound symbol))).run r).1).ident? = some (.bound symbol) := by
    rw [hLater.grows.term_eq (alloc_lt r _), term_alloc]
    rfl
  have hAssign := (stillFrom_assign (fun other hOther => by
    rw [hIdent] at hOther
    cases hOther) (z.run ((alloc (.reference (.bound symbol))).run r).2).1).followsFrom
      hLater.agrees ()
  exact ⟨hAssign.agrees, hMention.grows.trans (hLater.grows.trans hAssign.grows)⟩

/-- A name is declared and given a value, about which a quiet step is asked. -/
theorem follows_declareAndGive (kind : SymbolKind) (hKind : kind.isBinding = true)
    (name : String) {y : SymbolId → Read TermId} (hy : ∀ symbol, Still (y symbol)) :
    Follows start c (do
      let symbol ← declare kind name
      let value ← y symbol
      let target ← alloc (.reference (.bound symbol))
      assign target value) (Lexical.declareWithValue name)
      fun binding => c.under [binding] := by
  intro r account h
  have hDeclare := follows_declare kind hKind name r account h
  have hBound := boundSince_declare h hKind name
  have hValue := (hy ((declare kind name).run r).1 ((declare kind name).run r).2).followsFrom
    hDeclare.agrees ()
  have hGive := followsFrom_give hValue.agrees
    (hValue.grows.getElem?_bindingsFrom hDeclare.agrees.registry_le hBound)
    (.pure ((y ((declare kind name).run r).1).run ((declare kind name).run r).2).1)
  exact ⟨hGive.agrees, hDeclare.grows.trans (hValue.grows.trans hGive.grows)⟩

theorem follows_declareLocal (name : String) (value : TermId) :
    Follows start c (declareLocal name value)
      (Lexical.declareWithValue name) fun binding => c.under [binding] := by
  have hEq : declareLocal name value = (do
      let symbol ← declare .local name
      let given ← pure value
      let target ← alloc (.reference (.bound symbol))
      assign target given) := by
    simp only [declareLocal, pure_bind]
  rw [hEq]
  exact follows_declareAndGive .local rfl name fun _ => .pure value

theorem follows_declareObject (function : FunctionId) (name : String) (value : TermId) :
    Follows start c (declareObject function name value)
      (Lexical.declareWithValue name) fun binding => c.under [binding] := by
  have hObject : ∀ symbol, Still (learnGet fun s => s.addBuiltObject function symbol value) :=
    fun symbol => .learnGet (.object function symbol value) trivial fun _ => rfl
  unfold declareObject
  exact follows_declareAndGive .object rfl name hObject

theorem follows_declareAll (names : List String) :
    Follows start c (declareAll names) (Lexical.declareAll names)
      c.under := by
  induction names generalizing c with
  | nil => exact fun r _ h => ⟨h, .refl r.inference⟩
  | cons name names ih =>
    exact (follows_declare .local rfl name).bind fun _ first =>
      ih.giving (fun others => others ++ [first]) fun others => by simp

theorem follows_declareWithValue (name : String) (value : TermId) :
    Follows start c (declareWithValue name (some value))
      (Lexical.declareWithValue name) fun binding => c.under [binding] := by
  refine .get_bind fun r account h => ?_
  split
  · exact follows_declareObject _ name value r account h
  · exact follows_declareLocal name value r account h

/-- Names are declared in order, those with a value in front. -/
theorem follows_declareEach {names : List String} {values : List (Option TermId)} {given : Nat}
    (hLength : values.length = names.length)
    (hGiven : ∀ index, index < values.length →
      ((values[index]?.bind id).isSome = true ↔ index < given)) :
    Follows start c (declareEach names values)
      (Lexical.declareGiven given names) c.under := by
  induction names generalizing c values given with
  | nil => exact fun r _ h => ⟨h, .refl r.inference⟩
  | cons name names ih =>
    cases values with
    | nil => cases hLength
    | cons value values =>
      have hRest : values.length = names.length := Nat.succ.inj hLength
      have hFirst := hGiven 0 (Nat.succ_pos _)
      have hLater : ∀ index, index < values.length →
          ((values[index]?.bind id).isSome = true ↔ index < given - 1) := by
        intro index hIndex
        have hNext := hGiven (index + 1) (Nat.succ_lt_succ hIndex)
        rw [getElem?_cons_succ] at hNext
        rw [hNext]
        omega
      cases value with
      | none =>
        have hZero : given = 0 := by
          have hNot : ¬ 0 < given := fun hPos => by
            have := hFirst.2 hPos
            cases this
          omega
        subst hZero
        exact Follows.bind (x := declareWithValue name none)
          ((follows_declare .local rfl name).trail fun _ b => (Still.pure ()).follows b)
          fun _ first => (ih hRest hLater).giving (fun others => others ++ [first])
            fun others => by simp
      | some value =>
        have hPos : 0 < given := hFirst.1 rfl
        obtain ⟨before, rfl⟩ : ∃ before, given = before + 1 := ⟨given - 1, by omega⟩
        exact (follows_declareWithValue name value).bind fun _ first =>
          (ih hRest hLater).giving (fun others => others ++ [first]) fun others => by simp

theorem follows_declareParams (hInside : c.place.inFunction = true) (names : List String) :
    Follows start c (declareParams names) (Lexical.declareAll names) c.under := by
  induction names generalizing c with
  | nil => exact fun r _ h => ⟨h, .refl r.inference⟩
  | cons name names ih =>
    exact (follows_bindName hInside .parameter rfl name).bind fun _ first =>
      (ih (c := c.under [first]) hInside).bind fun _ others => .done (by simp)

/-! ## Scopes and functions -/

theorem follows_enterBlock : Follows start c enterBlock (pure () : Lexical.Walk Unit)
    fun _ => c.inside false :=
  fun r _ h => ⟨h.nest, .refl r.inference⟩

theorem follows_leaveScope {inner : Setting} (hOuter : inner.outer = c.levels)
    (hBlock : inner.top.isFunction = false) {γ : Type} (b : γ) :
    Follows start inner leaveScope (pure b : Lexical.Walk γ) fun _ => c := by
  intro r account h
  have hLeave := h.leave hOuter
  rw [hBlock] at hLeave
  exact ⟨hLeave, .refl r.inference⟩

theorem follows_leaveFunction {inner : Setting} (hOuter : inner.outer = c.levels)
    (hFunction : inner.top.isFunction = true) (id : FunctionId) {γ : Type} (b : γ) :
    Follows start inner (leaveFunction id) (pure b : Lexical.Walk γ) fun _ => c := by
  have hEnd : Still (learn fun s => s.endFunction id) :=
    .learn (.functionEnd id) trivial fun _ => rfl
  refine .lead (hEnd.follows ()) fun _ r account h => ?_
  have hLeave := h.leave hOuter
  rw [hFunction] at hLeave
  exact ⟨hLeave, .refl r.inference⟩

theorem follows_declareSelf (hInside : c.place.inFunction = true) (receiver : Option TermId) :
    Follows start c (declareSelf receiver) (Lexical.declare "self")
      fun binding => c.under [binding] := by
  refine (follows_bindName hInside .self rfl "self").trail fun r b => ?_
  cases receiver with
  | some id =>
    have hSelf : Still (learn fun s => s.defineSelf ((bindName .self "self").run r).1 id) :=
      .learn (.selfValue _ id) trivial fun _ => rfl
    refine Still.follows ?_ b
    exact hSelf.bind fun _ => .pure _
  | none => exact Still.follows (.pure _) b

theorem follows_declareImplied (hInside : c.place.inFunction = true) (needed : Bool)
    (receiver : Option TermId) :
    Follows start c (declareImplied needed receiver)
      (Lexical.declareAll (if needed then ["self"] else [])) c.under := by
  cases needed with
  | true =>
    refine (follows_declareSelf hInside receiver).bind fun _ first => ?_
    exact fun r _ h => ⟨h, .refl r.inference⟩
  | false => exact fun r _ h => ⟨h, .refl r.inference⟩

/-- A first parameter `self` is declared in its place, whether it is taken for the receiver
or not. -/
theorem parameters_eq (params : List String) (isColon hung : Bool) :
    (if isColon then ["self"] else []) ++ params =
      (if isColon || (hung && params.head? = some "self") then ["self"] else []) ++
        if (hung && params.head? = some "self") && !isColon then params.tail else params := by
  cases isColon with
  | true => simp
  | false =>
    by_cases hSelf : (hung && params.head? = some "self") = true
    · have hHead : params.head? = some "self" := by
        simp only [Bool.and_eq_true, decide_eq_true_eq] at hSelf
        exact hSelf.2
      obtain ⟨others, rfl⟩ := head?_eq_some_iff.1 hHead
      simp only [Bool.and_eq_true] at hSelf
      simp [hSelf.1]
    · rw [Bool.not_eq_true] at hSelf
      rw [hSelf]
      rfl

theorem follows_enterFunction (body : FunctionBody) (name : Option String) (isColon : Bool)
    (receiver : Option TermId) :
    Follows start c (enterFunction body name isColon receiver)
      (Lexical.declareAll ((if isColon then ["self"] else []) ++ body.params))
      (c.inside true).under := by
  rw [parameters_eq body.params isColon receiver.isSome, Lexical.declareAll_append]
  have hFunction : Still (learnGet fun s => s.newFunction name) :=
    .learnGet (.function name) trivial fun _ => rfl
  refine .lead (hFunction.follows ()) fun r => .lead ((still_noteReceiver _ receiver).follows ())
    fun _ => ?_
  have hPush : ∀ id : FunctionId, Follows start c
      (modify fun r => { r with scope := r.scope.pushFunction id, frames := id :: r.frames })
      (pure () : Lexical.Walk Unit) fun _ => c.inside true :=
    fun id r _ h => ⟨h.enter id, .refl r.inference⟩
  refine .lead (hPush _) fun _ => (follows_declareImplied rfl _ receiver).bind fun _ old =>
    (follows_declareParams rfl _).bind fun _ new => ?_
  have hParameters : ∀ id params isVararg isMethod,
      Still (learn fun s => s.setParameters id params isVararg isMethod) :=
    fun id params isVararg isMethod =>
      .learn (.parameters id params isVararg isMethod) trivial fun _ => rfl
  exact .lead ((hParameters _ _ _ _).follows ()) fun _ => .done (by simp)

/-! ## Function statements -/

/-- What a function statement hangs its function on: nothing if its name is plain, and
otherwise what the path up to its last name leads to. -/
theorem follows_readReceiver (name : FunctionName) :
    Follows start c (readReceiver name)
      (if name.members.isEmpty && name.method.isNone then pure ()
        else Lexical.mentionAt c.place none name.root) fun _ => c := by
  have hPath : ∀ members : List String, Follows start c (do
      let root ← alloc (.reference (← identOf name.root))
      let base ← readMembers root members
      use base [.table]
      pure (some base)) (Lexical.mentionAt c.place none name.root) fun _ => c := by
    intro members
    rw [← bind_assoc]
    refine (follows_allocName name.root).trail fun _ b => Still.follows ?_ b
    exact (still_readMembers _ members).bind fun _ => (still_use _ _).bind fun _ => .pure _
  unfold readReceiver
  cases name.method with
  | some method => simpa using hPath name.members
  | none =>
    cases name.members with
    | nil => exact fun r _ h => ⟨h, .refl r.inference⟩
    | cons first others => simpa using hPath (first :: others).dropLast

/-- A function statement has a receiver unless its name is plain. -/
theorem isSome_readReceiver (name : FunctionName) (r : Reading) :
    ((readReceiver name).run r).1.isSome = !(name.members.isEmpty && name.method.isNone) := by
  unfold readReceiver
  cases name.method with
  | some method => simp; rfl
  | none =>
    cases name.members with
    | nil => rfl
    | cons first others => rfl

/-- A function statement with a plain name assigns it. -/
theorem follows_definePlain {name : FunctionName}
    (hPlain : (name.members.isEmpty && name.method.isNone) = true) (id : FunctionId) :
    Follows start c (defineFunction name none id) (do
      Lexical.mentionAt c.place none name.root
      Lexical.assign c.place name.root) fun _ => c := by
  have hLast : lastName name = name.root := by
    rw [Bool.and_eq_true, List.isEmpty_iff, Option.isNone_iff_eq_none] at hPlain
    rw [lastName, hPlain.1, hPlain.2]
    rfl
  refine .lead ((still_alloc rfl).follows ()) fun _ => ?_
  rw [hLast]
  intro r account h
  have hMention := follows_allocName name.root r account h
  have hRead : ∀ value, (do
      let target ← alloc (.reference (← identOf name.root))
      assign target value) = (identOf name.root >>= fun ident => alloc (.reference ident)) >>=
        fun target => assign target value := fun _ => rfl
  rw [hRead]
  refine hMention.bind (followsFrom_assign hMention.agrees (fun other => ?_) _)
  rw [← h.ident_eq_global_iff name.root other]
  have hTerm : ((identOf name.root >>= fun ident => alloc (.reference ident)).run r
      ).2.inference.term ((identOf name.root >>= fun ident => alloc (.reference ident)).run r).1 =
        .reference (r.scope.ident name.root) := term_alloc r _
  rw [hTerm]
  simp [Term.ident?]

/-- A function statement with a longer path assigns a field. -/
theorem follows_definePath (name : FunctionName) (base : TermId) (id : FunctionId) {γ : Type}
    (b : γ) :
    Follows start c (defineFunction name (some base) id) (pure b : Lexical.Walk γ)
      fun _ => c := by
  refine .lead ((still_alloc rfl).follows ()) fun before => ?_
  generalize ((alloc (.literal (.function id))).run before).1 = value
  intro r account h
  have hAssign : StillFrom ((alloc (.member base (lastName name))).run r).2
      (assign ((alloc (.member base (lastName name))).run r).1 value) :=
    stillFrom_assign (fun other hOther => by
      rw [term_alloc] at hOther
      cases hOther) value
  have hMethod :
      Still (learn fun s => s.methodDefined base (lastName name) id name.method.isSome) :=
    .learn (.method base _ id _) trivial fun _ => rfl
  exact ((still_alloc rfl r).bind (hAssign.bind (hMethod _))).followsFrom h b

/-! ## Value lists -/

theorem ident?_atSlot (slot : Nat) (t : Term) : (atSlot slot t).ident? = none := by
  unfold atSlot
  split <;> rfl

theorem eq_require_of_atSlot {slot : Nat} {t : Term} {argument : String}
    {target : Option String} {slot' : Nat}
    (h : atSlot slot t = .require argument target slot') :
    ∃ old, t = .require argument target old := by
  unfold atSlot at h
  split at h
  · cases h
  · cases h
    exact ⟨_, rfl⟩
  · cases h

/-- The further slots of a call are noted under its number; of a require that has been taken
account of they are requires again. -/
theorem followsFrom_readSlots {first : TermId} {node : Nat} (slots : List Nat) {γ : Type} (b : γ)
    (h : Agrees start c r account) (hKnown : first.index < r.inference.terms.size)
    (hRequire : ∀ argument target slot, r.inference.term first = .require argument target slot →
      ∃ inFunction, (node, argument, inFunction) ∈ account.required) :
    FollowsFrom start r account (readSlots node first slots) (pure b : Lexical.Walk γ)
      fun _ => c := by
  induction slots generalizing r with
  | nil => exact ⟨h, .refl r.inference⟩
  | cons slot slots ih =>
    have hAlloc := (still_alloc (ident?_atSlot slot (r.inference.term first)) r).followsFrom h b
    have hNote := followsFrom_note hAlloc.agrees node slot (alloc_lt r _)
      (fun argument target slot' hTerm => by
        rw [term_alloc] at hTerm
        obtain ⟨old, hOld⟩ := eq_require_of_atSlot hTerm
        exact hRequire argument target old hOld) b
    have hRest := ih hNote.agrees
      (Nat.lt_of_lt_of_le hKnown (hAlloc.grows.trans hNote.grows).terms_le)
      (fun argument target slot' hTerm => by
        rw [(hAlloc.grows.trans hNote.grows).term_eq hKnown] at hTerm
        exact hRequire argument target slot' hTerm)
    exact ⟨hRest.agrees, hAlloc.grows.trans (hNote.grows.trans hRest.grows)⟩

theorem length_readSlots (node : Nat) (first : TermId) (slots : List Nat) (r : Reading) :
    ((readSlots node first slots).run r).1.length = slots.length := by
  induction slots generalizing r with
  | nil => rfl
  | cons slot slots ih => exact congrArg Nat.succ (ih _)

/-- The last of several values, if it may stand for several, is known, and taken account of if
it is a require. -/
def LastKnown (values : List Expr) (ids : List TermId) (s : Inference)
    (account : Lexical.Account) : Prop :=
  ∀ last first, values.getLast? = some last → ids.getLast? = some first →
    first.index < s.terms.size ∧
      ∀ argument target slot, s.term first = .require argument target slot →
        ∃ inFunction, (last.mark.id, argument, inFunction) ∈ account.required

theorem followsFrom_adjust (h : Agrees start c r account) (targets : Nat) {values : List Expr}
    {ids : List TermId} (hLast : LastKnown values ids r.inference account) {γ : Type} (b : γ) :
    FollowsFrom start r account (adjust targets values ids) (pure b : Lexical.Walk γ)
      fun _ => c := by
  have hFurther : FollowsFrom start r account (readFurther targets values ids)
      (pure b : Lexical.Walk γ) fun _ => c := by
    unfold readFurther
    split
    · rename_i last first hValue hId
      split
      · obtain ⟨hKnown, hRequire⟩ := hLast last first hValue hId
        exact followsFrom_readSlots _ b h hKnown hRequire
      · exact ⟨h, .refl r.inference⟩
    · exact ⟨h, .refl r.inference⟩
  exact ⟨hFurther.agrees, hFurther.grows⟩

/-- There is one value for each target. -/
theorem length_adjust (targets : Nat) (values : List Expr) (ids : List TermId) (r : Reading) :
    ((adjust targets values ids).run r).1.length = targets := by
  have hTake : ∀ found : List (Option TermId),
      ((found ++ List.replicate (targets - found.length) none).take targets).length =
        targets := by
    intro found
    rw [length_take, length_append, length_replicate]
    omega
  rw [adjust, StateT.run_bind]
  exact hTake _

/-- A target has the value that stands in its place, if one does. -/
theorem getElem?_adjust (targets : Nat) (values : List Expr) (ids : List TermId) (r : Reading)
    {index : Nat} (hIndex : index < targets) :
    ((adjust targets values ids).run r).1[index]? =
      some ((ids ++ ((readFurther targets values ids).run r).1)[index]?) := by
  have hTake : ∀ found : List TermId, ((found.map some ++
      List.replicate (targets - (found.map some).length) none).take targets)[index]? =
        some found[index]? := by
    intro found
    rw [getElem?_take_of_lt hIndex]
    by_cases hLt : index < found.length
    · rw [getElem?_append_left (by simpa using hLt), getElem?_map,
        getElem?_eq_getElem hLt]
      rfl
    · rw [getElem?_append_right (by simpa using hLt), getElem?_replicate,
        getElem?_eq_none (Nat.not_lt.1 hLt), if_pos]
      rw [length_map]
      omega
  exact hTake _

/-- The targets that are given a value. -/
theorem isSome_adjust (targets : Nat) {values : List Expr} {ids : List TermId}
    (hLength : ids.length = values.length) (r : Reading) (index : Nat) (hIndex : index < targets) :
    ((((adjust targets values ids).run r).1[index]?).bind id).isSome = true ↔
      index < Lexical.given targets values := by
  have hFurther : ids.length + ((readFurther targets values ids).run r).1.length =
      if (values.getLast?.map Expr.isMultiValue).getD false then max targets values.length
      else values.length := by
    unfold readFurther
    cases hValue : values.getLast? with
    | none =>
      show ids.length + 0 = values.length
      exact hLength
    | some last =>
      have hIds : ids ≠ [] := by
        rintro rfl
        rw [length_nil, eq_comm, length_eq_zero_iff] at hLength
        rw [hLength] at hValue
        cases hValue
      rw [getLast?_eq_some_getLast hIds]
      dsimp only
      by_cases hMulti : last.isMultiValue = true
      · rw [if_pos hMulti, length_readSlots, length_map, length_range]
        simp only [Option.map_some, Option.getD_some, hMulti, if_true]
        omega
      · rw [if_neg hMulti]
        simp only [Option.map_some, Option.getD_some, hMulti]
        exact hLength
  rw [getElem?_adjust targets values ids r hIndex, Lexical.given]
  rw [Option.bind_some, id_eq, isSome_getElem?, length_append]
  split at hFurther
  · rename_i hMulti
    rw [if_pos hMulti]
    omega
  · rename_i hMulti
    rw [if_neg hMulti]
    omega

end Steps

end LuaShape.Read
