import LuaShape.Proofs.Inference.Values
import LuaShape.Summary.Module

/-!
# Contexts that reading leads to

A context starts empty.  Modules are made known and read, in any order and with any
chunks, and at some point the arguments of calls become definitions of parameters.  What
elementary changes keep, and what beginning a module keeps, holds of all such contexts
(`Reached.induct`).
-/

namespace LuaShape.Inference

open List

/-- The facts known after reading chunks, one after the other, as modules of given
names. -/
def readChunks (buckets : List String) (chunks : List (String × Chunk)) : Inference :=
  chunks.foldl (fun s entry => s.readModule entry.1 entry.2) (empty buckets)

/-- The contexts that making modules known, reading them and spreading arguments lead
to. -/
inductive Reached (buckets : List String) : Inference → Prop
  | empty : Reached buckets (empty buckets)
  | register {s : Inference} (name : String) (h : Reached buckets s) :
      Reached buckets (s.register name).2
  | readModule {s : Inference} (name : String) (chunk : Chunk) (h : Reached buckets s) :
      Reached buckets (s.readModule name chunk)
  | propagateArguments {s : Inference} (h : Reached buckets s) :
      Reached buckets s.propagateArguments
  | takeDiagnostics {s : Inference} (h : Reached buckets s) :
      Reached buckets s.takeDiagnostics.2

variable {buckets : List String} {s : Inference}

theorem Reached.readEach (chunks : List (String × Chunk)) (h : Reached buckets s) :
    Reached buckets (chunks.foldl (fun s entry => s.readModule entry.1 entry.2) s) := by
  induction chunks generalizing s with
  | nil => exact h
  | cons entry rest ih => exact ih (h.readModule entry.1 entry.2)

theorem reached_readChunks (buckets : List String) (chunks : List (String × Chunk)) :
    Reached buckets (readChunks buckets chunks) :=
  Reached.empty.readEach chunks

/-! ## Invariants -/

/-- Making a module known adds at most its record. -/
theorem exists_register_eq (s : Inference) (name : String) :
    ∃ modules, (s.register name).2 = { s with modules } := by
  rw [register]
  split <;> exact ⟨_, rfl⟩

theorem Sound.register (hs : Sound s) (name : String) : Sound (s.register name).2 := by
  rw [Inference.register]
  split
  · exact hs
  · refine ⟨hs.grounded.of_later (.of_eq rfl rfl rfl rfl) fun h =>
      { h with returned := fun m hm d hd => ?_ }, hs.isFilled⟩
    rcases mem_append.1 hm with hm | hm
    · exact h.returned m hm d hd
    · rw [mem_singleton.1 hm] at hd
      cases hd

theorem Sound.beginModule (hs : Sound s) (name : String) : Sound (s.beginModule name).2 := by
  have hKnown := hs.register name
  have hMinted := hKnown.grounded.leadsTo_mint .module name
  exact ⟨hMinted.grounded.of_later (.of_eq rfl rfl rfl rfl) fun h => { h with }, hKnown.isFilled⟩

/-- Once a module is begun, reading it is nothing but changes. -/
theorem changes_readModule (hs : Sound s) (name : String) (chunk : Chunk) :
    Changes (fun _ => True) (s.beginModule name).2 (s.readModule name chunk) :=
  .tail (changes_readBlock (hs.beginModule name) chunk.block
      { inference := (s.beginModule name).2, scope := (s.beginModule name).1 } rfl)
    ⟨.modifyModule _ (fun _ => rfl) (fun _ => rfl) fun _ => rfl, fun hs =>
      hs.leadsTo_modifyModule fun _ _ hd => .inl hd⟩

/-- The arguments that become definitions are parts of calls. -/
theorem Grounded.knowsTerm_argument (hs : s.Grounded) {site : CallSite} {symbol : SymbolId}
    {d : Definition} (h : (symbol, d) ∈ s.argumentDefinitions site) : s.KnowsTerm d.value := by
  rw [argumentDefinitions] at h
  split at h
  · cases h
  · rename_i callee args hCall
    split at h
    · cases h
    · obtain ⟨⟨param, arg⟩, hMem, hEq⟩ := mem_map.1 h
      cases hEq
      exact (hs.knowsTerm_of_callParts? hCall).2 arg (of_mem_zip hMem).2

/-- Arguments become definitions of bindings. -/
theorem changes_propagateArguments {P : TermId → Prop} (hs : s.Grounded) :
    Changes P s s.propagateArguments := by
  have hPush : ∀ (given : List (SymbolId × Definition)) (s : Inference),
      (∀ entry ∈ given, s.KnowsTerm entry.2.value) → Changes P s { s with
        definitions := given.foldl
          (fun definitions entry => definitions.push (.bound entry.1) entry.2) s.definitions } := by
    intro given
    induction given with
    | nil => exact fun s _ => .refl
    | cons entry rest ih =>
      intro s hGiven
      rw [forall_mem_cons] at hGiven
      exact .head (.bind entry.1 hGiven.1) (ih _ hGiven.2)
  rw [propagateArguments]
  split
  · exact .refl
  · refine .tail (hPush _ s fun entry hEntry => ?_) .aside
    obtain ⟨site, -, hMem⟩ := mem_flatMap.1 hEntry
    exact hs.knowsTerm_argument hMem

/-- What changes keep, and what making modules known and beginning them keeps, holds of
all contexts that reading leads to. -/
theorem Reached.induct (Inv : Inference → Prop) (hEmpty : Inv (Inference.empty buckets))
    (hRegister : ∀ s name, Inv s → Inv (s.register name).2)
    (hBegin : ∀ s name, Inv s → Inv (s.beginModule name).2)
    (hChange : ∀ s s', Sound s → Inv s → Change (fun _ => True) s s' → Inv s')
    (h : Reached buckets s) : Sound s ∧ Inv s := by
  have hChanges : ∀ {s s'}, Changes (fun _ => True) s s' → Sound s ∧ Inv s →
      Sound s' ∧ Inv s' := by
    intro s s' h hs
    induction h with
    | refl => exact hs
    | tail _ hStep ih => exact ⟨ih.1.step hStep, hChange _ _ ih.1 ih.2 hStep.change⟩
  induction h with
  | empty => exact ⟨sound_empty buckets, hEmpty⟩
  | register name _ ih => exact ⟨ih.1.register name, hRegister _ name ih.2⟩
  | readModule name chunk _ ih =>
    exact hChanges (changes_readModule ih.1 name chunk)
      ⟨ih.1.beginModule name, hBegin _ name ih.2⟩
  | propagateArguments _ ih => exact hChanges (changes_propagateArguments ih.1.grounded) ih
  | takeDiagnostics _ ih => exact hChanges (.single .aside) ih

theorem Reached.sound (h : Reached buckets s) : Sound s :=
  (h.induct (fun _ => True) trivial (fun _ _ _ => trivial) (fun _ _ _ => trivial)
    fun _ _ _ _ _ => trivial).1

/-- Nothing dangles in a context that reading leads to. -/
theorem Reached.grounded (h : Reached buckets s) : s.Grounded := h.sound.grounded

end LuaShape.Inference
