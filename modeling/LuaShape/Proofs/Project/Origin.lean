import LuaShape.Proofs.Summary.Canonical

/-!
# Where tables come from

A table belongs to the module that was being read when it was made, and this never changes:
becoming a class, an instance or a placeholder later, from whichever module, leaves it where it
is.  So the position that the record of a table holds at the end of a run is that of the one
module during whose reading the table was made (`madeReading_iff`).
-/

namespace LuaShape.Inference

open List

/-! ## Changes -/

section Changes

variable {P : TermId → Prop} {s s' : Inference} {x : TableId} {t : TableRecord}

theorem Changes.registry_le (h : Changes P s s') : s.registry.size ≤ s'.registry.size := by
  induction h with
  | refl => exact Nat.le_refl _
  | tail _ hStep ih => exact Nat.le_trans ih hStep.change.registry_le

/-- A table whose number has been given is kept. -/
theorem Changes.exists_grows (h : Changes P s s') (hx : x.index < s.registry.size)
    (ht : s.table? x = some t) : ∃ t', s'.table? x = some t' ∧ t.Grows t' := by
  induction h with
  | refl => exact ⟨t, ht, .refl t⟩
  | tail hChanges hStep ih =>
    obtain ⟨mid, hMid, hGrows⟩ := ih
    have hGiven := Nat.lt_of_lt_of_le hx (Changes.registry_le hChanges)
    obtain ⟨t', ht', hGrows'⟩ := hStep.change.exists_grows hGiven hMid
    exact ⟨t', ht', hGrows.trans hGrows'⟩

/-- A table that is made belongs to the module being read. -/
theorem Changes.module_of_made (h : Changes P s s') (hx : s.table? x = none)
    (ht : s'.table? x = some t) : t.module = s.current := by
  induction h generalizing t with
  | refl => simp [hx] at ht
  | @tail mid s' hChanges hStep ih =>
    have hCurrent : mid.current = s.current := Changes.current_eq hChanges
    rcases hStep.change.fate x with hFate | ⟨-, hNew⟩
    · rw [ht] at hFate
      cases hOld : mid.table? x with
      | none =>
        rw [hOld] at hFate
        cases hFate with
        | made _ hModule => rw [hModule, hCurrent]
      | some old =>
        rw [hOld] at hFate
        cases hFate with
        | kept hGrows => rw [hGrows.module_eq, ih hOld]
    · rw [ht] at hNew
      cases hNew
      exact hCurrent

end Changes

/-! ## Reading -/

section Reading

variable {buckets : List String} {s : Inference} {x : TableId} {t : TableRecord}

theorem table?_beginModule (s : Inference) (name : String) :
    (s.beginModule name).2.table? = s.table? := by
  obtain ⟨modules, hEq⟩ := s.exists_register_eq name
  funext x
  show ((s.register name).2.tables).find? x = s.tables.find? x
  rw [hEq]

theorem table?_registerAll (s : Inference) (names : List String) :
    (s.registerAll names).table? = s.table? := by
  induction names generalizing s with
  | nil => rfl
  | cons name names ih =>
    obtain ⟨modules, hEq⟩ := s.exists_register_eq name
    rw [registerAll, foldl_cons, hEq]
    exact ih _

theorem table?_propagateArguments (s : Inference) : s.propagateArguments.table? = s.table? := by
  rw [propagateArguments]
  split <;> rfl

/-- Reading a module keeps the tables made before. -/
theorem Reached.exists_grows_readModule (h : Reached buckets s) (ht : s.table? x = some t)
    (name : String) (chunk : Chunk) :
    ∃ t', (s.readModule name chunk).table? x = some t' ∧ t.Grows t' := by
  have hTable : (s.beginModule name).2.table? x = some t := by rw [table?_beginModule, ht]
  have hGiven := ((h.sound.beginModule name).grounded.table x t hTable).known.2.lt
  exact (changes_readModule h.sound name chunk).exists_grows hGiven hTable

theorem Reached.exists_grows_readAll (h : Reached buckets s) (ht : s.table? x = some t)
    (chunks : List (String × Chunk)) (names : List String) :
    ∃ t', (s.readAll chunks names).table? x = some t' ∧ t.Grows t' := by
  induction names generalizing s t with
  | nil => exact ⟨t, ht, .refl t⟩
  | cons name names ih =>
    rw [Inference.readAll, foldl_cons]
    split
    next entry _ =>
      obtain ⟨mid, hMid, hGrows⟩ := h.exists_grows_readModule ht name entry
      obtain ⟨t', ht', hGrows'⟩ := ih (h.readModule name entry) hMid
      exact ⟨t', ht', hGrows.trans hGrows'⟩
    next => exact ih h ht

end Reading

/-! ## Runs -/

section Runs

variable (buckets : List String) (chunks : List (String × Chunk))

/-- What is known when some modules at the front of the load order have been read. -/
def readFront (front : List String) : Inference :=
  ((empty buckets).registerAll (Schedule.ofChunks buckets chunks).order).readAll chunks front

/-- A table is made while the module of a name is read: it is not known before, and it is known
afterwards. -/
def MadeReading (name : String) (x : TableId) : Prop :=
  ∃ front behind chunk, (Schedule.ofChunks buckets chunks).order = front ++ name :: behind ∧
    chunks.find? (fun entry => entry.1 = name) = some (name, chunk) ∧
    (readFront buckets chunks front).table? x = none ∧
    (((readFront buckets chunks front).readModule name chunk).table? x).isSome = true

variable {buckets chunks} {front behind : List String} {name : String} {chunk : Chunk}
  {x : TableId} {t : TableRecord}

theorem reached_readFront (front : List String) :
    Reached buckets (readFront buckets chunks front) :=
  (Reached.empty.registerAll _).readAll chunks front

theorem readFront_append (front behind : List String) :
    readFront buckets chunks (front ++ behind) =
      (readFront buckets chunks front).readAll chunks behind :=
  foldl_append

theorem readFront_append_singleton
    (hChunk : chunks.find? (fun entry => entry.1 = name) = some (name, chunk)) :
    readFront buckets chunks (front ++ [name]) =
      (readFront buckets chunks front).readModule name chunk := by
  rw [readFront_append, readAll, foldl_cons, foldl_nil, hChunk]

theorem progress_readFront
    (hSplit : (Schedule.ofChunks buckets chunks).order = front ++ behind) :
    Progress buckets (Schedule.ofChunks buckets chunks).order front.reverse chunks
      (readFront buckets chunks front) := by
  have hOrder := Schedule.nodup_order_ofChunks buckets chunks
  induction front using List.reverseRecOn generalizing behind with
  | nil => exact progress_registerAll hOrder
  | append_singleton front name ih =>
    have hName : name ∈ (Schedule.ofChunks buckets chunks).order := by simp [hSplit]
    obtain ⟨chunk, hChunk⟩ := Schedule.exists_chunk hName
    rw [readFront_append_singleton hChunk, reverse_append]
    exact (ih (by rw [hSplit, append_assoc])).readModule hOrder hName hChunk

/-- A table that is made while a module is read holds the position of the module. -/
theorem module_of_made
    (hSplit : (Schedule.ofChunks buckets chunks).order = front ++ name :: behind)
    (hOld : (readFront buckets chunks front).table? x = none)
    (hNew : ((readFront buckets chunks front).readModule name chunk).table? x = some t) :
    t.module = front.length := by
  have hProgress := progress_readFront hSplit
  have hName : name ∈ (Schedule.ofChunks buckets chunks).order := by simp [hSplit]
  have hBegin := hProgress.toKnown.beginModule hName
  have hMade := (changes_readModule hProgress.sound name chunk).module_of_made
    (by rw [table?_beginModule, hOld]) hNew
  rw [hMade]
  have hPosition := hBegin.getElem?_current
  have hOrder := Schedule.nodup_order_ofChunks buckets chunks
  have hLt := (List.getElem?_eq_some_iff.1 hPosition).1
  refine (List.getElem?_inj hLt hOrder).1 (hPosition.trans ?_)
  rw [hSplit, getElem?_append_right (Nat.le_refl _), Nat.sub_self, getElem?_cons_zero]

/-- Every known table was made while the module at its position was read. -/
theorem madeReading_of_readFront
    (hSplit : (Schedule.ofChunks buckets chunks).order = front ++ behind)
    (ht : (readFront buckets chunks front).table? x = some t) :
    ∃ name, (Schedule.ofChunks buckets chunks).order[t.module]? = some name ∧
      MadeReading buckets chunks name x := by
  induction front using List.reverseRecOn generalizing behind t with
  | nil =>
    have hNone : (readFront buckets chunks []).table? x = none := by
      show ((empty buckets).registerAll _).table? x = none
      rw [table?_registerAll]
      rfl
    rw [hNone] at ht
    cases ht
  | append_singleton front name ih =>
    have hSplit' : (Schedule.ofChunks buckets chunks).order = front ++ name :: behind := by
      rw [hSplit, append_assoc]
      rfl
    have hName : name ∈ (Schedule.ofChunks buckets chunks).order := by simp [hSplit]
    obtain ⟨chunk, hChunk⟩ := Schedule.exists_chunk hName
    rw [readFront_append_singleton hChunk] at ht
    cases hOld : (readFront buckets chunks front).table? x with
    | some old =>
      obtain ⟨t', ht', hGrows⟩ :=
        (reached_readFront front).exists_grows_readModule hOld name chunk
      cases ht.symm.trans ht'
      rw [hGrows.module_eq]
      exact ih hSplit' hOld
    | none =>
      refine ⟨name, ?_, front, behind, chunk, hSplit', hChunk, hOld, by simp [ht]⟩
      rw [module_of_made hSplit' hOld ht, hSplit', getElem?_append_right (Nat.le_refl _),
        Nat.sub_self, getElem?_cons_zero]

theorem table?_ofChunks :
    (ofChunks buckets chunks).table? =
      (readFront buckets chunks (Schedule.ofChunks buckets chunks).order).table? :=
  table?_propagateArguments _

/-- **A table is made while the module at its position is read, and at no other time.** -/
theorem madeReading_iff : MadeReading buckets chunks name x ↔
    ∃ t, (ofChunks buckets chunks).table? x = some t ∧
      (Schedule.ofChunks buckets chunks).order[t.module]? = some name := by
  rw [table?_ofChunks]
  constructor
  · rintro ⟨front, behind, chunk, hSplit, hChunk, hOld, hNew⟩
    obtain ⟨made, hMade⟩ := Option.isSome_iff_exists.1 hNew
    have hPosition := module_of_made hSplit hOld hMade
    rw [← readFront_append_singleton hChunk] at hMade
    obtain ⟨t, ht, hGrows⟩ := (reached_readFront _).exists_grows_readAll hMade chunks behind
    refine ⟨t, ?_, ?_⟩
    · rw [hSplit, ← singleton_append, ← append_assoc, readFront_append, ht]
    · rw [hGrows.module_eq, hPosition, hSplit, getElem?_append_right (Nat.le_refl _),
        Nat.sub_self, getElem?_cons_zero]
  · rintro ⟨t, ht, hName⟩
    obtain ⟨found, hFound, hMade⟩ := madeReading_of_readFront (append_nil _).symm ht
    cases hName.symm.trans hFound
    exact hMade

theorem madeReading_iff_eq (ht : (ofChunks buckets chunks).table? x = some t)
    (hName : (Schedule.ofChunks buckets chunks).order[t.module]? = some name) (other : String) :
    MadeReading buckets chunks other x ↔ other = name := by
  rw [madeReading_iff]
  constructor
  · rintro ⟨t', ht', hOther⟩
    cases ht.symm.trans ht'
    exact Option.some.inj (hOther.symm.trans hName)
  · rintro rfl
    exact ⟨t, ht, hName⟩

end Runs

end LuaShape.Inference
