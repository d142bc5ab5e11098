import LuaShape.Proofs.LoadOrder.Dependency

/-!
# The invariant of the worklist

A file may lie on the stack several times, because dependencies are put there
before they are seen, and a file that waits is taken from the stack twice.  What
makes the work come out right is a fact about the topmost place of each file
that has been seen and is not placed: the files above that place are reached
from it, and every dependency it still waits for is among them.

`step_cases` says once what taking a file from the stack can do.  `Orderly`
states the invariant, and `Orderly.step` that a step keeps it.
-/

namespace LuaShape.Schedule

open List

/-- One file stands before another one in an order. -/
def Precedes (order : List String) (first second : String) : Prop :=
  [first, second].Sublist order

instance (order : List String) (first second : String) :
    Decidable (Precedes order first second) :=
  inferInstanceAs (Decidable ([first, second].Sublist order))

namespace Precedes

variable {order : List String} {first second : String}

theorem append (h : Precedes order first second) (more : List String) :
    Precedes (order ++ more) first second :=
  h.trans (sublist_append_left order more)

theorem snoc (h : first ∈ order) (second : String) :
    Precedes (order ++ [second]) first second :=
  (singleton_sublist.2 h).append (List.Sublist.refl [second])

theorem mem_left (h : Precedes order first second) : first ∈ order :=
  h.subset (by simp)

theorem mem_right (h : Precedes order first second) : second ∈ order :=
  h.subset (by simp)

/-- In an order without repetition no two files stand before each other. -/
theorem asymm (hOrder : order.Nodup) (h : Precedes order first second) :
    ¬ Precedes order second first := by
  induction order with
  | nil => exact absurd h.mem_left (by simp)
  | cons file rest ih =>
    rw [nodup_cons] at hOrder
    intro hBack
    rcases sublist_cons_iff.1 h with hRest | ⟨tail, hTail, hSecond⟩
    · rcases sublist_cons_iff.1 hBack with hBackRest | ⟨tail, hTail, -⟩
      · exact ih hOrder.2 hRest hBackRest
      · injection hTail with hFile
        subst hFile
        exact hOrder.1 (mem_right hRest)
    · injection hTail with hFile hTail
      subst hFile
      subst hTail
      rcases sublist_cons_iff.1 hBack with hBackRest | ⟨tail, hTail, hFirst⟩
      · exact hOrder.1 (mem_right hBackRest)
      · injection hTail with hSame hTail
        subst hSame
        exact hOrder.1 (singleton_sublist.1 hSecond)

/-- What stands before a file stands in front of its only place. -/
theorem mem_front {front back : List String} (hOrder : (front ++ second :: back).Nodup)
    (h : Precedes (front ++ second :: back) first second) : first ∈ front := by
  have hBack : second ∉ back :=
    (nodup_cons.1 (nodup_append.1 hOrder).2.1).1
  obtain ⟨left, right, hSplit, hLeft, hRight⟩ := sublist_append_iff.1 h
  cases left with
  | nil =>
    rw [nil_append] at hSplit
    subst hSplit
    rcases sublist_cons_iff.1 hRight with hRest | ⟨tail, hTail, hRest⟩
    · exact absurd (hRest.subset (by simp)) hBack
    · injection hTail with _ hTail
      subst hTail
      exact absurd (singleton_sublist.1 hRest) hBack
  | cons x left =>
    injection hSplit with hFirst _
    subst hFirst
    exact hLeft.subset mem_cons_self

end Precedes

/-! ## What the parts of a step do -/

/-- The edge from one file to another has been reported as ignored. -/
def Progress.Broken (p : Progress) (file other : String) : Prop :=
  Diagnostic.cycleBroken file other ∈ p.diagnostics

/-- A report about a require says that it is ambiguous or unresolved. -/
theorem mem_requireReports {g : Graph} {name : String} {d : Diagnostic}
    (h : d ∈ g.requireReports name) :
    (∃ file required candidates, d = .ambiguousRequire file required candidates) ∨
      ∃ file required, d = .unresolvedRequire file required := by
  rw [Graph.requireReports] at h
  split at h
  · obtain ⟨required, -, hReport⟩ := mem_filterMap.1 h
    rw [Graph.requireReport?] at hReport
    split at hReport <;> cases hReport
    · exact Or.inl ⟨_, _, _, rfl⟩
    · exact Or.inr ⟨_, _, rfl⟩
  · cases h

theorem cycleBroken_not_mem_requireReports (g : Graph) (name file other : String) :
    Diagnostic.cycleBroken file other ∉ g.requireReports name := by
  intro h
  rcases mem_requireReports h with ⟨_, _, _, hd⟩ | ⟨_, _, hd⟩ <;> cases hd

namespace Progress

variable {p : Progress}

theorem placed_visit (g : Graph) (file : String) : (p.visit g file).placed = p.placed := by
  rw [visit]
  split <;> rfl

theorem mem_seen_visit {g : Graph} {file x : String} :
    x ∈ (p.visit g file).seen ↔ x = file ∨ x ∈ p.seen := by
  rw [visit]
  split
  · rename_i hSeen
    constructor
    · exact Or.inr
    · rintro (rfl | hx)
      · exact hSeen
      · exact hx
  · exact mem_cons

theorem broken_visit {g : Graph} {file a b : String} :
    (p.visit g file).Broken a b ↔ p.Broken a b := by
  rw [visit, Broken]
  split
  · rfl
  · rw [mem_append, or_iff_left (cycleBroken_not_mem_requireReports g file a b)]
    rfl

/-- A visit adds reports about requires only. -/
theorem mem_diagnostics_visit {g : Graph} {file : String} {d : Diagnostic}
    (h : d ∈ (p.visit g file).diagnostics) :
    d ∈ p.diagnostics ∨ d ∈ g.requireReports file := by
  rw [visit] at h
  split at h
  · exact Or.inl h
  · exact mem_append.1 h

theorem placed_breakCycles (file : String) (others : List String) :
    (others.foldl (breakCycle file) p).placed = p.placed := by
  induction others generalizing p with
  | nil => rfl
  | cons other rest ih =>
    rw [foldl_cons, ih, breakCycle]
    split <;> rfl

theorem seen_breakCycles (file : String) (others : List String) :
    (others.foldl (breakCycle file) p).seen = p.seen := by
  induction others generalizing p with
  | nil => rfl
  | cons other rest ih =>
    rw [foldl_cons, ih, breakCycle]
    split <;> rfl

theorem broken_breakCycle {file other a b : String} :
    (p.breakCycle file other).Broken a b ↔ p.Broken a b ∨ (a = file ∧ b = other) := by
  rw [breakCycle, Broken]
  split
  · rename_i hOld
    constructor
    · exact Or.inl
    · rintro (h | ⟨rfl, rfl⟩)
      · exact h
      · exact hOld
  · rw [mem_append, mem_singleton, Diagnostic.cycleBroken.injEq]
    rfl

theorem broken_breakCycles {file a b : String} {others : List String} :
    (others.foldl (breakCycle file) p).Broken a b ↔
      p.Broken a b ∨ (a = file ∧ b ∈ others) := by
  induction others generalizing p with
  | nil => simp
  | cons other rest ih =>
    rw [foldl_cons, ih, broken_breakCycle, mem_cons]
    constructor
    · rintro ((h | ⟨ha, hb⟩) | ⟨ha, hb⟩)
      · exact Or.inl h
      · exact Or.inr ⟨ha, Or.inl hb⟩
      · exact Or.inr ⟨ha, Or.inr hb⟩
    · rintro (h | ⟨ha, hb | hb⟩)
      · exact Or.inl (Or.inl h)
      · exact Or.inl (Or.inr ⟨ha, hb⟩)
      · exact Or.inr ⟨ha, hb⟩

/-- Ignoring edges adds reports about them only. -/
theorem mem_diagnostics_breakCycles {file : String} {others : List String} {d : Diagnostic}
    (h : d ∈ (others.foldl (breakCycle file) p).diagnostics) :
    d ∈ p.diagnostics ∨ ∃ other, d = .cycleBroken file other := by
  induction others generalizing p with
  | nil => exact Or.inl h
  | cons other rest ih =>
    rcases ih h with hOld | hNew
    · rw [breakCycle] at hOld
      split at hOld
      · exact Or.inl hOld
      · rcases mem_append.1 hOld with hOld | hNew
        · exact Or.inl hOld
        · exact Or.inr ⟨other, mem_singleton.1 hNew⟩
    · exact Or.inr hNew

end Progress

/-! ## What a step does -/

/-- A file has been visited: it is seen, and its edges to seen files that are not
placed are reported. -/
structure Visited (g : Graph) (p : Progress) (file : String) (q : Progress) : Prop where
  placed : q.placed = p.placed
  seen : ∀ x, x ∈ q.seen ↔ x = file ∨ x ∈ p.seen
  broken : ∀ a b, q.Broken a b ↔
    p.Broken a b ∨ (a = file ∧ b ∈ g.dependencies file ∧ b ∉ p.placed ∧ b ∈ q.seen)
  reports : ∀ d ∈ q.diagnostics,
    d ∈ p.diagnostics ∨ d ∈ g.requireReports file ∨ ∃ other, d = .cycleBroken file other

/-- The files that a visited file waits for. -/
def pending (g : Graph) (q : Progress) (file : String) : List String :=
  (g.dependencies file).toList.filter fun x => x ∉ q.placed ∧ x ∉ q.seen

theorem mem_pending {g : Graph} {q : Progress} {file x : String} :
    x ∈ pending g q file ↔ x ∈ g.dependencies file ∧ x ∉ q.placed ∧ x ∉ q.seen := by
  rw [pending, mem_filter, decide_eq_true_eq]
  rfl

/-- Taking a file from the stack drops a placed file; any other one is visited, and
then placed if there is nothing to wait for, or else put back below the files it
waits for. -/
theorem step_cases (g : Graph) (p : Progress) (file : String) (stack : List String) :
    (file ∈ p.placed ∧ step g p file stack = (p, stack)) ∨
    (file ∉ p.placed ∧ ∃ q, Visited g p file q ∧
      ((pending g q file = [] ∧ step g p file stack = (q.place file, stack)) ∨
        (pending g q file ≠ [] ∧
          step g p file stack = (q, (pending g q file).reverse ++ file :: stack)))) := by
  by_cases hPlaced : file ∈ p.placed
  · exact Or.inl ⟨hPlaced, by rw [step, if_pos hPlaced]⟩
  · refine Or.inr ⟨hPlaced, ?_⟩
    rw [step, if_neg hPlaced]
    dsimp only
    generalize hUnplaced :
      ((g.dependencies file).toList.filter fun x => x ∉ (p.visit g file).placed) = unplaced
    generalize hNext : (unplaced.filter fun x => x ∈ (p.visit g file).seen).foldl
      (Progress.breakCycle file) (p.visit g file) = q
    have hqPlaced : q.placed = p.placed := by
      rw [← hNext, Progress.placed_breakCycles, Progress.placed_visit]
    have hqSeen : q.seen = (p.visit g file).seen := by
      rw [← hNext, Progress.seen_breakCycles]
    have hVisited : Visited g p file q := by
      refine { placed := hqPlaced, seen := ?_, broken := ?_, reports := ?_ }
      · intro x
        rw [hqSeen, Progress.mem_seen_visit]
      · intro a b
        rw [hqSeen, ← hNext, Progress.broken_breakCycles, Progress.broken_visit, ← hUnplaced]
        simp only [mem_filter, decide_eq_true_eq, Progress.placed_visit, and_assoc]
        rfl
      · intro d hd
        rw [← hNext] at hd
        rcases Progress.mem_diagnostics_breakCycles hd with hd | hd
        · rcases Progress.mem_diagnostics_visit hd with hd | hd
          · exact Or.inl hd
          · exact Or.inr (Or.inl hd)
        · exact Or.inr (Or.inr hd)
    have hPending : (unplaced.filter fun x => x ∉ q.seen) = pending g q file := by
      rw [← hUnplaced, Progress.placed_visit, ← hqPlaced, pending, filter_filter]
      refine filter_congr ?_
      intro x _
      simp [Bool.and_comm]
    refine ⟨q, hVisited, ?_⟩
    rw [hPending]
    cases hList : pending g q file with
    | nil => exact Or.inl ⟨rfl, rfl⟩
    | cons x rest => exact Or.inr ⟨by simp, rfl⟩

/-! ## The part of the stack above a file -/

/-- The files above the topmost place of a file on the stack. -/
def above (stack : List String) (file : String) : List String :=
  stack.takeWhile (· ≠ file)

@[simp]
theorem above_cons_self (file : String) (stack : List String) :
    above (file :: stack) file = [] := by
  simp [above]

theorem above_cons_of_ne {top file : String} (h : file ≠ top) (stack : List String) :
    above (top :: stack) file = top :: above stack file := by
  simp [above, Ne.symm h]

theorem above_append {file : String} {front : List String} (h : file ∉ front)
    (stack : List String) : above (front ++ stack) file = front ++ above stack file := by
  refine takeWhile_append_of_pos ?_
  intro x hx
  simp only [ne_eq, decide_not, Bool.not_eq_true', decide_eq_false_iff_not]
  rintro rfl
  exact h hx

/-! ## The invariant -/

/-- What holds whenever a file is taken from the stack. -/
structure Orderly (g : Graph) (p : Progress) (stack : List String) : Prop where
  placed_nodup : p.placed.Nodup
  seen_of_placed : ∀ x ∈ p.placed, x ∈ p.seen
  seen_known : ∀ x ∈ p.seen, x ∈ g.files.keys
  stack_known : ∀ x ∈ stack, x ∈ g.files.keys
  /-- A seen file waits on the stack until it is placed. -/
  waiting : ∀ x ∈ p.seen, x ∉ p.placed → x ∈ stack
  /-- Whatever lies above a waiting file is reached from it. -/
  reached : ∀ x ∈ p.seen, x ∉ p.placed → ∀ y ∈ above stack x, g.LeadsTo x y
  /-- What a waiting file waits for lies above it. -/
  awaited : ∀ x ∈ p.seen, x ∉ p.placed → ∀ y ∈ g.dependencies x,
    y ∈ p.placed ∨ y ∈ above stack x ∨ p.Broken x y
  /-- A file is placed behind its dependencies, save those that are reported. -/
  settled : ∀ x ∈ p.placed, ∀ y ∈ g.dependencies x, Precedes p.placed y x ∨ p.Broken x y
  /-- An ignored edge joins two seen files and lies on a cycle. -/
  broken_edge : ∀ x y, p.Broken x y →
    y ∈ g.dependencies x ∧ x ∈ p.seen ∧ y ∈ p.seen ∧ g.LeadsTo y x
  /-- The end of an ignored edge is placed behind its start. -/
  broken_placed : ∀ x y, p.Broken x y → y ∈ p.placed → Precedes p.placed x y
  /-- The start of an ignored edge waits above its end. -/
  broken_waiting : ∀ x y, p.Broken x y → x ∉ p.placed → x ∈ above stack y
  /-- All reports are about requires or about ignored edges. -/
  reports : ∀ d ∈ p.diagnostics,
    (∃ x, d ∈ g.requireReports x) ∨ ∃ x y, d = .cycleBroken x y

namespace Orderly

variable {g : Graph} {p q : Progress} {file : String} {stack : List String}

/-- Dropping a placed file from the stack. -/
theorem drop (h : Orderly g p (file :: stack)) (hPlaced : file ∈ p.placed) :
    Orderly g p stack := by
  have hNe : ∀ x, x ∉ p.placed → x ≠ file := by
    rintro x hx rfl
    exact hx hPlaced
  refine { h with stack_known := ?_, waiting := ?_, reached := ?_, awaited := ?_,
                  broken_waiting := ?_ }
  · exact fun x hx => h.stack_known x (mem_cons_of_mem file hx)
  · intro x hSeen hx
    exact (mem_cons.1 (h.waiting x hSeen hx)).resolve_left (hNe x hx)
  · intro x hSeen hx y hy
    refine h.reached x hSeen hx y ?_
    rw [above_cons_of_ne (hNe x hx)]
    exact mem_cons_of_mem file hy
  · intro x hSeen hx y hy
    have hOld := h.awaited x hSeen hx y hy
    rw [above_cons_of_ne (hNe x hx), mem_cons] at hOld
    rcases hOld with hOld | (rfl | hOld) | hOld
    · exact Or.inl hOld
    · exact Or.inl hPlaced
    · exact Or.inr (Or.inl hOld)
    · exact Or.inr (Or.inr hOld)
  · intro x y hBroken hx
    have hy : y ∉ p.placed := fun hy => hx (h.broken_placed x y hBroken hy).mem_left
    have hOld := h.broken_waiting x y hBroken hx
    rw [above_cons_of_ne (hNe y hy)] at hOld
    exact (mem_cons.1 hOld).resolve_left (hNe x hx)

/-- Placing a waiting file from the top of the stack.  Nothing lies above it, so all
its dependencies are placed or reported, and no start of a reported edge to it is
still waiting. -/
theorem place (h : Orderly g q (file :: stack)) (hSeen : file ∈ q.seen)
    (hPlaced : file ∉ q.placed) : Orderly g (q.place file) stack := by
  have hMem : ∀ x, x ∈ (q.place file).placed ↔ x ∈ q.placed ∨ x = file := by
    intro x
    rw [Progress.place, mem_append, mem_singleton]
  have hOld : ∀ x, x ∉ (q.place file).placed → x ∉ q.placed ∧ x ≠ file := by
    intro x hx
    rwa [hMem, not_or] at hx
  refine { h with placed_nodup := ?_, seen_of_placed := ?_, stack_known := ?_, waiting := ?_,
                  reached := ?_, awaited := ?_, settled := ?_, broken_placed := ?_,
                  broken_waiting := ?_ }
  · rw [Progress.place, nodup_append]
    refine ⟨h.placed_nodup, nodup_singleton file, ?_⟩
    rintro x hx y hy rfl
    rw [mem_singleton] at hy
    exact hPlaced (hy ▸ hx)
  · intro x hx
    rcases (hMem x).1 hx with hx | rfl
    · exact h.seen_of_placed x hx
    · exact hSeen
  · exact fun x hx => h.stack_known x (mem_cons_of_mem file hx)
  · intro x hxSeen hx
    exact (mem_cons.1 (h.waiting x hxSeen (hOld x hx).1)).resolve_left (hOld x hx).2
  · intro x hxSeen hx y hy
    refine h.reached x hxSeen (hOld x hx).1 y ?_
    rw [above_cons_of_ne (hOld x hx).2]
    exact mem_cons_of_mem file hy
  · intro x hxSeen hx y hy
    rw [hMem]
    have hWas := h.awaited x hxSeen (hOld x hx).1 y hy
    rw [above_cons_of_ne (hOld x hx).2, mem_cons] at hWas
    rcases hWas with hWas | (hWas | hWas) | hWas
    · exact Or.inl (Or.inl hWas)
    · exact Or.inl (Or.inr hWas)
    · exact Or.inr (Or.inl hWas)
    · exact Or.inr (Or.inr hWas)
  · intro x hx y hy
    rcases (hMem x).1 hx with hx | rfl
    · rcases h.settled x hx y hy with hBefore | hBroken
      · exact Or.inl (hBefore.append [file])
      · exact Or.inr hBroken
    · have hWas := h.awaited x hSeen hPlaced y hy
      rw [above_cons_self] at hWas
      rcases hWas with hWas | hWas | hWas
      · exact Or.inl (Precedes.snoc hWas x)
      · simp at hWas
      · exact Or.inr hWas
  · intro x y hBroken hy
    rcases (hMem y).1 hy with hy | rfl
    · exact (h.broken_placed x y hBroken hy).append [file]
    · by_cases hx : x ∈ q.placed
      · exact Precedes.snoc hx y
      · have hAbove := h.broken_waiting x y hBroken hx
        simp at hAbove
  · intro x y hBroken hx
    have hAbove := h.broken_waiting x y hBroken (hOld x hx).1
    by_cases hy : y = file
    · rw [hy] at hAbove
      simp at hAbove
    · rw [above_cons_of_ne hy] at hAbove
      exact (mem_cons.1 hAbove).resolve_left (hOld x hx).2

/-- Visiting the file on top of the stack and putting what it waits for above it.
For the other waiting files the top file is among those above them, so whatever it
leads to is reached from them too. -/
theorem visit (hg : g.Indexed) (h : Orderly g p (file :: stack)) (hPlaced : file ∉ p.placed)
    (hVisit : Visited g p file q) :
    Orderly g q ((pending g q file).reverse ++ file :: stack) := by
  have hFileSeen : file ∈ q.seen := (hVisit.seen file).2 (Or.inl rfl)
  have hFileKnown : file ∈ g.files.keys := h.stack_known file mem_cons_self
  have hSeenOld : ∀ x ∈ q.seen, x ≠ file → x ∈ p.seen := fun x hx hNe =>
    ((hVisit.seen x).1 hx).resolve_left hNe
  have hEdge : ∀ y ∈ pending g q file, g.LeadsTo file y := fun y hy =>
    Relation.TransGen.single (hg.mem_dependencies_iff.1 (mem_pending.1 hy).1)
  have hNotPending : ∀ x ∈ q.seen, x ∉ (pending g q file).reverse := by
    intro x hx hMem
    exact (mem_pending.1 (mem_reverse.1 hMem)).2.2 hx
  have hAboveFile : above ((pending g q file).reverse ++ file :: stack) file =
      (pending g q file).reverse := by
    rw [above_append (hNotPending file hFileSeen), above_cons_self, append_nil]
  have hAbove : ∀ x ∈ q.seen,
      above ((pending g q file).reverse ++ file :: stack) x =
        (pending g q file).reverse ++ above (file :: stack) x := fun x hx =>
    above_append (hNotPending x hx) (file :: stack)
  have hToFile : ∀ x ∈ p.seen, x ∉ p.placed → x ≠ file → g.LeadsTo x file := by
    intro x hx hxPlaced hNe
    refine h.reached x hx hxPlaced file ?_
    rw [above_cons_of_ne hNe]
    exact mem_cons_self
  refine
    { placed_nodup := by rw [hVisit.placed]; exact h.placed_nodup
      seen_of_placed := ?_
      seen_known := ?_
      stack_known := ?_
      waiting := ?_
      reached := ?_
      awaited := ?_
      settled := ?_
      broken_edge := ?_
      broken_placed := ?_
      broken_waiting := ?_
      reports := ?_ }
  · intro x hx
    rw [hVisit.placed] at hx
    exact (hVisit.seen x).2 (Or.inr (h.seen_of_placed x hx))
  · intro x hx
    rcases (hVisit.seen x).1 hx with rfl | hx
    · exact hFileKnown
    · exact h.seen_known x hx
  · intro x hx
    rcases mem_append.1 hx with hx | hx
    · have hDep := (mem_pending.1 (mem_reverse.1 hx)).1
      exact hg.mem_keys_of_dependsOn (hg.mem_dependencies_iff.1 hDep)
    · exact h.stack_known x hx
  · intro x hx hxPlaced
    rw [hVisit.placed] at hxPlaced
    refine mem_append_right _ ?_
    by_cases hNe : x = file
    · rw [hNe]
      exact mem_cons_self
    · exact h.waiting x (hSeenOld x hx hNe) hxPlaced
  · intro x hx hxPlaced y hy
    rw [hVisit.placed] at hxPlaced
    by_cases hNe : x = file
    · subst hNe
      rw [hAboveFile, mem_reverse] at hy
      exact hEdge y hy
    · rw [hAbove x hx, mem_append, mem_reverse] at hy
      rcases hy with hy | hy
      · exact (hToFile x (hSeenOld x hx hNe) hxPlaced hNe).trans (hEdge y hy)
      · exact h.reached x (hSeenOld x hx hNe) hxPlaced y hy
  · intro x hx hxPlaced y hy
    by_cases hNe : x = file
    · subst hNe
      rw [hAboveFile, mem_reverse, mem_pending, hVisit.broken]
      rw [hVisit.placed]
      by_cases hyPlaced : y ∈ p.placed
      · exact Or.inl hyPlaced
      · by_cases hySeen : y ∈ q.seen
        · exact Or.inr (Or.inr (Or.inr ⟨rfl, hy, hyPlaced, hySeen⟩))
        · exact Or.inr (Or.inl ⟨hy, hyPlaced, hySeen⟩)
    · rw [hVisit.placed] at hxPlaced ⊢
      rw [hAbove x hx, mem_append, hVisit.broken]
      rcases h.awaited x (hSeenOld x hx hNe) hxPlaced y hy with hWas | hWas | hWas
      · exact Or.inl hWas
      · exact Or.inr (Or.inl (Or.inr hWas))
      · exact Or.inr (Or.inr (Or.inl hWas))
  · intro x hx y hy
    rw [hVisit.placed] at hx ⊢
    rw [hVisit.broken]
    rcases h.settled x hx y hy with hBefore | hBroken
    · exact Or.inl hBefore
    · exact Or.inr (Or.inl hBroken)
  · intro x y hBroken
    rcases (hVisit.broken x y).1 hBroken with hOld | ⟨rfl, hDep, hyPlaced, hySeen⟩
    · obtain ⟨hDep, hxSeen, hySeen, hBack⟩ := h.broken_edge x y hOld
      exact ⟨hDep, (hVisit.seen x).2 (Or.inr hxSeen), (hVisit.seen y).2 (Or.inr hySeen), hBack⟩
    · have hNe : y ≠ x := (hg.mem_dependencies_iff.1 hDep).1
      exact ⟨hDep, hFileSeen, hySeen, hToFile y (hSeenOld y hySeen hNe) hyPlaced hNe⟩
  · intro x y hBroken hy
    rw [hVisit.placed] at hy ⊢
    rcases (hVisit.broken x y).1 hBroken with hOld | ⟨-, -, hyPlaced, -⟩
    · exact h.broken_placed x y hOld hy
    · exact absurd hy hyPlaced
  · intro x y hBroken hx
    rw [hVisit.placed] at hx
    rcases (hVisit.broken x y).1 hBroken with hOld | ⟨rfl, hDep, hyPlaced, hySeen⟩
    · have hySeen := (hVisit.seen y).2 (Or.inr (h.broken_edge x y hOld).2.2.1)
      rw [hAbove y hySeen]
      exact mem_append_right _ (h.broken_waiting x y hOld hx)
    · have hNe : y ≠ x := (hg.mem_dependencies_iff.1 hDep).1
      rw [hAbove y hySeen, above_cons_of_ne hNe]
      exact mem_append_right _ mem_cons_self
  · intro d hd
    rcases hVisit.reports d hd with hOld | hRequire | ⟨other, rfl⟩
    · exact h.reports d hOld
    · exact Or.inl ⟨file, hRequire⟩
    · exact Or.inr ⟨file, other, rfl⟩

/-- A step keeps the invariant. -/
theorem step (hg : g.Indexed) (h : Orderly g p (file :: stack)) :
    Orderly g (Schedule.step g p file stack).1 (Schedule.step g p file stack).2 := by
  obtain ⟨hPlaced, hStep⟩ | ⟨hPlaced, q, hVisit, hCases⟩ := step_cases g p file stack
  · rw [hStep]
    exact h.drop hPlaced
  · have hNext := h.visit hg hPlaced hVisit
    obtain ⟨hNone, hStep⟩ | ⟨-, hStep⟩ := hCases
    · rw [hStep]
      rw [hNone, reverse_nil, nil_append] at hNext
      refine hNext.place ((hVisit.seen file).2 (Or.inl rfl)) ?_
      rwa [hVisit.placed]
    · rw [hStep]
      exact hNext

end Orderly

end LuaShape.Schedule
