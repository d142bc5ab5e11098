import LuaShape.Proofs.LoadOrder.Permutation
import Mathlib.Data.String.Basic

/-!
# The worklist is depth-first search

The order of files can be said by recursion.  To visit a file is to mark it as seen, to
visit those of its dependencies that are not seen yet, the greatest name first, and then
to append it to the order.  The groups are taken one after the other, and of each group
the files that are not placed yet, again the greatest name first.

The worklist differs from this in two ways.  It looks at the dependencies of a file once,
before any of them is visited, so that some of those it puts on the stack are placed
already when their turn comes; and it takes every file that waits from the stack a second
time.  `VisitsUnseen.worked` absorbs both: working off some files in front of a stack
ends where the recursion over these files ends, with the stack untouched.

Main result: `postorder_iff_order`.
-/

namespace LuaShape

open List

/-- A file of a graph belongs to a bucket, or to none. -/
def Graph.InGroup (g : Graph) (bucket : Option String) (name : String) : Prop :=
  ∃ file, g.files.find? name = some file ∧ file.bucket = bucket

namespace Schedule

/-! ## The recursive procedure -/

/-- All names with a property, the greatest first. -/
structure Descending (P : String → Prop) (names : List String) : Prop where
  sorted : names.Pairwise fun first second => second < first
  mem_iff : ∀ name, name ∈ names ↔ P name

/-- The state of the recursive search. -/
structure Search where
  /-- The files that have been visited, or are being visited. -/
  seen : List String := []
  /-- The files that are done, first one first. -/
  order : List String := []

namespace Search

/-- Mark a file as seen. -/
def mark (w : Search) (file : String) : Search := { w with seen := file :: w.seen }

/-- Append a file to the order. -/
def append (w : Search) (file : String) : Search := { w with order := w.order ++ [file] }

end Search

/-- Visiting those files of a list that are not seen when their turn comes.  A visit goes
through the dependencies of the file in the same way before it appends the file. -/
inductive VisitsUnseen (g : Graph) : Search → List String → Search → Prop where
  | done (w : Search) : VisitsUnseen g w [] w
  | skip {w w' : Search} {file : String} {files : List String} (hSeen : file ∈ w.seen)
      (rest : VisitsUnseen g w files w') : VisitsUnseen g w (file :: files) w'
  | visit {w inner w' : Search} {file : String} {files dependencies : List String}
      (hNew : file ∉ w.seen) (hDependencies : Descending (g.DependsOn file) dependencies)
      (below : VisitsUnseen g (w.mark file) dependencies inner)
      (rest : VisitsUnseen g (inner.append file) files w') :
      VisitsUnseen g w (file :: files) w'

/-- Visiting those files of a list that are not placed when their turn comes. -/
inductive VisitsUnplaced (g : Graph) : Search → List String → Search → Prop where
  | done (w : Search) : VisitsUnplaced g w [] w
  | skip {w w' : Search} {file : String} {files : List String} (hPlaced : file ∈ w.order)
      (rest : VisitsUnplaced g w files w') : VisitsUnplaced g w (file :: files) w'
  | visit {w inner w' : Search} {file : String} {files dependencies : List String}
      (hNew : file ∉ w.order) (hDependencies : Descending (g.DependsOn file) dependencies)
      (below : VisitsUnseen g (w.mark file) dependencies inner)
      (rest : VisitsUnplaced g (inner.append file) files w') :
      VisitsUnplaced g w (file :: files) w'

/-- Visiting the groups of a list of buckets, one after the other. -/
inductive VisitsGroups (g : Graph) : Search → List (Option String) → Search → Prop where
  | done (w : Search) : VisitsGroups g w [] w
  | group {w inner w' : Search} {bucket : Option String} {buckets : List (Option String)}
      {files : List String} (hFiles : Descending (g.InGroup bucket) files)
      (first : VisitsUnplaced g w files inner) (rest : VisitsGroups g inner buckets w') :
      VisitsGroups g w (bucket :: buckets) w'

/-- The recursive procedure ends with an order: it takes the buckets as configured, and
the files outside every bucket last. -/
def PostOrder (g : Graph) (order : List String) : Prop :=
  ∃ w, VisitsGroups g {} (g.buckets.map some ++ [none]) w ∧ w.order = order

/-! ## Descending lists -/

/-- The names with a property are listed in one way only. -/
theorem Descending.eq_reverse {P : String → Prop} {names : List String}
    (h : Descending P names) {s : SortedSet String} (hs : ∀ name, name ∈ s ↔ P name) :
    names = s.toList.reverse := by
  have hAscending : names.reverse.Pairwise fun a b => compare a b = .lt := by
    rw [pairwise_reverse]
    exact h.sorted.imp compare_lt_iff_lt.2
  rw [← reverse_eq_iff]
  refine SortedSet.ascending_eq_of_mem_iff hAscending s.ascending fun name => ?_
  rw [mem_reverse, h.mem_iff]
  exact (hs name).symm

theorem descending_reverse {P : String → Prop} {s : SortedSet String}
    (hs : ∀ name, name ∈ s ↔ P name) : Descending P s.toList.reverse where
  sorted := pairwise_reverse.2 (s.ascending.imp compare_lt_iff_lt.1)
  mem_iff := fun name => mem_reverse.trans (hs name)

theorem descending_dependencies {g : Graph} (hg : g.Indexed) (file : String) :
    Descending (g.DependsOn file) (g.dependencies file).toList.reverse :=
  descending_reverse fun _ => hg.mem_dependencies_iff

/-- All dependencies are files of the graph. -/
theorem Descending.mem_keys {g : Graph} (hg : g.Indexed) {file : String}
    {dependencies : List String} (h : Descending (g.DependsOn file) dependencies) :
    ∀ x ∈ dependencies, x ∈ g.files.keys :=
  fun x hx => hg.mem_keys_of_dependsOn ((h.mem_iff x).1 hx)

theorem mem_ofList_group_iff {g : Graph} (hg : g.Indexed) (bucket : Option String)
    (name : String) : name ∈ SortedSet.ofList (group g bucket) ↔ g.InGroup bucket name := by
  rw [SortedSet.mem_ofList, mem_group_iff hg, OrderedMap.mem_keys_iff]
  constructor
  · rintro ⟨⟨file, hFound⟩, hBucket⟩
    refine ⟨file, hFound, ?_⟩
    rw [hg.recorded name file hFound]
    exact hBucket
  · rintro ⟨file, hFound, hBucket⟩
    refine ⟨⟨file, hFound⟩, ?_⟩
    rw [hg.recorded name file hFound] at hBucket
    exact hBucket

/-! ## What the recursion does to its state -/

/-- What visiting files does: they are seen, files that are seen for the first time are
placed, and no others. -/
structure Grows (w : Search) (files : List String) (w' : Search) : Prop where
  seen : ∀ x ∈ w.seen, x ∈ w'.seen
  order : ∀ x ∈ w.order, x ∈ w'.order
  met : ∀ x ∈ files, x ∈ w'.seen
  settled : ∀ x ∈ w'.seen, x ∈ w.seen ∨ x ∈ w'.order
  fresh : ∀ x ∈ w'.order, x ∈ w.order ∨ x ∉ w.seen ∧ x ∈ w'.seen

theorem Grows.append {w inner : Search} {file : String} {files : List String}
    (hNew : file ∉ w.seen) (h : Grows (w.mark file) files inner) :
    Grows w [file] (inner.append file) where
  seen := fun x hx => h.seen x (mem_cons_of_mem file hx)
  order := fun x hx => mem_append_left [file] (h.order x hx)
  met := by
    intro x hx
    rw [mem_singleton] at hx
    exact h.seen x (hx ▸ mem_cons_self)
  settled := by
    intro x hx
    rcases h.settled x hx with hx | hx
    · rcases mem_cons.1 hx with rfl | hx
      · exact Or.inr (mem_append_right _ mem_cons_self)
      · exact Or.inl hx
    · exact Or.inr (mem_append_left _ hx)
  fresh := by
    intro x hx
    rcases mem_append.1 hx with hx | hx
    · refine (h.fresh x hx).imp_right fun ⟨hOld, hSeen⟩ => ⟨?_, hSeen⟩
      exact fun hOlder => hOld (mem_cons_of_mem file hOlder)
    · obtain rfl := mem_singleton.1 hx
      exact Or.inr ⟨hNew, h.seen x mem_cons_self⟩

theorem Grows.trans {w inner w' : Search} {file : String} {files : List String}
    (h : Grows w [file] inner) (h' : Grows inner files w') : Grows w (file :: files) w' where
  seen := fun x hx => h'.seen x (h.seen x hx)
  order := fun x hx => h'.order x (h.order x hx)
  met := by
    intro x hx
    rcases mem_cons.1 hx with rfl | hx
    · exact h'.seen x (h.met x mem_cons_self)
    · exact h'.met x hx
  settled := by
    intro x hx
    rcases h'.settled x hx with hx | hx
    · exact (h.settled x hx).imp_right (h'.order x)
    · exact Or.inr hx
  fresh := by
    intro x hx
    rcases h'.fresh x hx with hx | ⟨hNew, hSeen⟩
    · exact (h.fresh x hx).imp_right fun ⟨hNew, hSeen⟩ => ⟨hNew, h'.seen x hSeen⟩
    · exact Or.inr ⟨fun hOld => hNew (h.seen x hOld), hSeen⟩

/-- The placed files stay among the seen ones. -/
theorem Grows.order_seen {w w' : Search} {files : List String} (h : Grows w files w')
    (hOrder : ∀ x ∈ w.order, x ∈ w.seen) : ∀ x ∈ w'.order, x ∈ w'.seen := by
  intro x hx
  rcases h.fresh x hx with hx | ⟨-, hSeen⟩
  · exact h.seen x (hOrder x hx)
  · exact hSeen

namespace VisitsUnseen

variable {g : Graph} {w w' : Search} {files : List String}

theorem grows (h : VisitsUnseen g w files w') : Grows w files w' := by
  induction h with
  | done w =>
    refine ⟨fun _ hx => hx, fun _ hx => hx, ?_, fun _ hx => Or.inl hx, fun _ hx => Or.inl hx⟩
    intro x hx
    cases hx
  | skip hSeen _ ih =>
    refine { ih with met := ?_ }
    intro x hx
    rcases mem_cons.1 hx with rfl | hx
    · exact ih.seen x hSeen
    · exact ih.met x hx
  | visit hNew _ _ _ ihBelow ihRest => exact (ihBelow.append hNew).trans ihRest

/-- Where all files are seen nothing happens. -/
theorem eq_of_seen (h : VisitsUnseen g w files w') (hSeen : ∀ x ∈ files, x ∈ w.seen) :
    w' = w := by
  induction h with
  | done w => rfl
  | skip _ _ ih => exact ih fun x hx => hSeen x (mem_cons_of_mem _ hx)
  | visit hNew => exact absurd (hSeen _ mem_cons_self) hNew

end VisitsUnseen

/-! ## The worklist keeps up with the recursion -/

/-- The recursion and the worklist have seen and placed the same files. -/
structure Mirrors (w : Search) (p : Progress) : Prop where
  order : w.order = p.placed
  seen : ∀ x, x ∈ w.seen ↔ x ∈ p.seen

/-- Working off some files in front of any stack leads to a state and the stack. -/
def LeadsOn (g : Graph) (p : Progress) (front : List String) (p' : Progress) : Prop :=
  ∀ stack q, Worked g p' stack q → Worked g p (front ++ stack) q

/-- A step does not look at the files below the one it takes. -/
theorem step_append (g : Graph) (p : Progress) (file : String) (stack : List String) :
    step g p file stack = ((step g p file []).1, (step g p file []).2 ++ stack) := by
  unfold step
  split
  · rfl
  · dsimp only
    split
    · rfl
    · rw [append_assoc]
      rfl

theorem LeadsOn.of_step {g : Graph} {p p' : Progress} {file : String} {front : List String}
    (h : step g p file [] = (p', front)) {q : Progress} (hNext : LeadsOn g p' front q) :
    LeadsOn g p [file] q := by
  intro stack final hFinal
  refine Worked.take ?_
  rw [step_append, h]
  exact hNext stack final hFinal

theorem LeadsOn.refl (g : Graph) (p : Progress) : LeadsOn g p [] p := fun _ _ h => h

theorem LeadsOn.append {g : Graph} {p p' p'' : Progress} {front front' : List String}
    (h : LeadsOn g p front p') (h' : LeadsOn g p' front' p'') :
    LeadsOn g p (front ++ front') p'' := by
  intro stack q hFinal
  rw [append_assoc]
  exact h _ q (h' stack q hFinal)

theorem leadsOn_of_placed {g : Graph} {p : Progress} {file : String} (h : file ∈ p.placed) :
    LeadsOn g p [file] p :=
  .of_step (by rw [step, if_pos h]) (.refl g p)

namespace Mirrors

variable {g : Graph} {w : Search} {p q : Progress} {file : String}

theorem visited (h : Mirrors w p) (hVisit : Visited g p file q) : Mirrors (w.mark file) q where
  order := h.order.trans hVisit.placed.symm
  seen := by
    intro x
    rw [hVisit.seen, ← h.seen]
    exact mem_cons

theorem revisited (h : Mirrors w p) (hSeen : file ∈ w.seen) (hVisit : Visited g p file q) :
    Mirrors w q where
  order := h.order.trans hVisit.placed.symm
  seen := by
    intro x
    rw [hVisit.seen, ← h.seen]
    constructor
    · exact Or.inr
    · rintro (rfl | hx)
      · exact hSeen
      · exact hx

theorem place (h : Mirrors w p) (file : String) : Mirrors (w.append file) (p.place file) where
  order := congrArg (· ++ [file]) h.order
  seen := h.seen

/-- A visited file waits for nothing once its dependencies are seen. -/
theorem pending_eq_nil (hg : g.Indexed) (h : Mirrors w p)
    (hDependencies : ∀ x, g.DependsOn file x → x ∈ w.seen) : pending g p file = [] := by
  rw [eq_nil_iff_forall_not_mem]
  intro x hx
  obtain ⟨hDependency, -, hUnseen⟩ := mem_pending.1 hx
  exact hUnseen ((h.seen x).1 (hDependencies x (hg.mem_dependencies_iff.1 hDependency)))

/-- A file that waits is placed when it is taken from the stack again, because all its
dependencies are seen by then. -/
theorem second_visit (hg : g.Indexed) (h : Mirrors w p) (hSeen : file ∈ w.seen)
    (hNew : file ∉ w.order) (hDependencies : ∀ x, g.DependsOn file x → x ∈ w.seen) :
    ∃ p', Mirrors (w.append file) p' ∧ LeadsOn g p [file] p' := by
  obtain ⟨hPlaced, -⟩ | ⟨-, q, hVisit, hStep⟩ := step_cases g p file []
  · exact absurd (h.order ▸ hPlaced) hNew
  · have hAgain := h.revisited hSeen hVisit
    obtain ⟨-, hStep⟩ | ⟨hSome, -⟩ := hStep
    · exact ⟨q.place file, hAgain.place file, .of_step hStep (.refl g _)⟩
    · exact absurd (hAgain.pending_eq_nil hg hDependencies) hSome

/-- Taking a file from the stack for the first time leads to the end of its visit, if
working off what it waits for leads to the end of the recursion over its dependencies. -/
theorem visit (hg : g.Indexed) (h : Mirrors w p) (hOrder : ∀ x ∈ w.order, x ∈ w.seen)
    (hNew : file ∉ w.seen) {dependencies : List String} {inner : Search}
    (hDependencies : Descending (g.DependsOn file) dependencies)
    (below : VisitsUnseen g (w.mark file) dependencies inner)
    (hBelow : ∀ q, Mirrors (w.mark file) q →
      ∃ p', Mirrors inner p' ∧ LeadsOn g q (pending g q file).reverse p') :
    ∃ p', Mirrors (inner.append file) p' ∧ LeadsOn g p [file] p' := by
  have hMet : ∀ x, g.DependsOn file x → x ∈ inner.seen := fun x hx =>
    below.grows.met x ((hDependencies.mem_iff x).2 hx)
  obtain ⟨hPlaced, -⟩ | ⟨-, q, hVisit, hStep⟩ := step_cases g p file []
  · exact absurd (hOrder file (h.order ▸ hPlaced)) hNew
  have hMark := h.visited hVisit
  obtain ⟨hNone, hStep⟩ | ⟨-, hStep⟩ := hStep
  · -- Nothing to wait for: all dependencies are seen, and the recursion skips them.
    have hSkipped : inner = w.mark file := by
      refine below.eq_of_seen fun x hx => ?_
      by_contra hUnseen
      have hWaits : x ∈ pending g q file := by
        refine mem_pending.2 ⟨hg.mem_dependencies_iff.2 ((hDependencies.mem_iff x).1 hx), ?_, ?_⟩
        · rw [hVisit.placed, ← h.order]
          exact fun hPlaced => hUnseen (mem_cons_of_mem file (hOrder x hPlaced))
        · rwa [← hMark.seen]
      rw [hNone] at hWaits
      cases hWaits
    rw [hSkipped]
    exact ⟨q.place file, hMark.place file, .of_step hStep (.refl g _)⟩
  · obtain ⟨p', hInner, hLeads⟩ := hBelow q hMark
    have hFileSeen : file ∈ inner.seen := below.grows.seen file mem_cons_self
    have hFileNew : file ∉ inner.order := by
      intro hPlaced
      rcases below.grows.fresh file hPlaced with hOld | ⟨hUnseen, -⟩
      · exact hNew (hOrder file hOld)
      · exact hUnseen mem_cons_self
    obtain ⟨p'', hEnd, hAgain⟩ := hInner.second_visit hg hFileSeen hFileNew hMet
    exact ⟨p'', hEnd, .of_step hStep (hLeads.append hAgain)⟩

end Mirrors

variable {g : Graph} {w w' : Search} {files : List String}

/-- **Simulation.**  The worklist is handed only some of the files that the recursion goes
through: those left out are seen already, and of the others those that are seen are
placed.  Working them off ends where the recursion ends. -/
theorem VisitsUnseen.worked (hg : g.Indexed) (h : VisitsUnseen g w files w') {p : Progress}
    (hp : Mirrors w p) (hOrder : ∀ x ∈ w.order, x ∈ w.seen) (keep : String → Bool)
    (hLeftOut : ∀ x ∈ files, keep x = false → x ∈ w.seen)
    (hKept : ∀ x ∈ files, keep x = true → x ∈ w.seen → x ∈ w.order) :
    ∃ p', Mirrors w' p' ∧ LeadsOn g p (files.filter keep) p' := by
  induction h generalizing p keep with
  | done w => exact ⟨p, hp, .refl g p⟩
  | @skip w w' file files hSeen rest ih =>
    obtain ⟨p', hEnd, hLeads⟩ := ih hp hOrder keep
      (fun x hx => hLeftOut x (mem_cons_of_mem file hx))
      (fun x hx => hKept x (mem_cons_of_mem file hx))
    refine ⟨p', hEnd, ?_⟩
    by_cases hKeep : keep file = true
    · have hPlaced : file ∈ p.placed := by
        rw [← hp.order]
        exact hKept file mem_cons_self hKeep hSeen
      rw [filter_cons_of_pos hKeep]
      exact (leadsOn_of_placed hPlaced).append hLeads
    · rw [filter_cons_of_neg hKeep]
      exact hLeads
  | @visit w inner w' file files dependencies hNew hDependencies below rest ihBelow ihRest =>
    have hKeep : keep file = true := by
      by_contra hOut
      exact hNew (hLeftOut file mem_cons_self (Bool.eq_false_iff.2 hOut))
    have hMarked : ∀ x ∈ (w.mark file).order, x ∈ (w.mark file).seen := fun x hx =>
      mem_cons_of_mem file (hOrder x hx)
    have hBelow : ∀ q, Mirrors (w.mark file) q →
        ∃ p', Mirrors inner p' ∧ LeadsOn g q (pending g q file).reverse p' := by
      intro q hq
      rw [pending, ← filter_reverse,
        ← hDependencies.eq_reverse fun x => hg.mem_dependencies_iff]
      refine ihBelow hq hMarked _ ?_ ?_
      · intro x _ hOut
        rw [hq.seen]
        by_contra hUnseen
        have hUnplaced : x ∉ q.placed := fun hPlaced =>
          hUnseen ((hq.seen x).1 (hMarked x (hq.order ▸ hPlaced)))
        rw [decide_eq_true ⟨hUnplaced, hUnseen⟩] at hOut
        cases hOut
      · intro x _ hIn hSeen
        exact absurd ((hq.seen x).1 hSeen) (of_decide_eq_true hIn).2
    obtain ⟨p', hVisited, hFirst⟩ := hp.visit hg hOrder hNew hDependencies below hBelow
    have hGrows : Grows w [file] (inner.append file) := below.grows.append hNew
    obtain ⟨p'', hEnd, hLeads⟩ := ihRest hVisited (hGrows.order_seen hOrder) keep
      (fun x hx hOut => hGrows.seen x (hLeftOut x (mem_cons_of_mem file hx) hOut))
      (fun x hx hIn hSeen => (hGrows.settled x hSeen).elim
        (fun hOld => hGrows.order x (hKept x (mem_cons_of_mem file hx) hIn hOld)) id)
    rw [filter_cons_of_pos hKeep]
    exact ⟨p'', hEnd, hFirst.append hLeads⟩

/-! ## Groups -/

/-- Between two files of a group nothing is in progress. -/
structure Search.Idle (w : Search) : Prop where
  seen_of_order : ∀ x ∈ w.order, x ∈ w.seen
  order_of_seen : ∀ x ∈ w.seen, x ∈ w.order

theorem Grows.idle (h : Grows w files w') (hw : w.Idle) : w'.Idle where
  seen_of_order := h.order_seen hw.seen_of_order
  order_of_seen := by
    intro x hx
    rcases h.settled x hx with hx | hx
    · exact h.order x (hw.order_of_seen x hx)
    · exact hx

/-- Where nothing is in progress, the files that are not placed are those not seen. -/
theorem VisitsUnplaced.visitsUnseen (h : VisitsUnplaced g w files w') (hw : w.Idle) :
    VisitsUnseen g w files w' := by
  induction h with
  | done w => exact .done w
  | skip hPlaced _ ih => exact .skip (hw.seen_of_order _ hPlaced) (ih hw)
  | visit hNew hDependencies below _ ih =>
    have hUnseen := mt (hw.order_of_seen _) hNew
    exact .visit hUnseen hDependencies below (ih ((below.grows.append hUnseen).idle hw))

theorem VisitsGroups.workedAll (hg : g.Indexed) {buckets : List (Option String)}
    (h : VisitsGroups g w buckets w') (hw : w.Idle) {p : Progress} (hp : Mirrors w p) :
    ∃ p', Mirrors w' p' ∧ WorkedAll g p (buckets.map (Schedule.group g)) p' := by
  induction h generalizing p with
  | done w => exact ⟨p, hp, .done p⟩
  | group hFiles first _ ih =>
    have hVisits := first.visitsUnseen hw
    obtain ⟨q, hq, hLeads⟩ := hVisits.worked hg hp hw.seen_of_order (fun _ => true)
      (fun _ _ hOut => by cases hOut) (fun x _ _ => hw.order_of_seen x)
    obtain ⟨p', hEnd, hRest⟩ := ih (hVisits.grows.idle hw) hq
    have hFirst := hLeads [] q (.done q)
    rw [filter_true, append_nil, hFiles.eq_reverse (mem_ofList_group_iff hg _)]
      at hFirst
    exact ⟨p', hEnd, .group hFirst hRest⟩

theorem Worked.unique {p q q' : Progress} {stack : List String} (h : Worked g p stack q)
    (h' : Worked g p stack q') : q = q' := by
  induction h with
  | done p =>
    cases h'
    rfl
  | take _ ih =>
    cases h' with
    | take rest => exact ih rest

theorem WorkedAll.unique {g : Graph} {p q q' : Progress} {groups : List (List String)}
    (h : WorkedAll g p groups q) (h' : WorkedAll g p groups q') : q = q' := by
  induction h with
  | done p =>
    cases h'
    rfl
  | group first _ ih =>
    cases h' with
    | group first' rest' =>
      obtain rfl := first.unique first'
      exact ih rest'

/-! ## The recursion ends -/

/-- The files that have not been seen by the recursion. -/
def Search.unseen (g : Graph) (w : Search) : List String :=
  g.files.keys.filter (· ∉ w.seen)

theorem length_unseen_grows (h : ∀ x ∈ w.seen, x ∈ w'.seen) :
    (w'.unseen g).length ≤ (w.unseen g).length := by
  refine (monotone_filter_right g.files.keys ?_).length_le
  intro x hx
  simp only [decide_eq_true_eq] at hx ⊢
  exact fun hSeen => hx (h x hSeen)

theorem length_unseen_mark {w : Search} {file : String} (hKnown : file ∈ g.files.keys)
    (hNew : file ∉ w.seen) : ((w.mark file).unseen g).length < (w.unseen g).length := by
  have hFilter : (w.mark file).unseen g = (w.unseen g).filter (· ≠ file) := by
    rw [Search.unseen, Search.unseen, filter_filter]
    refine filter_congr ?_
    intro x _
    simp [Search.mark]
  rw [hFilter]
  refine length_filter_lt_length_iff_exists.2 ⟨file, ?_, by simp⟩
  exact mem_filter.2 ⟨hKnown, by simpa using hNew⟩

/-- The recursion ends: every visit leaves fewer files unseen. -/
theorem exists_visitsUnseen (hg : g.Indexed) (files : List String)
    (hFiles : ∀ x ∈ files, x ∈ g.files.keys) (w : Search) : ∃ w', VisitsUnseen g w files w' := by
  induction hCount : (w.unseen g).length using Nat.strong_induction_on generalizing w files with
  | _ count ihCount =>
    induction files with
    | nil => exact ⟨w, .done w⟩
    | cons file files ih =>
      have hRest : ∀ x ∈ files, x ∈ g.files.keys := fun x hx =>
        hFiles x (mem_cons_of_mem file hx)
      by_cases hSeen : file ∈ w.seen
      · obtain ⟨w', hVisits⟩ := ih hRest
        exact ⟨w', .skip hSeen hVisits⟩
      · have hFewer := length_unseen_mark (hFiles file mem_cons_self) hSeen
        have hDependencies := descending_dependencies hg file
        obtain ⟨inner, below⟩ :=
          ihCount _ (hCount ▸ hFewer) _ (hDependencies.mem_keys hg) _ rfl
        have hInner : (inner.unseen g).length ≤ ((w.mark file).unseen g).length :=
          length_unseen_grows below.grows.seen
        have hAppend : (inner.append file).unseen g = inner.unseen g := rfl
        obtain ⟨w', hVisits⟩ := ihCount _ (by omega) files hRest _ (congrArg _ hAppend)
        exact ⟨w', .visit hSeen hDependencies below hVisits⟩

theorem exists_visitsUnplaced (hg : g.Indexed) (files : List String)
    (hFiles : ∀ x ∈ files, x ∈ g.files.keys) (w : Search) : ∃ w', VisitsUnplaced g w files w' := by
  induction files generalizing w with
  | nil => exact ⟨w, .done w⟩
  | cons file files ih =>
    have hRest := ih fun x hx => hFiles x (mem_cons_of_mem file hx)
    by_cases hPlaced : file ∈ w.order
    · obtain ⟨w', hVisits⟩ := hRest w
      exact ⟨w', .skip hPlaced hVisits⟩
    · have hDependencies := descending_dependencies hg file
      obtain ⟨inner, below⟩ :=
        exists_visitsUnseen hg _ (hDependencies.mem_keys hg) (w.mark file)
      obtain ⟨w', hVisits⟩ := hRest (inner.append file)
      exact ⟨w', .visit hPlaced hDependencies below hVisits⟩

theorem exists_visitsGroups (hg : g.Indexed) (buckets : List (Option String)) (w : Search) :
    ∃ w', VisitsGroups g w buckets w' := by
  induction buckets generalizing w with
  | nil => exact ⟨w, .done w⟩
  | cons bucket buckets ih =>
    have hFiles := descending_reverse (mem_ofList_group_iff hg bucket)
    obtain ⟨inner, hFirst⟩ := exists_visitsUnplaced hg _ (fun x hx => by
      obtain ⟨file, hFound, -⟩ := (hFiles.mem_iff x).1 hx
      exact OrderedMap.mem_keys_iff.2 ⟨file, hFound⟩) w
    obtain ⟨w', hVisits⟩ := ih inner
    exact ⟨w', .group hFiles hFirst hVisits⟩

/-! ## The order of a graph -/

theorem order_eq_of_visitsGroups (hg : g.Indexed) {w : Search}
    (h : VisitsGroups g {} (g.buckets.map some ++ [none]) w) : w.order = (ofGraph g).order := by
  have hIdle : ({} : Search).Idle := ⟨fun _ hx => hx, fun _ hx => hx⟩
  obtain ⟨p, hp, hAll⟩ := h.workedAll hg hIdle (p := {}) ⟨rfl, fun _ => Iff.rfl⟩
  rw [← groups_eq] at hAll
  obtain rfl := hAll.unique (workedAll_finished hg)
  exact hp.order

/-- **The worklist is depth-first search in post-order.**  Whatever files are inserted,
the recursive procedure ends, and the one order that it ends with is the order that the
worklist finds. -/
theorem postorder_iff_order (buckets : List String) (files : List (String × Effects))
    (order : List String) :
    let g := Graph.ofFiles buckets files
    PostOrder g order ↔ order = (ofGraph g).order := by
  intro g
  have hg : g.Indexed := Graph.indexed_ofFiles buckets files
  constructor
  · rintro ⟨w, hVisits, rfl⟩
    exact order_eq_of_visitsGroups hg hVisits
  · rintro rfl
    obtain ⟨w, hVisits⟩ := exists_visitsGroups hg (g.buckets.map some ++ [none]) {}
    exact ⟨w, hVisits, order_eq_of_visitsGroups hg hVisits⟩

end Schedule

end LuaShape
