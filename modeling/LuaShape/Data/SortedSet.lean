/-!
# Finite sets kept as strictly ascending lists

Type sets, the names a file reads, and the dependencies of a module are all
finite sets whose members are reported in ascending order.  A `SortedSet` is
the list of its members together with the proof that the list ascends
strictly, so two sets with the same members are the same value and no
operation has to sort at the end.

Main statements: membership after each operation (`mem_insert`, `mem_union`,
`mem_ofList`, `mem_filter`) and extensionality (`ext_mem`).
-/

namespace LuaShape

/-- A finite set of `α`, stored as the strictly ascending list of its members. -/
structure SortedSet (α : Type) [Ord α] where
  /-- The members, least first. -/
  toList : List α
  /-- Every member is below all members after it. -/
  ascending : toList.Pairwise (fun a b => compare a b = .lt)
deriving DecidableEq

namespace SortedSet

variable {α : Type} [Ord α]

/-- Insertion into an ascending list; an equal member already there is kept. -/
def insertInto (a : α) : List α → List α
  | [] => [a]
  | b :: rest =>
    match compare a b with
    | .lt => a :: b :: rest
    | .eq => b :: rest
    | .gt => b :: insertInto a rest

theorem eq_or_mem_of_mem_insertInto {a x : α} {members : List α}
    (h : x ∈ insertInto a members) : x = a ∨ x ∈ members := by
  induction members with
  | nil => simpa [insertInto] using h
  | cons b rest ih =>
    simp only [insertInto] at h
    split at h
    · simpa using h
    · exact Or.inr h
    · rcases List.mem_cons.1 h with rfl | h
      · simp
      · rcases ih h with h | h
        · exact Or.inl h
        · simp [h]

theorem mem_insertInto_of_mem {a x : α} {members : List α} (h : x ∈ members) :
    x ∈ insertInto a members := by
  induction members with
  | nil => simp at h
  | cons b rest ih =>
    simp only [insertInto]
    split
    · exact List.mem_cons_of_mem _ h
    · exact h
    · rcases List.mem_cons.1 h with rfl | h
      · simp
      · simp [ih h]

theorem mem_insertInto_self [Std.LawfulEqOrd α] (a : α) (members : List α) :
    a ∈ insertInto a members := by
  induction members with
  | nil => simp [insertInto]
  | cons b rest ih =>
    simp only [insertInto]
    split
    · simp
    · rename_i h
      simp [Std.LawfulEqCmp.eq_of_compare h]
    · simp [ih]

/-- Insertion keeps the list strictly ascending. -/
theorem insertInto_ascending [Std.TransOrd α] (a : α) {members : List α}
    (h : members.Pairwise (fun x y => compare x y = .lt)) :
    (insertInto a members).Pairwise (fun x y => compare x y = .lt) := by
  induction members with
  | nil => simp [insertInto]
  | cons b rest ih =>
    have hRest : ∀ x ∈ rest, compare b x = .lt :=
      fun _ hx => List.rel_of_pairwise_cons h hx
    simp only [insertInto]
    split
    · rename_i hab
      refine List.Pairwise.cons ?_ h
      intro x hx
      rcases List.mem_cons.1 hx with rfl | hx
      · exact hab
      · exact Std.TransCmp.lt_trans hab (hRest x hx)
    · exact h
    · rename_i hab
      refine List.Pairwise.cons ?_ (ih h.of_cons)
      intro x hx
      rcases eq_or_mem_of_mem_insertInto hx with rfl | hx
      · exact Std.OrientedCmp.lt_of_gt hab
      · exact hRest x hx

/-- The empty set. -/
def empty : SortedSet α := ⟨[], .nil⟩

instance : EmptyCollection (SortedSet α) := ⟨empty⟩

instance : Inhabited (SortedSet α) := ⟨empty⟩

instance : Membership α (SortedSet α) := ⟨fun s a => a ∈ s.toList⟩

instance [DecidableEq α] (a : α) (s : SortedSet α) : Decidable (a ∈ s) :=
  inferInstanceAs (Decidable (a ∈ s.toList))

/-- The set with `a` added. -/
def insert [Std.TransOrd α] (s : SortedSet α) (a : α) : SortedSet α :=
  ⟨insertInto a s.toList, insertInto_ascending a s.ascending⟩

/-- The set with `a` taken out. -/
def erase [DecidableEq α] (s : SortedSet α) (a : α) : SortedSet α :=
  ⟨s.toList.filter (· ≠ a), s.ascending.filter _⟩

/-- The members that satisfy `keep`. -/
def filter (s : SortedSet α) (keep : α → Bool) : SortedSet α :=
  ⟨s.toList.filter keep, s.ascending.filter _⟩

/-- The set of the members of a list. -/
def ofList [Std.TransOrd α] (members : List α) : SortedSet α :=
  members.foldl insert empty

/-- The members of either set. -/
def union [Std.TransOrd α] (s t : SortedSet α) : SortedSet α :=
  t.toList.foldl insert s

/-- Whether the set has no member. -/
def isEmpty (s : SortedSet α) : Bool := s.toList.isEmpty

/-- The number of members. -/
def size (s : SortedSet α) : Nat := s.toList.length

/-- Whether `a` is a member. -/
def contains [DecidableEq α] (s : SortedSet α) (a : α) : Bool := decide (a ∈ s)

/-! ## Membership -/

theorem mem_def {a : α} {s : SortedSet α} : a ∈ s ↔ a ∈ s.toList := Iff.rfl

@[simp]
theorem not_mem_empty (a : α) : a ∉ (empty : SortedSet α) := by
  simp [mem_def, empty]

@[simp]
theorem contains_iff_mem [DecidableEq α] {s : SortedSet α} {a : α} :
    s.contains a = true ↔ a ∈ s := by
  simp [contains]

@[simp]
theorem mem_insert [Std.TransOrd α] [Std.LawfulEqOrd α] {s : SortedSet α} {a x : α} :
    x ∈ s.insert a ↔ x = a ∨ x ∈ s := by
  constructor
  · exact eq_or_mem_of_mem_insertInto
  · rintro (rfl | h)
    · exact mem_insertInto_self x s.toList
    · exact mem_insertInto_of_mem h

@[simp]
theorem mem_erase [DecidableEq α] {s : SortedSet α} {a x : α} :
    x ∈ s.erase a ↔ x ∈ s ∧ x ≠ a := by
  simp [mem_def, erase]

@[simp]
theorem mem_filter {s : SortedSet α} {keep : α → Bool} {x : α} :
    x ∈ s.filter keep ↔ x ∈ s ∧ keep x = true := by
  simp [mem_def, filter]

theorem mem_foldl_insert [Std.TransOrd α] [Std.LawfulEqOrd α] {x : α} (members : List α) :
    ∀ s : SortedSet α, x ∈ members.foldl insert s ↔ x ∈ s ∨ x ∈ members := by
  induction members with
  | nil => simp
  | cons a rest ih =>
    intro s
    rw [List.foldl_cons, ih, mem_insert, List.mem_cons]
    constructor
    · rintro ((h | h) | h) <;> simp [h]
    · rintro (h | h | h) <;> simp [h]

@[simp]
theorem mem_ofList [Std.TransOrd α] [Std.LawfulEqOrd α] {members : List α} {x : α} :
    x ∈ ofList members ↔ x ∈ members := by
  simp [ofList, mem_foldl_insert]

@[simp]
theorem mem_union [Std.TransOrd α] [Std.LawfulEqOrd α] {s t : SortedSet α} {x : α} :
    x ∈ s.union t ↔ x ∈ s ∨ x ∈ t :=
  mem_foldl_insert t.toList s

theorem nodup_toList [Std.TransOrd α] (s : SortedSet α) : s.toList.Nodup := by
  refine s.ascending.imp ?_
  rintro a b h rfl
  simp [Std.ReflOrd.compare_self] at h

/-- Strictly ascending lists with the same members are equal. -/
theorem ascending_eq_of_mem_iff [Std.TransOrd α] {xs ys : List α}
    (hx : xs.Pairwise (fun a b => compare a b = .lt))
    (hy : ys.Pairwise (fun a b => compare a b = .lt))
    (h : ∀ a, a ∈ xs ↔ a ∈ ys) : xs = ys := by
  have irrefl : ∀ a : α, compare a a ≠ .lt := by
    intro a h
    simp [Std.ReflOrd.compare_self] at h
  induction xs generalizing ys with
  | nil =>
    cases ys with
    | nil => rfl
    | cons y ys => exact absurd ((h y).2 (by simp)) (by simp)
  | cons x xs ih =>
    cases ys with
    | nil => exact absurd ((h x).1 (by simp)) (by simp)
    | cons y ys =>
      have below : ∀ a ∈ xs, compare x a = .lt :=
        fun _ ha => List.rel_of_pairwise_cons hx ha
      have above : ∀ a ∈ ys, compare y a = .lt :=
        fun _ ha => List.rel_of_pairwise_cons hy ha
      have hxy : x = y := by
        rcases List.mem_cons.1 ((h x).1 (by simp)) with e | hmem
        · exact e
        · rcases List.mem_cons.1 ((h y).2 (by simp)) with e | hmem'
          · exact e.symm
          · exact absurd (Std.TransCmp.lt_trans (above _ hmem) (below _ hmem')) (irrefl y)
      subst hxy
      congr 1
      refine ih hx.of_cons hy.of_cons fun a => ?_
      constructor
      · intro ha
        rcases List.mem_cons.1 ((h a).1 (by simp [ha])) with rfl | ha'
        · exact absurd (below _ ha) (irrefl a)
        · exact ha'
      · intro ha
        rcases List.mem_cons.1 ((h a).2 (by simp [ha])) with rfl | ha'
        · exact absurd (above _ ha) (irrefl a)
        · exact ha'

/-- A set is determined by its members. -/
theorem ext_mem [Std.TransOrd α] {s t : SortedSet α} (h : ∀ a, a ∈ s ↔ a ∈ t) : s = t := by
  cases s with
  | mk xs hx =>
    cases t with
    | mk ys hy =>
      have : xs = ys := ascending_eq_of_mem_iff hx hy h
      subst this
      rfl

end SortedSet

end LuaShape
