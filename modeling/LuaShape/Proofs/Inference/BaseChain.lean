import LuaShape.Proofs.Summary.Inherited

/-!
# Fields along the base links

A key that a table lacks is looked up on its base, then on the base of that, and so on.  Nothing
keeps base links from forming a cycle or from ending in a table that is not known.  The search
takes at most as many steps as there are tables, and that is enough: on the way to the first table
that has the key, no table is met twice, and all are known.  A search that remembers the tables it
has seen and stops at one of them ends with the same definitions (`search_iff`).

Main result: `fieldDefinitions_on_first_of_bases`.
-/

namespace LuaShape

open List

namespace Inference

variable (s : Inference) (key : String)

/-- The definitions of a key on a table itself. -/
def ownDefinitions (x : TableId) : List Definition :=
  ((s.table? x).map fun t => t.fields.get key).getD []

/-- The table `y` is met behind `n` base links from `x` and is the first one met that has the key. -/
structure FirstWith (x : TableId) (n : Nat) (y : TableId) : Prop where
  met : Walk.after s.base? n x = some y
  defined : s.ownDefinitions key y ≠ []
  first : ∀ m z, m < n → Walk.after s.base? m x = some z → s.ownDefinitions key z = []

variable {s key} {x y : TableId} {n limit : Nat}

theorem mem_keys_of_ownDefinitions (h : s.ownDefinitions key x ≠ []) : x ∈ s.tables.keys := by
  rw [OrderedMap.mem_keys_iff]
  cases hTable : s.table? x with
  | none => simp [ownDefinitions, hTable] at h
  | some t => exact ⟨t, hTable⟩

theorem mem_keys_of_base? (h : s.base? x = some y) : x ∈ s.tables.keys := by
  obtain ⟨t, hTable, -⟩ := Option.bind_eq_some_iff.1 h
  exact OrderedMap.mem_keys_iff.2 ⟨t, hTable⟩

/-- One step of the search. -/
theorem fieldDefinitionsWithin_succ : s.fieldDefinitionsWithin key (limit + 1) x =
    if s.ownDefinitions key x = [] then
      ((s.base? x).map (s.fieldDefinitionsWithin key limit)).getD []
    else s.ownDefinitions key x := by
  rw [fieldDefinitionsWithin, ownDefinitions, base?]
  cases hTable : s.table? x with
  | none => rfl
  | some t =>
    cases hOwn : t.fields.get key with
    | nil => cases hBase : t.base <;> simp [hOwn, hBase]
    | cons d ds => simp [hOwn]

/-- The first table with the key is also the first one from the base on. -/
theorem FirstWith.tail {z : TableId} (h : s.FirstWith key x (n + 1) y) (hBase : s.base? x = some z) :
    s.FirstWith key z n y where
  met := by rw [← Walk.after_succ_of_some hBase, h.met]
  defined := h.defined
  first m w hm hw := h.first (m + 1) w (Nat.succ_lt_succ hm) (by rw [Walk.after_succ_of_some hBase, hw])

/-- The search finds the first table with the key if it may go that far. -/
theorem FirstWith.fieldDefinitionsWithin (h : s.FirstWith key x n y) (hLimit : n < limit) :
    s.fieldDefinitionsWithin key limit x = s.ownDefinitions key y := by
  induction n generalizing x limit with
  | zero =>
    obtain ⟨limit, rfl⟩ := Nat.exists_eq_succ_of_ne_zero (Nat.ne_of_gt hLimit)
    obtain rfl : x = y := Option.some.inj h.met
    rw [fieldDefinitionsWithin_succ, if_neg h.defined]
  | succ n ih =>
    obtain ⟨limit, rfl⟩ := Nat.exists_eq_succ_of_ne_zero (Nat.ne_zero_of_lt hLimit)
    rw [fieldDefinitionsWithin_succ, if_pos (h.first 0 x n.succ_pos rfl)]
    cases hBase : s.base? x with
    | none => cases (Walk.after_succ_of_none hBase n).symm.trans h.met
    | some z => exact ih (h.tail hBase) (Nat.lt_of_succ_lt_succ hLimit)

/-- The search finds nothing if no table on its way has the key. -/
theorem fieldDefinitionsWithin_eq_nil
    (h : ∀ n z, Walk.after s.base? n x = some z → s.ownDefinitions key z = []) :
    s.fieldDefinitionsWithin key limit x = [] := by
  induction limit generalizing x with
  | zero => rfl
  | succ limit ih =>
    rw [fieldDefinitionsWithin_succ, if_pos (h 0 x rfl)]
    cases hBase : s.base? x with
    | none => rfl
    | some z =>
      exact ih fun n w hw => h (n + 1) w (by rw [Walk.after_succ_of_some hBase, hw])

/-- The tables before the first one with the key are known, and no two of them are the same. -/
theorem FirstWith.lt_size (h : s.FirstWith key x n y) : n < s.tables.size := by
  have hSize : s.tables.keys.length = s.tables.size := length_map _
  rw [← hSize]
  refine Walk.length_lt_of_least (d := 0) (fun i z hi hz => ?_) h.met fun m hm hy =>
    h.defined (h.first m y hm hy)
  rcases Nat.eq_or_lt_of_le hi with rfl | hlt
  · cases hz.symm.trans h.met
    exact mem_keys_of_ownDefinitions h.defined
  · have hNext : (Walk.after s.base? (i + 1) x).isSome := Walk.after_isSome hlt (h.met ▸ rfl)
    rw [Walk.after_succ, show Walk.after s.base? i x = some z from hz] at hNext
    obtain ⟨w, hw⟩ := Option.isSome_iff_exists.1 hNext
    exact mem_keys_of_base? hw

/-- If some table on the way has the key, there is a first one. -/
theorem exists_firstWith (hy : Walk.after s.base? n x = some y)
    (hDefined : s.ownDefinitions key y ≠ []) : ∃ m z, s.FirstWith key x m z := by
  classical
  have hSome : ∃ m, ∃ z, Walk.after s.base? m x = some z ∧ s.ownDefinitions key z ≠ [] :=
    ⟨n, y, hy, hDefined⟩
  obtain ⟨z, hz, hOwn⟩ := Nat.find_spec hSome
  exact ⟨_, z, hz, hOwn, fun m w hm hw =>
    by_contra fun hNe => Nat.find_min hSome hm ⟨w, hw, hNe⟩⟩

/-! ## A search that remembers -/

/-- What is found by following base links from a table, stopping at tables seen before. -/
inductive Search (s : Inference) (key : String) : List TableId → TableId → List Definition → Prop
  | seen {visited : List TableId} {x : TableId} (h : x ∈ visited) : Search s key visited x []
  | found {visited : List TableId} {x : TableId} (hNew : x ∉ visited)
      (h : s.ownDefinitions key x ≠ []) : Search s key visited x (s.ownDefinitions key x)
  | ended {visited : List TableId} {x : TableId} (hNew : x ∉ visited)
      (hOwn : s.ownDefinitions key x = []) (hBase : s.base? x = none) : Search s key visited x []
  | next {visited : List TableId} {x y : TableId} {found : List Definition} (hNew : x ∉ visited)
      (hOwn : s.ownDefinitions key x = []) (hBase : s.base? x = some y)
      (h : Search s key (x :: visited) y found) : Search s key visited x found

/-- Tables that are known can be seen once only, so every search ends. -/
theorem exists_search (visited : List TableId) (x : TableId) :
    ∃ found, s.Search key visited x found := by
  induction hLeft : (s.tables.keys.filter (· ∉ visited)).length using Nat.strong_induction_on
    generalizing visited x with
  | _ left ih =>
    by_cases hSeen : x ∈ visited
    · exact ⟨_, .seen hSeen⟩
    by_cases hOwn : s.ownDefinitions key x = []
    · cases hBase : s.base? x with
      | none => exact ⟨_, .ended hSeen hOwn hBase⟩
      | some y =>
        have hLess : (s.tables.keys.filter (· ∉ x :: visited)).length < left := by
          have hFilter : s.tables.keys.filter (· ∉ x :: visited) =
              (s.tables.keys.filter (· ∉ visited)).filter (· ≠ x) := by
            rw [filter_filter]
            simp [not_or]
          rw [← hLeft, hFilter, length_filter_lt_length_iff_exists]
          exact ⟨x, by simp [hSeen, mem_keys_of_base? hBase], by simp⟩
        obtain ⟨found, hFound⟩ := ih _ hLess (x :: visited) y rfl
        exact ⟨found, .next hSeen hOwn hBase hFound⟩
    · exact ⟨_, .found hSeen hOwn⟩

/-- A search that has not seen any of the tables up to the first one with the key finds it. -/
theorem Search.eq_of_firstWith {visited : List TableId} {found : List Definition}
    (h : s.Search key visited x found) (hFirst : s.FirstWith key x n y)
    (hNew : ∀ m z, m ≤ n → Walk.after s.base? m x = some z → z ∉ visited) :
    found = s.ownDefinitions key y := by
  induction h generalizing n with
  | seen hSeen => exact absurd hSeen (hNew 0 _ n.zero_le rfl)
  | found _ hOwn =>
    cases n with
    | zero => rw [Option.some.inj hFirst.met]
    | succ n => exact absurd (hFirst.first 0 _ n.succ_pos rfl) hOwn
  | ended _ hOwn hBase =>
    cases n with
    | zero => exact absurd (Option.some.inj hFirst.met ▸ hOwn) hFirst.defined
    | succ n => cases (Walk.after_succ_of_none hBase n).symm.trans hFirst.met
  | @next visited x z found hx hOwn hBase _ ih =>
    cases n with
    | zero => exact absurd (Option.some.inj hFirst.met ▸ hOwn) hFirst.defined
    | succ n =>
      refine ih (hFirst.tail hBase) fun m w hm hw hMem => ?_
      rw [← Walk.after_succ_of_some hBase] at hw
      rcases mem_cons.1 hMem with rfl | hMem
      · -- a table met again would lead to the first one with the key in fewer steps
        have hSooner := Walk.after_add_congr (n := 0) hw (n - m)
        rw [show m + 1 + (n - m) = n + 1 by omega, hFirst.met, Nat.zero_add] at hSooner
        exact hFirst.defined (hFirst.first (n - m) y (by omega) hSooner.symm)
      · exact hNew (m + 1) w (Nat.succ_le_succ hm) hw hMem

/-- A search finds nothing if no table on its way has the key. -/
theorem Search.eq_nil {visited : List TableId} {found : List Definition}
    (h : s.Search key visited x found)
    (hNone : ∀ n z, Walk.after s.base? n x = some z → s.ownDefinitions key z = []) :
    found = [] := by
  induction h with
  | seen | ended => rfl
  | found _ hOwn => exact absurd (hNone 0 _ rfl) hOwn
  | next _ _ hBase _ ih =>
    exact ih fun n z hz => hNone (n + 1) z (by rw [Walk.after_succ_of_some hBase, hz])

/-- The search that remembers what it has seen ends, and it ends with the definitions that are
found within the limit. -/
theorem search_iff {found : List Definition} :
    s.Search key [] x found ↔ found = s.fieldDefinitions x key := by
  have hSame : ∀ found, s.Search key [] x found → found = s.fieldDefinitions x key := by
    intro found h
    by_cases hSome : ∃ n y, s.FirstWith key x n y
    · obtain ⟨n, y, hFirst⟩ := hSome
      rw [h.eq_of_firstWith hFirst fun _ _ _ _ => not_mem_nil,
        fieldDefinitions, hFirst.fieldDefinitionsWithin hFirst.lt_size]
    · have hNone : ∀ n z, Walk.after s.base? n x = some z → s.ownDefinitions key z = [] :=
        fun n z hz => by_contra fun hDefined => hSome (exists_firstWith hz hDefined)
      rw [h.eq_nil hNone, fieldDefinitions, fieldDefinitionsWithin_eq_nil hNone]
  refine ⟨hSame found, ?_⟩
  rintro rfl
  have hEnds : ∃ found, s.Search key [] x found := exists_search [] x
  obtain ⟨found, hFound⟩ := hEnds
  rwa [hSame found hFound] at hFound

theorem reflTransGen_base_iff :
    Relation.ReflTransGen (fun a b => s.base? a = some b) x y ↔
      ∃ n, Walk.after s.base? n x = some y := by
  rw [Relation.reflTransGen_iff_eq_or_transGen]
  constructor
  · rintro (rfl | h)
    · exact ⟨0, rfl⟩
    · obtain ⟨n, hn⟩ := Walk.leads_iff_after.1 h
      exact ⟨n + 1, hn⟩
  · rintro ⟨n, hn⟩
    cases n with
    | zero => exact .inl (Option.some.inj hn).symm
    | succ n => exact .inr (Walk.leads_iff_after.2 ⟨n, hn⟩)

/-- **Fields along the base links.**  In every context, whatever its base links are, a key has the
definitions that the first of a table, its base, the base of that and so on has for it, if any of
them has one.  It has none exactly if no table that base links lead to, the table itself included,
has any.  No further step would change the answer. -/
theorem fieldDefinitions_on_first_of_bases (s : Inference) (x : TableId) (key : String) :
    (∀ n y, s.FirstWith key x n y → s.fieldDefinitions x key = s.ownDefinitions key y) ∧
    (s.fieldDefinitions x key = [] ↔
      ∀ y, Relation.ReflTransGen (fun a b => s.base? a = some b) x y →
        s.ownDefinitions key y = []) ∧
    ∀ limit, s.tables.size ≤ limit →
      s.fieldDefinitionsWithin key limit x = s.fieldDefinitions x key := by
  have hFound : ∀ {limit n y}, s.tables.size ≤ limit → s.FirstWith key x n y →
      s.fieldDefinitionsWithin key limit x = s.ownDefinitions key y :=
    fun hLe h => h.fieldDefinitionsWithin (Nat.lt_of_lt_of_le h.lt_size hLe)
  have hNone : (∀ y, Relation.ReflTransGen (fun a b => s.base? a = some b) x y →
      s.ownDefinitions key y = []) → ∀ limit, s.fieldDefinitionsWithin key limit x = [] :=
    fun h limit => fieldDefinitionsWithin_eq_nil fun n z hz => h z (reflTransGen_base_iff.2 ⟨n, hz⟩)
  refine ⟨fun n y h => hFound (Nat.le_refl _) h,
    ⟨fun hNil y hLeads => ?_, fun h => hNone h _⟩, fun limit hLe => ?_⟩
  · by_contra hDefined
    obtain ⟨n, hn⟩ := reflTransGen_base_iff.1 hLeads
    obtain ⟨m, z, hFirst⟩ := exists_firstWith hn hDefined
    exact hFirst.defined ((hFound (Nat.le_refl _) hFirst).symm.trans hNil)
  · by_cases hAll : ∀ y, Relation.ReflTransGen (fun a b => s.base? a = some b) x y →
        s.ownDefinitions key y = []
    · rw [hNone hAll, fieldDefinitions, hNone hAll]
    · simp only [not_forall] at hAll
      obtain ⟨y, hLeads, hDefined⟩ := hAll
      obtain ⟨n, hn⟩ := reflTransGen_base_iff.1 hLeads
      obtain ⟨m, z, hFirst⟩ := exists_firstWith hn hDefined
      rw [hFound hLe hFirst, fieldDefinitions, hFound (Nat.le_refl _) hFirst]

end Inference

end LuaShape
