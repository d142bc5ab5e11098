/-!
# Finite maps that remember insertion order

Fields of a table, globals of a module and the tables of a run are listed in
the order in which they first appeared.  An `OrderedMap` is the list of its
entries, oldest key first, with the proof that no key occurs twice; updating a
key keeps its place.

Main statements: look-up after each operation (`find?_upsert`, `find?_modify`,
`get_push`), the effect on the key list (`keys_upsert`, `keys_modify`), and
look-up as membership among the entries (`find?_eq_some_iff`).
-/

namespace LuaShape

/-- A finite map from `κ` to `α` whose entries are listed oldest key first. -/
structure OrderedMap (κ α : Type) where
  /-- The entries in the order in which their keys were first inserted. -/
  entries : List (κ × α)
  /-- No key has two entries. -/
  distinct : (entries.map Prod.fst).Nodup
deriving DecidableEq

namespace OrderedMap

variable {κ α : Type}

/-- The map without entries. -/
def empty : OrderedMap κ α := ⟨[], .nil⟩

instance : EmptyCollection (OrderedMap κ α) := ⟨empty⟩

instance : Inhabited (OrderedMap κ α) := ⟨empty⟩

/-- The keys, oldest first. -/
def keys (m : OrderedMap κ α) : List κ := m.entries.map Prod.fst

/-- The values, in the order of their keys. -/
def values (m : OrderedMap κ α) : List α := m.entries.map Prod.snd

/-- Whether the map has no entry. -/
def isEmpty (m : OrderedMap κ α) : Bool := m.entries.isEmpty

/-- The number of entries. -/
def size (m : OrderedMap κ α) : Nat := m.entries.length

section Lookup

variable [DecidableEq κ]

/-- The value of the first entry for `key` in a list of entries. -/
def lookup (key : κ) : List (κ × α) → Option α
  | [] => none
  | (k, v) :: rest => if k = key then some v else lookup key rest

/-- The value stored under `key`. -/
def find? (m : OrderedMap κ α) (key : κ) : Option α := lookup key m.entries

/-- Whether `key` has an entry. -/
def contains (m : OrderedMap κ α) (key : κ) : Bool := (m.find? key).isSome

/-- Replace the value of `key` by what `f` makes of it, at its old place, or
append an entry with `f none`. -/
def upsertIn (key : κ) (f : Option α → α) : List (κ × α) → List (κ × α)
  | [] => [(key, f none)]
  | (k, v) :: rest =>
    if k = key then (k, f (some v)) :: rest else (k, v) :: upsertIn key f rest

theorem mem_keys_upsertIn {key x : κ} {f : Option α → α} {es : List (κ × α)} :
    x ∈ (upsertIn key f es).map Prod.fst ↔ x = key ∨ x ∈ es.map Prod.fst := by
  induction es with
  | nil => simp [upsertIn]
  | cons e rest ih =>
    obtain ⟨k, v⟩ := e
    simp only [upsertIn]
    split
    · rename_i h
      simp [h]
    · rw [List.map_cons, List.mem_cons, ih, List.map_cons, List.mem_cons]
      constructor
      · rintro (h | h | h) <;> simp [h]
      · rintro (h | h | h) <;> simp [h]

theorem nodup_upsertIn {key : κ} {f : Option α → α} {es : List (κ × α)}
    (h : (es.map Prod.fst).Nodup) : ((upsertIn key f es).map Prod.fst).Nodup := by
  induction es with
  | nil => simp [upsertIn]
  | cons e rest ih =>
    obtain ⟨k, v⟩ := e
    rw [List.map_cons, List.nodup_cons] at h
    simp only [upsertIn]
    split
    · simpa using h
    · rename_i hne
      rw [List.map_cons, List.nodup_cons, mem_keys_upsertIn]
      refine ⟨?_, ih h.2⟩
      rintro (h' | h')
      · exact hne h'
      · exact h.1 h'

/-- Set the value of `key` from its present one, appending the key when new. -/
def upsert (m : OrderedMap κ α) (key : κ) (f : Option α → α) : OrderedMap κ α :=
  ⟨upsertIn key f m.entries, nodup_upsertIn m.distinct⟩

/-- Store `value` under `key`; an old key keeps its place. -/
def insert (m : OrderedMap κ α) (key : κ) (value : α) : OrderedMap κ α :=
  m.upsert key fun _ => value

/-- Change the value of `key` if it has one. -/
def modify (m : OrderedMap κ α) (key : κ) (f : α → α) : OrderedMap κ α :=
  ⟨m.entries.map fun e => (e.1, if e.1 = key then f e.2 else e.2), by
    simpa [Function.comp_def] using m.distinct⟩

/-- Append `value` to the list stored under `key`. -/
def push (m : OrderedMap κ (List α)) (key : κ) (value : α) : OrderedMap κ (List α) :=
  m.upsert key fun old => (old.getD []) ++ [value]

/-- The list stored under `key`, empty when there is none. -/
def get (m : OrderedMap κ (List α)) (key : κ) : List α := (m.find? key).getD []

/-! ## Look-up -/

@[simp]
theorem find?_empty (key : κ) : (empty : OrderedMap κ α).find? key = none := rfl

theorem lookup_upsertIn {key x : κ} {f : Option α → α} (es : List (κ × α)) :
    lookup x (upsertIn key f es) =
      if x = key then some (f (lookup key es)) else lookup x es := by
  induction es with
  | nil =>
    by_cases h : x = key
    · simp [upsertIn, lookup, h]
    · simp [upsertIn, lookup, h, Ne.symm h]
  | cons e rest ih =>
    obtain ⟨k, v⟩ := e
    by_cases hk : k = key
    · by_cases hx : x = key
      · simp [upsertIn, lookup, hk, hx]
      · have hne : ¬ key = x := fun h => hx h.symm
        simp [upsertIn, lookup, hk, hx, hne]
    · by_cases hx : x = key
      · subst hx
        simp [upsertIn, lookup, hk, ih]
      · by_cases hkx : k = x
        · simp [upsertIn, lookup, hx, hkx]
        · simp [upsertIn, lookup, hk, hx, hkx, ih]

@[simp]
theorem find?_upsert (m : OrderedMap κ α) (key x : κ) (f : Option α → α) :
    (m.upsert key f).find? x = if x = key then some (f (m.find? key)) else m.find? x :=
  lookup_upsertIn m.entries

theorem lookup_map_modify {key x : κ} {f : α → α} (es : List (κ × α)) :
    lookup x (es.map fun e => (e.1, if e.1 = key then f e.2 else e.2)) =
      if x = key then (lookup x es).map f else lookup x es := by
  induction es with
  | nil => simp [lookup]
  | cons e rest ih =>
    obtain ⟨k, v⟩ := e
    by_cases hk : k = x
    · by_cases hx : x = key
      · simp [lookup, hk, hx]
      · simp [lookup, hk, hx]
    · simp [lookup, hk, ih]

@[simp]
theorem find?_modify (m : OrderedMap κ α) (key x : κ) (f : α → α) :
    (m.modify key f).find? x = if x = key then (m.find? x).map f else m.find? x :=
  lookup_map_modify m.entries

@[simp]
theorem keys_modify (m : OrderedMap κ α) (key : κ) (f : α → α) :
    (m.modify key f).keys = m.keys := by
  simp [keys, modify, Function.comp_def]

/-! ## Entries -/

theorem lookup_eq_some_iff {key : κ} {value : α} {es : List (κ × α)}
    (h : (es.map Prod.fst).Nodup) : lookup key es = some value ↔ (key, value) ∈ es := by
  induction es with
  | nil => simp [lookup]
  | cons e rest ih =>
    obtain ⟨k, v⟩ := e
    rw [List.map_cons, List.nodup_cons] at h
    by_cases hk : k = key
    · subst hk
      have hNone : (k, value) ∉ rest := fun hMem =>
        h.1 (List.mem_map.2 ⟨_, hMem, rfl⟩)
      simp [lookup, hNone, eq_comm]
    · simp [lookup, hk, ih h.2, Ne.symm hk]

theorem find?_eq_some_iff {m : OrderedMap κ α} {key : κ} {value : α} :
    m.find? key = some value ↔ (key, value) ∈ m.entries :=
  lookup_eq_some_iff m.distinct

/-- A key has an entry exactly when it is found. -/
theorem mem_keys_iff {m : OrderedMap κ α} {key : κ} :
    key ∈ m.keys ↔ ∃ value, m.find? key = some value := by
  simp [keys, find?_eq_some_iff]

theorem contains_iff_mem_keys {m : OrderedMap κ α} {key : κ} :
    m.contains key = true ↔ key ∈ m.keys := by
  rw [contains, Option.isSome_iff_exists, mem_keys_iff]

/-- A new key is put at the end. -/
theorem entries_upsert_of_not_mem {m : OrderedMap κ α} {key : κ} {f : Option α → α}
    (h : key ∉ m.keys) : (m.upsert key f).entries = m.entries ++ [(key, f none)] := by
  have step : ∀ es : List (κ × α), key ∉ es.map Prod.fst →
      upsertIn key f es = es ++ [(key, f none)] := by
    intro es
    induction es with
    | nil => simp [upsertIn]
    | cons e rest ih =>
      obtain ⟨k, v⟩ := e
      intro hk
      rw [List.map_cons, List.mem_cons, not_or] at hk
      simp [upsertIn, Ne.symm hk.1, ih hk.2]
  exact step m.entries h

/-! ## Lists stored under keys -/

@[simp]
theorem get_empty (key : κ) : (empty : OrderedMap κ (List α)).get key = [] := rfl

theorem get_push (m : OrderedMap κ (List α)) (key x : κ) (value : α) :
    (m.push key value).get x = if x = key then m.get x ++ [value] else m.get x := by
  by_cases h : x = key
  · simp [push, get, h]
  · simp [push, get, h]

/-- Appending one value under several keys. -/
theorem get_foldl_push {keys : List κ} (value : α) (hDistinct : keys.Nodup)
    (m : OrderedMap κ (List α)) (x : κ) :
    (keys.foldl (fun m key => m.push key value) m).get x =
      if x ∈ keys then m.get x ++ [value] else m.get x := by
  induction keys generalizing m with
  | nil => simp
  | cons key rest ih =>
    rw [List.nodup_cons] at hDistinct
    rw [List.foldl_cons, ih hDistinct.2, get_push]
    by_cases hx : x = key
    · subst hx
      simp [hDistinct.1]
    · simp [hx]

end Lookup

end OrderedMap

end LuaShape
