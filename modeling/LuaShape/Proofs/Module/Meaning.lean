import LuaShape.Module.Name
import Mathlib.Data.List.Perm.Basic

/-!
# The module that a required name means

Two parts of a run look required names up: the graph of files before the load
order is known, and the reader of a module afterwards.  Both follow one rule,
stated here over the bare list of module names: a module's own name means it;
any other name must be a short name of one module only, or of only one module
in the bucket of the module that requires it.  The rule does not depend on the
order of the list (`Means.perm`).
-/

namespace LuaShape.ModuleName

open List

/-- The modules that a short name may stand for. -/
def candidates (modules : List String) (short : String) : List String :=
  modules.filter fun name => short ∈ aliases name

/-- The modules that a short name may stand for and that lie in a bucket; no module
lies in no bucket. -/
def candidatesIn (buckets modules : List String) (short : String) (bucket : Option String) :
    List String :=
  (candidates modules short).filter fun name =>
    bucket.isSome && bucketOf buckets name = bucket

/-- A name required from a bucket means a module. -/
def Means (buckets modules : List String) (name : String) (bucket : Option String)
    (target : String) : Prop :=
  if name ∈ modules then target = name
  else candidates modules name = [target] ∨ candidatesIn buckets modules name bucket = [target]

theorem mem_candidates {modules : List String} {short name : String} :
    name ∈ candidates modules short ↔ name ∈ modules ∧ short ∈ aliases name := by
  simp [candidates]

variable {buckets modules : List String}

theorem mem_candidates_of_mem_candidatesIn {short name : String} {bucket : Option String}
    (h : name ∈ candidatesIn buckets modules short bucket) : name ∈ candidates modules short :=
  mem_of_mem_filter h

theorem candidatesIn_eq_nil {short : String} (h : candidates modules short = [])
    (bucket : Option String) : candidatesIn buckets modules short bucket = [] := by
  simp [candidatesIn, h]

/-- If only one module has a short name, the bucket decides nothing. -/
theorem eq_of_candidatesIn {short only target : String} {bucket : Option String}
    (hOnly : candidates modules short = [only])
    (h : candidatesIn buckets modules short bucket = [target]) : only = target := by
  have hMem : target ∈ candidates modules short := by
    have hIn : target ∈ candidatesIn buckets modules short bucket := by
      rw [h]
      exact mem_singleton_self target
    exact mem_candidates_of_mem_candidatesIn hIn
  rw [hOnly, mem_singleton] at hMem
  exact hMem.symm

namespace Means

variable {buckets modules modules' : List String} {name target : String}
variable {bucket : Option String}

theorem mem (h : Means buckets modules name bucket target) : target ∈ modules := by
  rw [Means] at h
  split at h
  · rename_i hName
    rwa [h]
  · have hMem : target ∈ candidates modules name := by
      rcases h with h | h
      · rw [h]
        exact mem_singleton_self target
      · have hIn : target ∈ candidatesIn buckets modules name bucket := by
          rw [h]
          exact mem_singleton_self target
        exact mem_candidates_of_mem_candidatesIn hIn
    exact (mem_candidates.1 hMem).1

/-- The order of the modules does not matter. -/
theorem perm (h : modules.Perm modules') :
    Means buckets modules name bucket target ↔ Means buckets modules' name bucket target := by
  have hAll : (candidates modules name).Perm (candidates modules' name) := h.filter _
  have hNear : (candidatesIn buckets modules name bucket).Perm
      (candidatesIn buckets modules' name bucket) := hAll.filter _
  simp only [Means, h.mem_iff, ← perm_singleton, hAll.congr_left, hNear.congr_left]

end Means

end LuaShape.ModuleName
