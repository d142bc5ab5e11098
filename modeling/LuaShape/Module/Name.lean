import LuaShape.Text.Blank

/-!
# Names of modules

A module is known by its path below the project root, without extension and
with `/` between the parts.  A `require` may name it by that path, by any part
of the path behind a `/`, and in one of several notations; `ofRequire` brings
those to the form of a module name.  The first part may name a *bucket*, one of
the top directories in which a project keeps its files.
-/

namespace LuaShape.ModuleName

/-- Every stretch of the text that starts behind a separator, longest first. -/
def tailsBehind (separator : Char) : List Char → List (List Char)
  | [] => []
  | c :: rest =>
    if c = separator then rest :: tailsBehind separator rest
    else tailsBehind separator rest

/-- The shorter names by which a module may be required: each proper part of its
name that starts behind a `/`. -/
def aliases (name : String) : List String :=
  (tailsBehind '/' name.toList).map String.ofList

/-- The first part of a name. -/
def firstPart (name : String) : String := String.ofList (name.toList.takeWhile (· ≠ '/'))

/-- The bucket a module lies in: the first part of its name, if that is one. -/
def bucketOf (buckets : List String) (name : String) : Option String :=
  buckets.find? fun bucket => bucket = firstPart name

/-- The last part of a name. -/
def lastPart (name : String) : String :=
  String.ofList ((name.toList.reverse.takeWhile (· ≠ '/')).reverse)

/-- The text without the given ending, if it has it. -/
def dropEnding (ending cs : List Char) : List Char :=
  if ending.isSuffixOf cs then cs.take (cs.length - ending.length) else cs

/-- The text with every `old` replaced by `new`. -/
def replaceChar (old new : Char) (cs : List Char) : List Char :=
  cs.map fun c => if c = old then new else c

/-- The module name that the argument of a `require` stands for: blanks around it
and one `.lua` behind it are dropped, `\` is read as `/`, and where there is no
`/` at all each point is one. -/
def ofRequire (argument : String) : String :=
  let cs := replaceChar '\\' '/' (dropEnding ".lua".toList (Text.trim argument.toList))
  String.ofList (if '/' ∈ cs then cs else replaceChar '.' '/' cs)

/-- A stretch starts behind a separator exactly when some text and a separator
stand before it. -/
theorem mem_tailsBehind_iff {separator : Char} {cs tail : List Char} :
    tail ∈ tailsBehind separator cs ↔ ∃ before, cs = before ++ separator :: tail := by
  induction cs with
  | nil => simp [tailsBehind]
  | cons c rest ih =>
    have step : (∃ before, c :: rest = before ++ separator :: tail) ↔
        (c = separator ∧ tail = rest) ∨ ∃ before, rest = before ++ separator :: tail := by
      constructor
      · rintro ⟨before, h⟩
        cases before with
        | nil =>
          simp only [List.nil_append, List.cons.injEq] at h
          exact Or.inl ⟨h.1, h.2.symm⟩
        | cons b bs =>
          simp only [List.cons_append, List.cons.injEq] at h
          exact Or.inr ⟨bs, h.2⟩
      · rintro (⟨rfl, rfl⟩ | ⟨before, rfl⟩)
        · exact ⟨[], rfl⟩
        · exact ⟨c :: before, rfl⟩
    rw [step, ← ih]
    simp only [tailsBehind]
    split
    · rename_i h
      simp [h]
    · rename_i h
      simp [h]

/-- Each stretch is shorter than the one before it. -/
theorem tailsBehind_descending (separator : Char) (cs : List Char) :
    (tailsBehind separator cs).Pairwise (fun a b => b.length < a.length) := by
  induction cs with
  | nil => exact List.Pairwise.nil
  | cons c rest ih =>
    simp only [tailsBehind]
    split
    · refine List.Pairwise.cons ?_ ih
      intro tail hTail
      obtain ⟨before, rfl⟩ := mem_tailsBehind_iff.1 hTail
      simp only [List.length_append, List.length_cons]
      omega
    · exact ih

/-- No shorter name of a module is listed twice. -/
theorem nodup_aliases (name : String) : (aliases name).Nodup := by
  have hTails : (tailsBehind '/' name.toList).Nodup := by
    refine (tailsBehind_descending '/' name.toList).imp ?_
    rintro a b h rfl
    omega
  refine List.Pairwise.map String.ofList ?_ hTails
  intro a b hNe hEq
  exact hNe (String.ofList_injective hEq)

end LuaShape.ModuleName
