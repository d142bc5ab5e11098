import LuaShape.Inference.Event
import LuaShape.Proofs.Module.Meaning

/-!
# What the reader of a module reports

While a module is read the inference is only ever changed by a report, and there
are seventeen kinds of them.  `Report` names them and `Inference.tell` says what
each does, so that a property of reading is a property of every report.

The reports about requires need little of the inference: the buckets, the name,
the bucket and the state of each module, and which module is being read.  This is
its *outline*.  A require only adds to its diagnostics (`outline_require`): it
names another module, one that has not been read and that the required name means.
-/

namespace LuaShape

open List

/-- What the reader of a module can tell the inference. -/
inductive Report where
  | term (t : Term)
  | binding (kind : SymbolKind) (name : String)
  | use (id : TermId) (allowed : List TypeTag)
  | table (hint : String)
  | function (name : Option String)
  | receiver (id : FunctionId) (base : TermId)
  | parameters (id : FunctionId) (params : List (String × SymbolId)) (isVararg isMethod : Bool)
  | moduleLevel (symbol : SymbolId)
  | selfValue (symbol : SymbolId) (receiver : TermId)
  | object (function : FunctionId) (symbol : SymbolId) (value : TermId)
  | assignment (target value : TermId) (inFunction : Bool)
  | entry (table : TableId) (key : String) (value : TermId) (inFunction : Bool)
  | returned (function : Option FunctionId) (slot : Nat) (value : TermId)
  | call (id : TermId)
  | method (base : TermId) (name : String) (id : FunctionId) (isColon : Bool)
  | functionEnd (id : FunctionId)
  | require (argument : String)

/-- What a report does to the inference. -/
def Inference.tell (s : Inference) : Report → Inference
  | .term t => (s.alloc t).2
  | .binding kind name => { s with registry := (s.registry.mint kind name).2 }
  | .use id allowed => s.addUsage id allowed
  | .table hint => (s.newTable hint).2
  | .function name => (s.newFunction name).2
  | .receiver id base => s.setReceiver id base
  | .parameters id params isVararg isMethod => s.setParameters id params isVararg isMethod
  | .moduleLevel symbol => s.markModuleLevel symbol
  | .selfValue symbol receiver => s.defineSelf symbol receiver
  | .object function symbol value => (s.addBuiltObject function symbol value).2
  | .assignment target value inFunction => s.addAssignment target value inFunction
  | .entry table key value inFunction => s.addTableField table key value inFunction
  | .returned function slot value => s.addReturn function slot value
  | .call id => s.addCall id
  | .method base name id isColon => s.methodDefined base name id isColon
  | .functionEnd id => s.endFunction id
  | .require argument => (s.resolveRequire argument).2

/-- One inference comes from another by reports of certain kinds. -/
inductive Told (P : Report → Prop) : Inference → Inference → Prop where
  | refl (s : Inference) : Told P s s
  | tail {s s' : Inference} (report : Report) (h : P report) (rest : Told P s s') :
      Told P s (s'.tell report)

namespace Told

variable {P : Report → Prop} {s s' s'' : Inference}

theorem single (report : Report) (h : P report) : Told P s (s.tell report) :=
  .tail report h (.refl s)

theorem trans (h : Told P s s') (h' : Told P s' s'') : Told P s s'' := by
  induction h' with
  | refl => exact h
  | tail report hReport _ ih => exact .tail report hReport ih

theorem mono {P' : Report → Prop} (h : Told P s s') (hP : ∀ report, P report → P' report) :
    Told P' s s' := by
  induction h with
  | refl => exact .refl _
  | tail report hReport _ ih => exact .tail report (hP report hReport) ih

end Told

/-! ## Outlines -/

/-- What is known of a module before it is read: its name, its bucket, and whether
it has been read. -/
structure Heading where
  name : String
  bucket : Option String
  isRead : Bool
deriving DecidableEq, Repr

/-- The part of a module that says which module it is. -/
def ModuleRecord.heading (m : ModuleRecord) : Heading := ⟨m.name, m.bucket, m.isRead⟩

/-- The part of an inference that requires depend on. -/
structure Outline where
  buckets : List String
  modules : List Heading
  current : Nat
  diagnostics : List Diagnostic

namespace Outline

/-- The names of the known modules. -/
def names (o : Outline) : List String := o.modules.map Heading.name

/-- The module being read. -/
def reader? (o : Outline) : Option Heading := o.modules[o.current]?

/-- Whether the first module of a name has been read. -/
def isRead (o : Outline) (name : String) : Bool :=
  ((o.modules.find? fun m => m.name = name).map Heading.isRead).getD false

/-- A name required by the module being read means a module. -/
def Finds (o : Outline) (name target : String) : Prop :=
  ModuleName.Means o.buckets o.names name (o.reader?.bind Heading.bucket) target

/-- A report says that a required name means another module, which has not been
read. -/
def Early (o : Outline) (name : String) (d : Diagnostic) : Prop :=
  ∃ target, o.Finds name target ∧ o.isRead target = false ∧
    o.reader?.map Heading.name ≠ some target ∧
    d = .requiredEarly ((o.reader?.map Heading.name).getD "") target

/-- Add to the diagnostics. -/
def report (o : Outline) (new : List Diagnostic) : Outline :=
  { o with diagnostics := o.diagnostics ++ new }

@[simp]
theorem report_nil (o : Outline) : o.report [] = o := by
  simp [report]

@[simp]
theorem report_report (o : Outline) (new new' : List Diagnostic) :
    (o.report new).report new' = o.report (new ++ new') := by
  simp [report]

end Outline

namespace Inference

/-- The outline of what is known. -/
def outline (s : Inference) : Outline where
  buckets := s.buckets
  modules := s.modules.map ModuleRecord.heading
  current := s.current
  diagnostics := s.diagnostics

/-! ## Requires -/

variable (s : Inference)

theorem names_outline : s.outline.names = s.modules.map ModuleRecord.name := by
  simp [outline, Outline.names, Function.comp_def, ModuleRecord.heading]

theorem reader?_outline : s.outline.reader? = s.currentModule?.map ModuleRecord.heading := by
  simp [outline, Outline.reader?, currentModule?]

theorem isRead_outline (name : String) :
    s.outline.isRead name = ((s.moduleNamed? name).map ModuleRecord.isRead).getD false := by
  simp only [outline, Outline.isRead, moduleNamed?, find?_map, Option.map_map]
  rfl

theorem isSome_moduleNamed? (name : String) :
    (s.moduleNamed? name).isSome = true ↔ name ∈ s.outline.names := by
  simp [moduleNamed?, names_outline]

theorem candidates_eq (name : String) :
    s.candidates name = ModuleName.candidates s.outline.names name := by
  simp [candidates, ModuleName.candidates, names_outline]

/-- An index of modules by their short names, kept up as modules become known, holds the modules
that a search through all of them finds. -/
theorem get_index_register {index : OrderedMap String (List String)}
    (h : ∀ short, index.get short = s.candidates short) (name short : String) :
    (if (s.moduleNamed? name).isSome then index
      else (ModuleName.aliases name).foldl (fun index short => index.push short name) index).get
        short = (s.register name).2.candidates short := by
  by_cases hKnown : (s.moduleNamed? name).isSome = true
  · obtain ⟨m, hm, hName⟩ := mem_map.1 (s.names_outline ▸ (s.isSome_moduleNamed? name).1 hKnown)
    cases hIndex : s.modules.findIdx? fun m => m.name = name with
    | none => exact absurd (findIdx?_eq_none_iff.1 hIndex m hm) (by simpa using hName)
    | some i => rw [if_pos hKnown, h, register, hIndex]
  · have hNone : (s.modules.findIdx? fun m => m.name = name) = none := by
      rw [findIdx?_eq_none_iff]
      simpa [moduleNamed?] using hKnown
    rw [if_neg hKnown, OrderedMap.get_foldl_push name (ModuleName.nodup_aliases name), h, register,
      hNone, candidates, candidates, map_append, filter_append]
    by_cases hShort : short ∈ ModuleName.aliases name <;> simp [hShort]

/-- The bucket that required names are looked up from. -/
theorem bucket_reader? :
    s.outline.reader?.bind Heading.bucket = s.currentModule?.bind ModuleRecord.bucket := by
  rw [reader?_outline]
  cases s.currentModule? <;> rfl

/-- The module being read finds a module under the names that mean it. -/
theorem findModule?_eq_some_iff {name target : String} :
    s.findModule? name = some target ↔ s.outline.Finds name target := by
  rw [findModule?, Outline.Finds, ModuleName.Means, bucket_reader?]
  by_cases hName : name ∈ s.outline.names
  · rw [if_pos ((s.isSome_moduleNamed? name).2 hName), if_pos hName]
    simp [eq_comm]
  · rw [if_neg (by rwa [isSome_moduleNamed?]), if_neg hName, candidates_eq]
    rcases hAll : ModuleName.candidates s.outline.names name with
      _ | ⟨only, _ | ⟨other, rest⟩⟩
    · simp [ModuleName.candidatesIn_eq_nil hAll]
    · have hOnly : ModuleName.candidatesIn s.outline.buckets s.outline.names name
          (s.currentModule?.bind ModuleRecord.bucket) = [target] → only = target :=
        ModuleName.eq_of_candidatesIn hAll
      simpa using hOnly
    · rw [ModuleName.candidatesIn, hAll]
      cases s.currentModule?.bind ModuleRecord.bucket with
      | none => simp
      | some bucket =>
        simp only [Option.bind_some, Option.isSome_some, Bool.true_and, List.cons.injEq,
          cons_ne_nil, and_false, false_or]
        show _ ↔ (only :: other :: rest).filter (fun module =>
          decide (ModuleName.bucketOf s.buckets module = some bucket)) = [target]
        rcases (only :: other :: rest).filter fun module =>
          decide (ModuleName.bucketOf s.buckets module = some bucket) with
          _ | ⟨near, _ | ⟨_, _⟩⟩
        · simp
        · simp
        · simp

/-- A require adds nothing to the outline but a report that it is early. -/
theorem outline_require (argument : String) :
    ∃ new, (s.resolveRequire argument).2.outline = s.outline.report new ∧
      ∀ d ∈ new, s.outline.Early (ModuleName.ofRequire argument) d := by
  unfold resolveRequire
  split
  · exact ⟨[], by simp, by simp⟩
  · rename_i target hTarget
    dsimp only
    split
    · exact ⟨[], by simp, by simp⟩
    · rename_i hUnread
      simp only [Bool.or_eq_true, decide_eq_true_eq, not_or, Bool.not_eq_true] at hUnread
      have hReader : s.outline.reader?.map Heading.name =
          s.currentModule?.map ModuleRecord.name := by
        rw [reader?_outline, Option.map_map]
        rfl
      refine ⟨[.requiredEarly ((s.currentModule?.map ModuleRecord.name).getD "") target],
        rfl, ?_⟩
      simp only [mem_singleton, forall_eq]
      refine ⟨target, s.findModule?_eq_some_iff.1 hTarget, ?_, ?_, ?_⟩
      · rw [isRead_outline, hUnread.1]
      · rw [hReader]
        exact hUnread.2
      · rw [hReader]

end Inference

/-! ## Sequences of reports -/

namespace Outline

/-- Diagnostics do not matter to requires. -/
theorem early_report {o : Outline} {new : List Diagnostic} {name : String} {d : Diagnostic} :
    (o.report new).Early name d ↔ o.Early name d :=
  Iff.rfl

end Outline

end LuaShape
