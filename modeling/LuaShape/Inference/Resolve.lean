import LuaShape.Inference.Usage

/-!
# The types of a term

The types of a term follow from its parts, from the definitions of the names in
it, from the fields of the tables it reaches and from the returns of the functions
and modules it calls and requires.  The rules are stated once, over any monad and
any way `types` of asking for the types of another term, so that the same rules
serve the memoizing resolver of this module and any other.

`resolve` ends on every state: a term that is asked for again while its types
are being computed has those found so far, and a chain of more than `maxDepth`
terms is cut off.
-/

namespace LuaShape.Inference

/-- The types of a literal.  A table that is an instance has the type of its
class. -/
def literalTypes (s : Inference) : Literal → TypeSet
  | .nil => .single .nil
  | .boolean true => .single .true
  | .boolean false => .single .false
  | .number _ => .single .number
  | .string _ => .single .string
  | .function id => .single (.functionRef id)
  | .table id =>
    match (s.table? id).bind TableRecord.instanceOf with
    | some owner => .of [.tableRef owner, .instanceMark]
    | none => .single (.tableRef id)

/-- Whether a term is a scalar literal behind at most `limit - 1` negations. -/
def isConstantWithin (s : Inference) : (limit : Nat) → TermId → Bool
  | 0, _ => false
  | limit + 1, id =>
    match s.term id with
    | .literal (.table _) | .literal (.function _) => false
    | .literal _ => true
    | .operation (.unary .not) (operand :: _) => isConstantWithin s limit operand
    | _ => false

/-- Whether a term is a scalar literal, possibly negated with `not`. -/
def isConstant (s : Inference) (id : TermId) : Bool := s.isConstantWithin s.terms.size id

section Rules

variable {m : Type → Type} [Monad m]

/-- The union of the types of several terms. -/
def unionOf (types : TermId → m TypeSet) : List TermId → m TypeSet
  | [] => pure .empty
  | id :: rest => do
      let first ← types id
      let others ← unionOf types rest
      pure (first.union others)

/-- The values of those definitions that no derived class has taken the place
of. -/
def standing (s : Inference) (defs : List Definition) : List Definition :=
  defs.filter fun d => !s.isSuperseded d.value

/-- The types that definitions of a name give it.  A definition made through an
instance makes the tables it names instances. -/
def definedTypes (types : TermId → m TypeSet) : List Definition → m TypeSet
  | [] => pure .empty
  | d :: rest => do
      let found ← types d.value
      let others ← definedTypes types rest
      let marked := if d.onInstance && !found.tables.isEmpty then found.insert .instanceMark else found
      pure (marked.union others)

/-- The types of a name: those of all its definitions.  A name visible outside
functions that is given values only inside functions may still be unset. -/
def identRule (s : Inference) (types : TermId → m TypeSet) (ident : Ident) : m TypeSet := do
  let defs := s.definitionsOf ident
  let found ← definedTypes types (s.standing defs)
  let mayBeUnset := !defs.isEmpty && (s.standing defs).all Definition.inFunction &&
    s.isModuleLevel ident
  pure (if mayBeUnset then found.insert .nil else found)

/-- The types of a field: those of its definitions on every table the base may
be. -/
def fieldRule (s : Inference) (types : TermId → m TypeSet) (base : TermId) (key : String) :
    m TypeSet := do
  let owners ← types base
  unionOf types (owners.tables.flatMap fun owner =>
    (s.standing (s.fieldDefinitions owner key)).map Definition.value)

/-- The types of a value returned by a module. -/
def requireRule (s : Inference) (types : TermId → m TypeSet) (target : Option String)
    (slot : Nat) : m TypeSet :=
  let defs := ((target.bind s.moduleNamed?).bind fun record => record.returns[slot]?).getD []
  unionOf types (defs.map Definition.value)

/-- The types of `a and b`: those of `a` that are false, and those of `b` if `a`
can be true. -/
def andRule (types : TermId → m TypeSet) (left right : TermId) : m TypeSet := do
  let first ← types left
  match first.truthiness with
  | some true => types right
  | some false => pure first
  | none => do
      let second ← types right
      pure (first.falsyPart.union second)

/-- The types of `a or b`: those of `a` that are true, and those of `b` if `a`
can be false. -/
def plainOrRule (types : TermId → m TypeSet) (left right : TermId) : m TypeSet := do
  let first ← types left
  match first.truthiness with
  | some true => pure first
  | some false => types right
  | none => do
      let second ← types right
      pure (first.truthyPart.union second)

/-- The types of `c and a or b`: those of `a` that are true unless `c` is false,
and those of `b` unless both `c` and `a` are true. -/
def choiceRule (types : TermId → m TypeSet) (condition consequent alternative : TermId) :
    m TypeSet := do
  let test := (← types condition).truthiness
  let chosen ← types consequent
  let kept := if test = some false then .empty else chosen.truthyPart
  if test = some true && chosen.truthiness = some true then pure kept
  else do
    let other ← types alternative
    pure (kept.union other)

/-- The types of `a or b`, where `a` may be a choice. -/
def orRule (s : Inference) (types : TermId → m TypeSet) (left right : TermId) : m TypeSet :=
  match s.term left with
  | .operation (.binary .and) (condition :: consequent :: _) =>
    choiceRule types condition consequent right
  | _ => plainOrRule types left right

/-- The types of a negation: known for constants only, since a name may change
between tests. -/
def notRule (s : Inference) (types : TermId → m TypeSet) (operand : TermId) : m TypeSet :=
  if s.isConstant operand then do
    match (← types operand).truthiness with
    | some true => pure (.single .false)
    | some false => pure (.single .true)
    | none => pure (.single .boolean)
  else pure (.single .boolean)

/-- What a standard function returns, unless the project defines a function of
that name. -/
def standardCall? (s : Inference) (types : TermId → m TypeSet) (callee : TermId)
    (args : List TermId) (slot : Nat) : Option (m TypeSet) :=
  match s.term callee with
  | .reference (.global name) =>
    if slot ≠ 0 || !(s.definitionsOf (.global name)).isEmpty then none
    else if name = "tonumber" then some (pure (.of [.number, .nil]))
    else if name = "tostring" || name = "type" then some (pure (.single .string))
    else if name = "setmetatable" then
      some (match args with
        | object :: _ => types object
        | [] => pure .empty)
    else none
  | _ => none

/-- What a function returns at a slot.  A constructor returns an instance of its
class first. -/
def returnRule (s : Inference) (types : TermId → m TypeSet) (id : FunctionId) (slot : Nat) :
    m TypeSet :=
  match s.function? id with
  | none => pure .empty
  | some record =>
    match record.constructs, slot with
    | some owner, 0 => pure (.of [.tableRef owner, .instanceMark])
    | _, _ => unionOf types (record.returns[slot]?.getD [])

/-- The types of a call: what a standard function returns, or else the one
function that the callee names. -/
def callRule (s : Inference) (types : TermId → m TypeSet) (callee : TermId) (args : List TermId)
    (slot : Nat) : m TypeSet :=
  match s.standardCall? types callee args slot with
  | some answer => answer
  | none => do
      match (← types callee).singleFunction? with
      | some id => s.returnRule types id slot
      | none => pure .empty

/-- The types of an operation. -/
def operationRule (s : Inference) (types : TermId → m TypeSet) : Operator → List TermId → m TypeSet
  | .binary op, left :: right :: _ =>
    match op with
    | .and => andRule types left right
    | .or => s.orRule types left right
    | .concat => pure (.single .string)
    | op => pure (.single (if op.isComparison then .boolean else .number))
  | .binary _, _ => pure .empty
  | .unary .not, operand :: _ => s.notRule types operand
  | .unary .not, [] => pure (.single .boolean)
  | .unary _, _ => pure (.single .number)
  | .call slot, callee :: args => s.callRule types callee args slot
  | .call _, [] => pure .empty

/-- The types of a term before its uses are taken into account. -/
def termRule (s : Inference) (types : TermId → m TypeSet) : Term → m TypeSet
  | .literal value => pure (s.literalTypes value)
  | .reference ident => s.identRule types ident
  | .member base name => s.fieldRule types base name
  | .index base key =>
    match s.terms.fieldKey? key with
    | some name => s.fieldRule types base name
    | none => pure .empty
  | .require _ target slot => s.requireRule types target slot
  | .operation op operands => s.operationRule types op operands
  | .vararg => pure .empty

end Rules

/-- The types found so far for the terms asked for in one resolution.  A term in
progress has the empty set. -/
abbrev Seen := OrderedMap TermId TypeSet

/-- The number of terms in the longest chain that is followed. -/
def maxDepth : Nat := 201

/-- The types of a term, following chains of at most `depth` terms. -/
def typesWithin (s : Inference) : (depth : Nat) → TermId → StateM Seen TypeSet
  | 0, id => do
      let seen ← get
      pure ((seen.find? id).getD .empty)
  | depth + 1, id => do
      let seen ← get
      match seen.find? id with
      | some found => pure found
      | none => do
          modify fun seen => seen.insert id .empty
          let raw ← s.termRule (s.typesWithin depth) (s.term id)
          let narrowed := s.narrow id raw
          modify fun seen => seen.insert id narrowed
          pure narrowed

/-- The types of a term. -/
def resolve (s : Inference) (id : TermId) : TypeSet := (s.typesWithin maxDepth id |>.run .empty).1

/-- The types of a name. -/
def identTypes (s : Inference) (ident : Ident) : TypeSet :=
  s.narrowUnder (.ident ident) (s.identRule (s.typesWithin maxDepth) ident |>.run .empty).1

/-- The one table a term stands for, or its class if it is an instance. -/
def classTable? (s : Inference) (id : TermId) : Option TableId :=
  (s.resolve id).singleTable?.map s.classOrSelf

end LuaShape.Inference
