import LuaShape.Proofs.Chunk.Consumed

/-!
# The numbers of a tree

Numbers are given out in the order in which `parts` lists a tree, without a gap
(`Chunk.numbers_of_parse`).  A part and all that is inside it stand together in that list
(`Node.Together`), so the numbers of what is inside an expression are those just before its
own, and the numbers of the block of a function those just behind the number of the function.
-/

namespace LuaShape

open List

namespace Node

/-- A part and the parts inside it. -/
def parts : Node → List Node
  | .expr e => e.parts
  | .field f => f.parts
  | .function body => body.parts
  | .block body => body.parts
  | .statement s => s.parts

/-- Each part stands together with the parts inside it. -/
def Together (nodes : List Node) : Prop := ∀ n ∈ nodes, n.parts <:+: nodes

variable {nodes nodes' : List Node} {n : Node}

theorem Together.nil : Together [] := by simp [Together]

theorem Together.append (h : Together nodes) (h' : Together nodes') :
    Together (nodes ++ nodes') := by
  intro n hn
  rcases mem_append.1 hn with hn | hn
  · exact (h n hn).trans (prefix_append nodes nodes').isInfix
  · exact (h' n hn).trans (suffix_append nodes nodes').isInfix

/-- A part that comes behind what is inside it. -/
theorem Together.complete (h : Together nodes) (hParts : n.parts = nodes ++ [n]) :
    Together n.parts := by
  intro n' hn'
  rw [hParts, mem_append, mem_singleton] at hn'
  rcases hn' with hn' | rfl
  · rw [hParts]
    exact (h n' hn').trans (prefix_append nodes [n]).isInfix
  · exact infix_refl _

/-- A part that comes before what is inside it. -/
theorem Together.precede (h : Together nodes) (hParts : n.parts = n :: nodes) :
    Together n.parts := by
  intro n' hn'
  rw [hParts, mem_cons] at hn'
  rcases hn' with rfl | hn'
  · exact infix_refl _
  · rw [hParts]
    exact (h n' hn').trans (suffix_cons n nodes).isInfix

/-- The numbers of parts that stand together in a list. -/
theorem sublist_numbers (h : nodes <:+: nodes') : (numbers nodes).Sublist (numbers nodes') :=
  h.sublist.filterMap number?

end Node

open Node (Together)

theorem Expr.together_of {e : Expr} (h : Together e.inside) : Together e.parts :=
  Together.complete (n := .expr e) h e.parts_eq

theorem Field.together_of {f : Field} {nodes : List Node} (h : Together nodes)
    (hParts : f.parts = nodes ++ [.field f]) : Together f.parts :=
  Together.complete (n := .field f) h hParts

theorem Stmt.together_of {s : Stmt} {nodes : List Node} (h : Together nodes)
    (hParts : s.parts = nodes ++ [.statement s]) : Together s.parts :=
  Together.complete (n := .statement s) h hParts

mutual

theorem Expr.together_parts : (e : Expr) → Together e.parts
  | .nil _ | .boolean _ _ | .number _ _ | .string _ _ | .vararg _ | .name _ _ =>
    Expr.together_of .nil
  | .function _ body => Expr.together_of body.together_parts
  | .table _ fields => Expr.together_of (together_fieldParts fields)
  | .member _ object _ => Expr.together_of object.together_parts
  | .index _ object key => Expr.together_of (object.together_parts.append key.together_parts)
  | .call _ callee args =>
    Expr.together_of (callee.together_parts.append (together_exprParts args))
  | .methodCall _ object _ args =>
    Expr.together_of (object.together_parts.append (together_exprParts args))
  | .binary _ _ left right => Expr.together_of (left.together_parts.append right.together_parts)
  | .unary _ _ operand => Expr.together_of operand.together_parts
  | .paren _ inner => Expr.together_of inner.together_parts

theorem together_exprParts : (es : List Expr) → Together (exprParts es)
  | [] => .nil
  | e :: rest => e.together_parts.append (together_exprParts rest)

theorem Field.together_parts : (f : Field) → Together f.parts
  | .named _ value | .positional value => Field.together_of value.together_parts rfl
  | .keyed key value =>
    Field.together_of (key.together_parts.append value.together_parts) (by simp [Field.parts])

theorem together_fieldParts : (fields : List Field) → Together (fieldParts fields)
  | [] => .nil
  | f :: rest => f.together_parts.append (together_fieldParts rest)

theorem FunctionBody.together_parts : (body : FunctionBody) → Together body.parts
  | .mk id params isVararg body span =>
    Together.precede (n := .function (.mk id params isVararg body span)) body.together_parts rfl

theorem Block.together_parts : (body : Block) → Together body.parts
  | .mk statements span =>
    Together.complete (n := .block (.mk statements span)) (together_stmtParts statements) rfl

theorem together_stmtParts : (ss : List Stmt) → Together (stmtParts ss)
  | [] => .nil
  | s :: rest => s.together_parts.append (together_stmtParts rest)

theorem Stmt.together_parts : (s : Stmt) → Together s.parts
  | .localVars _ _ values | .returnValues _ values => Stmt.together_of (together_exprParts values) rfl
  | .assign _ targets values =>
    Stmt.together_of ((together_exprParts targets).append (together_exprParts values))
      (by simp [Stmt.parts])
  | .call _ e => Stmt.together_of e.together_parts rfl
  | .doBlock _ body => Stmt.together_of body.together_parts rfl
  | .whileLoop _ condition body =>
    Stmt.together_of (condition.together_parts.append body.together_parts) (by simp [Stmt.parts])
  | .repeatLoop _ body condition =>
    Stmt.together_of (body.together_parts.append condition.together_parts) (by simp [Stmt.parts])
  | .ifElse _ clauses otherwise =>
    Stmt.together_of ((together_clauseParts clauses).append (together_otherwiseParts otherwise))
      (by simp [Stmt.parts])
  | .numericFor _ _ start limit step body =>
    Stmt.together_of (start.together_parts.append (limit.together_parts.append
      ((together_stepParts step).append body.together_parts))) (by simp [Stmt.parts])
  | .genericFor _ _ iterators body =>
    Stmt.together_of ((together_exprParts iterators).append body.together_parts)
      (by simp [Stmt.parts])
  | .function _ _ body | .localFunction _ _ body => Stmt.together_of body.together_parts rfl
  | .breakLoop _ | .goto _ _ | .label _ _ => Stmt.together_of .nil rfl

theorem together_clauseParts : (clauses : List Clause) → Together (clauseParts clauses)
  | [] => .nil
  | .mk condition body :: rest =>
    (condition.together_parts.append body.together_parts).append (together_clauseParts rest)

theorem together_otherwiseParts : (otherwise : Option Block) → Together (otherwiseParts otherwise)
  | none => .nil
  | some body => body.together_parts

theorem together_stepParts : (step : Option Expr) → Together (stepParts step)
  | none => .nil
  | some e => e.together_parts

end

namespace Chunk

variable {source : String} {chunk : Chunk}

/-- Numbers grow along the parts of each part of a chunk. -/
theorem pairwise_numbers_of_parse (h : parse source = .ok chunk) {n : Node} (hn : n ∈ chunk.parts) :
    (Node.numbers n.parts).Pairwise (· < ·) := by
  have hAll : (Node.numbers chunk.parts).Pairwise (· < ·) := by
    rw [numbers_of_parse h]
    exact pairwise_lt_range
  exact hAll.sublist (Node.sublist_numbers (chunk.block.together_parts n hn))

theorem lt_id_of_parse (h : parse source = .ok chunk) {e : Expr} (he : .expr e ∈ chunk.parts) :
    ∀ number ∈ Node.numbers e.inside, number < e.mark.id := by
  have hGrow := pairwise_numbers_of_parse h he
  rw [Node.parts, Expr.numbers_parts, pairwise_append] at hGrow
  exact fun number hNumber => hGrow.2.2 number hNumber e.mark.id (mem_singleton_self _)

theorem id_lt_of_parse (h : parse source = .ok chunk) {body : FunctionBody}
    (hBody : .function body ∈ chunk.parts) :
    ∀ number ∈ Node.numbers body.body.parts, body.id < number := by
  have hGrow := pairwise_numbers_of_parse h hBody
  obtain ⟨id, params, isVararg, block, span⟩ := body
  exact (pairwise_cons.1 hGrow).1

/-- **Numbers are dense and unique.**  The parts of a chunk that was read have different
numbers, which are those below `nodeCount`; an expression has a greater number than all that
is inside it, and a function a smaller one than all that is inside its block. -/
theorem numbers_dense_and_nested (h : parse source = .ok chunk) :
    (Node.numbers chunk.parts).Nodup ∧
    (∀ number, number ∈ Node.numbers chunk.parts ↔ number < chunk.nodeCount) ∧
    (∀ e, .expr e ∈ chunk.parts → ∀ number ∈ Node.numbers e.inside, number < e.mark.id) ∧
    ∀ body, .function body ∈ chunk.parts →
      ∀ number ∈ Node.numbers body.body.parts, body.id < number := by
  refine ⟨?_, fun number => ?_, fun e => lt_id_of_parse h, fun body => id_lt_of_parse h⟩
  · rw [numbers_of_parse h]
    exact nodup_range
  · rw [numbers_of_parse h, mem_range]

/-- A function inside an argument, inside a function. -/
def textOfNestedFunctions : String :=
  "function a.b:c(x) return f(-x, function() g\x7bx=1\x7d end) end"

set_option maxRecDepth 100000 in
theorem numbers_dense_and_nested_functions :
    ∃ chunk, parse textOfNestedFunctions = .ok chunk ∧ chunk.nodeCount = 11 ∧
      (Node.numbers chunk.parts).Nodup ∧
      (∀ number, number ∈ Node.numbers chunk.parts ↔ number < chunk.nodeCount) ∧
      (∀ e, .expr e ∈ chunk.parts → ∀ number ∈ Node.numbers e.inside, number < e.mark.id) ∧
      ∀ body, .function body ∈ chunk.parts →
        ∀ number ∈ Node.numbers body.body.parts, body.id < number := by
  have hCount : (parse textOfNestedFunctions).toOption.map Chunk.nodeCount = some 11 := by
    decide +kernel
  cases hParse : parse textOfNestedFunctions with
  | error e =>
      rw [hParse] at hCount
      cases hCount
  | ok chunk =>
      rw [hParse] at hCount
      exact ⟨chunk, rfl, Option.some.inj hCount, numbers_dense_and_nested hParse⟩

end Chunk

end LuaShape
