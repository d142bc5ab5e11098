import LuaShape.Inference.Reader
import LuaShape.Proofs.Inference.Grounded
import LuaShape.Proofs.Inference.Report
import Mathlib.Data.List.Perm.Subperm

/-!
# What reading does, act by act

Reading a module is a sequence of acts: reports to the inference, declarations, notes, and
scopes that are entered and left.  Each act uses numbers of terms, tables, functions and
bindings that reading has *in hand*, because an earlier act handed them out.  A term that is
given to a name or to a field is out of hand from then on, so it is given only once.

`Flows` says of acts that each has in hand what it needs, and `Reads` of a step of reading
that it amounts to such acts, whatever the state it starts from.  An invariant of reading is
then an invariant of each act, and does not have to be carried through the syntax again.
-/

namespace LuaShape

open List

/-- Something that reading has in hand. -/
inductive Item where
  | term (id : TermId)
  | table (id : TableId)
  | function (id : FunctionId)
  | symbol (id : SymbolId)
deriving DecidableEq

/-- A step in which the state of reading changes. -/
inductive Act where
  /-- Tell the inference. -/
  | tell (report : Report)
  /-- Make a table and a term for it. -/
  | construct
  /-- Make a term for a later slot of another one. -/
  | further (slot : Nat) (first : TermId)
  /-- Declare a name in the current scope. -/
  | bind (kind : SymbolKind) (name : String)
  | note (node slot : Nat) (id : TermId)
  | enter (id : FunctionId)
  | exit
  | nest
  | leave

/-- What a report is about. -/
def Report.items : Report → List Item
  | .term t => t.parts.map .term ++ (match t with
      | .literal (.function id) => [.function id]
      | _ => [])
  | .receiver id base => [.function id, .term base]
  | .parameters id _ _ _ | .functionEnd id => [.function id]
  | .moduleLevel symbol => [.symbol symbol]
  | .selfValue symbol value | .object _ symbol value => [.symbol symbol, .term value]
  | .assignment target value _ => [.term target, .term value]
  | .entry id _ value _ => [.table id, .term value]
  | .returned _ _ id | .call id => [.term id]
  | .method base _ id _ => [.term base, .function id]
  | .use _ _ | .binding _ _ | .table _ | .function _ | .require _ => []

namespace Act

/-- What an act makes of the state of reading. -/
def run (r : Reading) : Act → Reading
  | .tell report => { r with inference := r.inference.tell report }
  | .construct => { r with
      inference := (r.inference.tell (.table "table")).tell
        (.term (.literal (.table ⟨r.inference.registry.size⟩))) }
  | .further slot first => { r with
      inference := r.inference.tell (.term (Read.atSlot slot (r.inference.term first))) }
  | .bind kind name => { r with
      scope := r.scope.bind name ⟨r.inference.registry.size⟩
      inference := r.inference.tell (.binding kind name) }
  | .note node slot id => { r with lowered := ((node, slot), id) :: r.lowered }
  | .enter id => { r with scope := r.scope.pushFunction id, frames := id :: r.frames }
  | .exit => { r with frames := r.frames.tail }
  | .nest => { r with scope := r.scope.pushBlock }
  | .leave => { r with scope := r.scope.pop }

/-- What an act needs is in hand.  The parts of a term in hand may be used, and the names of
the scopes may be referred to. -/
def Fits (hand : List Item) (r : Reading) : Act → Prop
  | .tell (.binding _ _) | .tell (.table _) => False
  | .tell (.use id _) => .term id ∈ hand ∨ ∃ v, .term v ∈ hand ∧ id ∈ (r.inference.term v).parts
  | .tell (.term t) => (∀ item ∈ (Report.term t).items, item ∈ hand) ∧
      (∀ x, t ≠ .literal (.table x)) ∧
      ∀ symbol, t = .reference (.bound symbol) →
        .symbol symbol ∈ hand ∨ ∃ name, r.scope.lookup? name = some symbol
  | .tell report => ∀ item ∈ report.items, item ∈ hand
  | .further _ id | .note _ _ id => .term id ∈ hand
  | .enter id => .function id ∈ hand
  | .construct | .bind _ _ | .exit | .nest | .leave => True

/-- What an act puts out of hand. -/
def taken? : Act → Option Item
  | .tell (.object _ _ value) | .tell (.assignment _ value _) | .tell (.entry _ _ value _) =>
    some (.term value)
  | _ => none

/-- What an act hands out. -/
def given (r : Reading) : Act → List Item
  | .tell (.term _) | .further _ _ => [.term ⟨r.inference.terms.size⟩]
  | .tell (.function _) => [.function ⟨r.inference.registry.size⟩]
  | .tell (.object function symbol value) =>
    [.term (r.inference.addBuiltObject function symbol value).1]
  | .construct => [.term ⟨r.inference.terms.size⟩, .table ⟨r.inference.registry.size⟩]
  | .bind _ _ => [.symbol ⟨r.inference.registry.size⟩]
  | _ => []

/-- What an act leaves in hand. -/
def rest (before : List Item) (d : Act) : List Item :=
  match d.taken? with
  | some item => before.erase item
  | none => before

/-- What is in hand after an act. -/
def hand (before : List Item) (r : Reading) (d : Act) : List Item := d.given r ++ d.rest before

/-- The node and the slot that an act notes a term for. -/
def noted? : Act → Option (Nat × Nat)
  | .note node slot _ => some (node, slot)
  | _ => none

theorem Fits.mono {hand hand' : List Item} {r : Reading} {d : Act} (h : d.Fits hand r)
    (hSub : hand ⊆ hand') : d.Fits hand' r := by
  unfold Fits at h ⊢
  split at h
  · exact h
  · exact h
  · exact h.imp (fun h => hSub h) fun ⟨v, hv, hPart⟩ => ⟨v, hSub hv, hPart⟩
  · exact ⟨fun item hItem => hSub (h.1 item hItem), h.2.1, fun symbol hTerm =>
      (h.2.2 symbol hTerm).imp_left fun h => hSub h⟩
  · exact fun item hItem => hSub (h item hItem)
  · exact hSub h
  · exact hSub h
  · exact hSub h
  all_goals trivial

theorem rest_sublist (before : List Item) (d : Act) : (d.rest before).Sublist before := by
  rw [rest]
  split
  · exact erase_sublist
  · exact .refl _

theorem hand_mono {before before' : List Item} (h : before.Subperm before') (r : Reading)
    (d : Act) : (d.hand before r).Subperm (d.hand before' r) := by
  refine (subperm_append_left _).2 ?_
  rw [rest, rest]
  split
  · exact h.erase _
  · exact h

end Act

/-- The state of reading after some acts. -/
def Reading.after (r : Reading) (acts : List Act) : Reading := acts.foldl Act.run r

/-- Each of some acts has in hand what it needs, and in the end something is in hand. -/
def Flows : List Item → Reading → List Act → List Item → Prop
  | hand, _, [], left => left.Subperm hand
  | hand, r, d :: acts, left => d.Fits hand r ∧ Flows (d.hand hand r) (d.run r) acts left

namespace Flows

variable {hand hand' left left' : List Item} {r : Reading} {acts acts' : List Act}

theorem mono (h : Flows hand r acts left) (hSub : hand.Subperm hand') :
    Flows hand' r acts left := by
  induction acts generalizing hand hand' r with
  | nil => exact List.Subperm.trans h hSub
  | cons d acts ih => exact ⟨h.1.mono hSub.subset, ih h.2 (d.hand_mono hSub r)⟩

theorem append (h : Flows hand r acts left) (h' : Flows left (r.after acts) acts' left') :
    Flows hand r (acts ++ acts') left' := by
  induction acts generalizing hand r with
  | nil => exact h'.mono h
  | cons d acts ih => exact ⟨h.1, ih h.2 h'⟩

theorem weaken (h : Flows hand r acts left) (hSub : left'.Subperm left) :
    Flows hand r acts left' := by
  have hEnd : Flows hand r (acts ++ []) left' := h.append hSub
  rwa [append_nil] at hEnd

end Flows

namespace Read

theorem run_bind {α β : Type} (x : Read α) (f : α → Read β) (r : Reading) :
    (x >>= f).run r = (f (x.run r).1).run (x.run r).2 := rfl

theorem run_get_bind {α : Type} (f : Reading → Read α) (r : Reading) :
    (get >>= f).run r = (f r).run r := rfl

/-- From every state a step amounts to acts with what is in hand.  Behind it something else is
in hand, which depends on its answer, and under each number at most as many terms are noted for
a slot as it is listed. -/
def Reads (slot : Nat) (hand : List Item) (nodes : List Nat) {α : Type} (x : Read α)
    (left : α → List Item) : Prop :=
  ∀ r, ∃ acts, (x.run r).2 = r.after acts ∧ Flows hand r acts (left (x.run r).1) ∧
    ∀ node, (acts.filterMap Act.noted?).count (node, slot) ≤ nodes.count node

namespace Reads

variable {slot : Nat} {hand hand' : List Item} {nodes nodes' : List Nat} {α β : Type} {x : Read α}
  {f : α → Read β} {left : α → List Item} {left' : β → List Item}

theorem pure {a : α} (h : (left a).Subperm hand) : Reads slot hand [] (pure a : Read α) left :=
  fun _ => ⟨[], rfl, h, by simp⟩

theorem bind (hx : Reads slot hand nodes x left)
    (hf : ∀ a, Reads slot (left a) nodes' (f a) left') :
    Reads slot hand (nodes ++ nodes') (x >>= f) left' := by
  intro r
  obtain ⟨acts, hRun, hFlows, hNoted⟩ := hx r
  obtain ⟨acts', hRun', hFlows', hNoted'⟩ := hf (x.run r).1 (x.run r).2
  refine ⟨acts ++ acts', ?_, hFlows.append (hRun ▸ hFlows'), fun node => ?_⟩
  · rw [Reading.after, foldl_append, ← Reading.after, ← Reading.after, ← hRun]
    exact hRun'
  · rw [filterMap_append, count_append, count_append]
    exact Nat.add_le_add (hNoted node) (hNoted' node)

theorem get_bind {f : Reading → Read β} (hf : ∀ r, Reads slot hand nodes (f r) left') :
    Reads slot hand nodes (get >>= f) left' :=
  fun r => hf r r

theorem ite {c : Prop} [Decidable c] {y : Read α} (hx : Reads slot hand nodes x left)
    (hy : Reads slot hand nodes y left) : Reads slot hand nodes (if c then x else y) left := by
  split
  · exact hx
  · exact hy

/-- More numbers may be listed. -/
theorem mono (h : Reads slot hand nodes x left)
    (hLe : ∀ node, nodes.count node ≤ nodes'.count node) : Reads slot hand nodes' x left := by
  intro r
  obtain ⟨acts, hRun, hFlows, hNoted⟩ := h r
  exact ⟨acts, hRun, hFlows, fun node => Nat.le_trans (hNoted node) (hLe node)⟩

/-- More may be in hand, and less may be left. -/
theorem adapt {left' : α → List Item} (h : Reads slot hand nodes x left)
    (hHand : hand.Subperm hand') (hLeft : ∀ a, (left' a).Subperm (left a)) :
    Reads slot hand' nodes x left' := by
  intro r
  obtain ⟨acts, hRun, hFlows, hNoted⟩ := h r
  exact ⟨acts, hRun, (hFlows.mono hHand).weaken (hLeft _), hNoted⟩

theorem weaken {left' : α → List Item} (h : Reads slot hand nodes x left)
    (hLeft : ∀ a, (left' a).Subperm (left a)) : Reads slot hand nodes x left' :=
  h.adapt (.refl _) hLeft

/-- A step behind that notes nothing. -/
theorem trail (hx : Reads slot hand nodes x left) (hf : ∀ a, Reads slot (left a) [] (f a) left') :
    Reads slot hand nodes (x >>= f) left' :=
  (hx.bind hf).mono fun node => by simp

/-- A single act that notes nothing. -/
theorem act (d : Reading → Act) (hRun : ∀ r, (x.run r).2 = (d r).run r)
    (hFits : ∀ r, (d r).Fits hand r) (hLeft : ∀ r, (left (x.run r).1).Subperm ((d r).hand hand r))
    (hNoted : ∀ r, (d r).noted? = none) : Reads slot hand [] x left :=
  fun r => ⟨[d r], hRun r, ⟨hFits r, hLeft r⟩, by simp [hNoted]⟩

end Reads

end Read

end LuaShape
