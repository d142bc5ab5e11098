import LuaShape.Proofs.Inference.Resolved

/-!
# Both readers agree on what loading does

The effects of loading a chunk are read off the syntax with a list of the local names in
scope, and function bodies are skipped.  Reading the chunk as a module keeps a tree of scopes
and goes through function bodies too.  Both are compared with the walk by the rules of scope:
reading follows it, and what the walk enters into its account outside functions is what the
effects have (`Lexical.loads_ofChunk`).
-/

namespace LuaShape

open List

namespace Lexical

/-- What loading code with certain parts adds to an account: outside functions it assigns what
its effects write, if it is regular, and what it requires is among its effects or inside a
function. -/
structure LoadsTo (effects : Effects) (nodes : List Node) (before after : Account) : Prop where
  assigned : (∀ n ∈ nodes, n.isRegular = true) → ∀ name, (name, false) ∈ after.assigned ↔
    (name, false) ∈ before.assigned ∨ name ∈ effects.writes
  required : ∀ entry ∈ after.required, entry ∈ before.required ∨
    ModuleName.ofRequire entry.2.1 ∈ effects.requires ∨
    ∃ body, .function body ∈ nodes ∧ RequiredIn body.parts entry

theorem loads_ofChunk (chunk : Chunk) :
    LoadsTo (Effects.ofChunk chunk) chunk.parts {} (ofChunk chunk) := by
  have hTop : Place.Names {} [] := fun _ => Iff.rfl
  have hAdds := adds_ofBlock hTop chunk.block {}
  exact ⟨hAdds.writes rfl, hAdds.requires⟩

end Lexical

/-! ## Chunks -/

namespace Inference

theorem origins_beginModule (s : Inference) (name global : String) :
    (s.beginModule name).2.origins global = s.origins global := by
  show (s.register name).2.origins global = s.origins global
  rw [register]
  split <;> rfl

/-- **Both readers agree on what loading does**: where a parsed chunk is read as a module, a
global is given definitions, all by this module, behind those that it had; one of them is given
outside functions exactly if the effects of loading the chunk write the global.  And if the
term of an expression is a require, the module it names is among those that the effects
require, unless the expression stands in the body of a function. -/
theorem readers_agree_on_loading {source : String} {chunk : Chunk}
    (hParse : Chunk.parse source = .ok chunk) (s : Inference) (name : String) :
    (∀ global, ∃ given : List Bool,
      (s.readModule name chunk).origins global = s.origins global ++
        given.map (fun inFunction => ((s.readModule name chunk).current, inFunction)) ∧
      (false ∈ given ↔ global ∈ (Effects.ofChunk chunk).writes)) ∧
    ∀ entry ∈ (s.readThrough name chunk).lowered, ∀ argument target slot,
      (s.readModule name chunk).term entry.2 = .require argument target slot →
      (∀ body, .function body ∈ chunk.parts → entry.1.1 ∉ Node.numbers body.parts) →
      ModuleName.ofRequire argument ∈ (Effects.ofChunk chunk).requires := by
  obtain ⟨c, hAgrees⟩ := s.agrees_readThrough name chunk
  have hLoads := Lexical.loads_ofChunk chunk
  refine ⟨fun global => ?_, fun entry hEntry argument target slot hTerm hOutside => ?_⟩
  · refine ⟨((Lexical.ofChunk chunk).assigned.filter fun entry => entry.1 = global).map Prod.snd,
      ?_, ?_⟩
    · have hCurrent : (s.readModule name chunk).current = (s.beginModule name).2.current :=
        hAgrees.current_eq
      have hOrigins : (s.readModule name chunk).origins global = _ := hAgrees.assigned global
      rw [hOrigins, hCurrent, s.origins_beginModule name, map_map]
      rfl
    · have hWritten := hLoads.assigned (Chunk.isRegular_of_parse hParse) global
      simp only [not_mem_nil, false_or] at hWritten
      rw [← hWritten]
      simp
  · obtain ⟨inFunction, hRequired⟩ := hAgrees.required entry hEntry argument target slot hTerm
    rcases hLoads.required _ hRequired with hOld | hMem | ⟨body, hBody, hIn⟩
    · cases hOld
    · exact hMem
    · exact absurd hIn.mem_numbers (hOutside body hBody)

/-- A text that assigns and requires outside functions and inside them. -/
def textOfLoading : String :=
  "local f = 1\nf, g = 2, (require(\"b\"))\nfunction h() k = require(\"c\") end"

set_option maxRecDepth 100000 in
theorem readers_agree_on_loading_text :
    ∃ chunk, Chunk.parse textOfLoading = .ok chunk ∧
      (Effects.ofChunk chunk).writes.toList = ["g", "h"] ∧
      (Effects.ofChunk chunk).requires.toList = ["b"] ∧
      let s := (empty []).readModule "shared/a" chunk
      (∀ global, ∃ given : List Bool,
        s.origins global = (empty []).origins global ++
          given.map (fun inFunction => (s.current, inFunction)) ∧
        (false ∈ given ↔ global ∈ (Effects.ofChunk chunk).writes)) ∧
      ∀ entry ∈ ((empty []).readThrough "shared/a" chunk).lowered, ∀ argument target slot,
        s.term entry.2 = .require argument target slot →
        (∀ body, .function body ∈ chunk.parts → entry.1.1 ∉ Node.numbers body.parts) →
        ModuleName.ofRequire argument ∈ (Effects.ofChunk chunk).requires := by
  have hEffects : (Chunk.parse textOfLoading).toOption.map (fun chunk =>
      ((Effects.ofChunk chunk).writes.toList, (Effects.ofChunk chunk).requires.toList)) =
      some (["g", "h"], ["b"]) := by
    decide +kernel
  cases hParse : Chunk.parse textOfLoading with
  | error e =>
      rw [hParse] at hEffects
      cases hEffects
  | ok chunk =>
      rw [hParse] at hEffects
      obtain ⟨hWrites, hRequires⟩ := Prod.mk.inj (Option.some.inj hEffects)
      exact ⟨chunk, rfl, hWrites, hRequires,
        readers_agree_on_loading hParse (empty []) "shared/a"⟩

end Inference

/-- **Reading defines every global that a chunk assigns**, and notes the module. -/
theorem Inference.mem_origins_readThrough (s : Inference) (name : String) {chunk : Chunk}
    {g : String} (hg : g ∈ AssignedGlobals.ofChunk chunk) :
    ∃ inFunction, ((s.beginModule name).2.current, inFunction) ∈
      (s.readThrough name chunk).inference.origins g := by
  obtain ⟨c, hAgrees⟩ := s.agrees_readThrough name chunk
  have hTop : Lexical.Place.Names {} [] := fun _ => Iff.rfl
  obtain ⟨entry, hEntry, rfl⟩ :=
    mem_map.1 ((Lexical.adds_ofBlock hTop chunk.block {}).globals g hg)
  refine ⟨entry.2, ?_⟩
  rw [hAgrees.assigned]
  refine mem_append_right _ (mem_map.2 ⟨entry, ?_, rfl⟩)
  exact mem_filter.2 ⟨hEntry, by simp⟩

end LuaShape
