import LuaGraph.Proofs.Scoping.Agreement
import LuaGraph.Proofs.Scoping.Visits

/-!
# Names are resolved as they are written

Whether a name is a local variable is decided twice: when a text is parsed, from the names that were
declared in the blocks and functions that are open (`is_local`), and when it is run, from one stack
of scopes (`lookup`, `assign`). A function runs only where it is written, so both come to the same.

The parser's decision is noted in the tree (`Noted.parse`), and a run of this tree keeps a record of
the names that it comes to, with the scopes that are open then (`Noted.record`).

Headline: **`names_resolve_lexically`**.
-/

namespace LuaGraph.Chunk

open Noted Run

namespace Noted

/-- What a run with a record does to the machine. -/
def plain {ε α : Type} : EStateM.Result ε Recorder α → EStateM.Result ε Machine α
  | .ok a t => .ok a t.toMachine
  | .error e t => .error e t.toMachine

/-- **A chunk whose notes are right is run with a record as without**, and all names in the record
are resolved rightly. -/
theorem record_resolves {tree : List Stat} (h : ∀ o ∈ occurrences tree, o.Right) (heap : Heap)
    (environment : TableId) :
    plain (record tree { heap, environment }) =
        Chunk.execAll (eraseBody tree) { heap, environment } ∧
      ∀ v ∈ (left (record tree { heap, environment })).visits, v.Resolves (occurrences tree) := by
  have hsound : Sound (occurrences tree) [⟨tree, []⟩]
      { heap, environment, running := [tree] } :=
    ⟨.cons (fits_locals tree []) .nil, rfl, List.forall_mem_nil _⟩
  have hfollows := follows_execAll ⟨tree, []⟩ [] tree fun o ho => ⟨ho, h o ho⟩
  unfold record
  rcases hfollows _ hsound with ⟨a, t, hrecord, hplain, hsound⟩ | ⟨e, t, hrecord, hplain, hvisits⟩
  · rw [hrecord]
    exact ⟨hplain.symm, hsound.visits⟩
  · rw [hrecord]
    exact ⟨hplain.symm, hvisits⟩

end Noted

/-- **Names are resolved as they are written.** A text that is parsed is parsed with notes to the
same tree. In it a name is noted to be known exactly if a block around it has declared it before. In
a run of the chunk each name that is evaluated or assigned to is one of those in the tree; the open
scopes are those of the blocks around it; it is found in them exactly if it was known, and then in
that of the innermost block which has declared it before. Statements and blocks leave as many scopes
open as there were, whether they fail or not. -/
theorem names_resolve_lexically {limits : Limits} {text : String} {body : List Chunk.Stat}
    (h : parse limits text = .ok body) :
    ∃ tree, Noted.parse limits text = .ok tree ∧ eraseBody tree = body ∧
      (∀ o ∈ occurrences tree, o.Right) ∧
      (∀ (heap : Heap) (environment : TableId),
        plain (record tree { heap, environment }) = execAll body { heap, environment } ∧
        ∀ v ∈ (left (record tree { heap, environment })).visits,
          v.Resolves (occurrences tree)) ∧
      (∀ s : Chunk.Stat, Level s.exec) ∧
      ∀ (locals : Scope) (block : List Chunk.Stat), Level (inScope locals (execAll block)) := by
  have hparse := map_eraseBody_parse limits text
  cases htree : Noted.parse limits text with
  | error e =>
    rw [htree, h] at hparse
    cases hparse
  | ok tree =>
    rw [htree, h] at hparse
    cases hparse
    have hright := right_of_resolved (resolved_of_parse htree)
    exact ⟨tree, rfl, rfl, hright, fun heap environment => record_resolves hright heap environment,
      level_exec, fun locals block => (level_execAll block).inScope locals⟩

/-- A variable that another one of its name hides in a block, a loop, and a function that is called
where it is written. -/
def hidingText : String :=
  "local a = 1\ndo local a = a b = a end\nfor i = 1, 2 do a = i end\n" ++
    "(function() local c = a c = b end)()"

/-- The names that a run comes to, with the scopes in which they are found, counted outwards. -/
def namesFound (tree : List Noted.Stat) : List (String × Option Nat) :=
  (left (record tree { heap := (Heap.empty.add .empty).2, environment := 0 })).visits.reverse.map
    fun v => (v.name, v.scopes.findIdx? fun scope => (scope.lookup v.name).isSome)

theorem names_resolve_lexically_hiding :
    ∃ tree, Noted.parse {} hidingText = .ok tree ∧
      namesFound tree = [("a", some 1), ("a", some 0), ("b", none), ("i", some 0), ("a", some 1),
        ("i", some 0), ("a", some 1), ("a", some 1), ("b", none), ("c", some 0)] ∧
      ∀ (heap : Heap) (environment : TableId),
        ∀ v ∈ (left (record tree { heap, environment })).visits,
          v.Resolves (occurrences tree) := by
  have hrun : (Noted.parse {} hidingText).map namesFound =
      .ok [("a", some 1), ("a", some 0), ("b", none), ("i", some 0), ("a", some 1),
        ("i", some 0), ("a", some 1), ("a", some 1), ("b", none), ("c", some 0)] := by
    decide +kernel
  have hparse := map_eraseBody_parse {} hidingText
  cases htree : Noted.parse {} hidingText with
  | error e =>
    rw [htree] at hrun
    cases hrun
  | ok tree =>
    rw [htree] at hrun hparse
    obtain ⟨tree', htree', -, -, hresolves, -⟩ := names_resolve_lexically hparse.symm
    cases htree.symm.trans htree'
    exact ⟨tree, rfl, Except.ok.inj hrun, fun heap environment => (hresolves heap environment).2⟩

end LuaGraph.Chunk
