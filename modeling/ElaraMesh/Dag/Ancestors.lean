import ElaraMesh.Dag.Index
import ElaraMesh.Lib.Search

/-!
# The ancestors of a record

The parents of a record, their parents and so on are collected breadth first, to a depth.  For
requests from outside there is a second form, which also stops when a number of records was met and
then reports that it did.  Nothing is asked of the graph: parents may be missing from it, and there
may be cycles, so that a record can be among its own ancestors.

## Main results

* `ancestors_exact` — both return what is within the depth, unless the second one was stopped.
-/

namespace ElaraMesh.Dag

open Record (Str)

namespace DagIndex

variable [SetWalk Str]

def ancestors (s : DagIndex) (id : Str) (maxDepth : ℕ) : Finset Str :=
  (Search.search s.parents none maxDepth ∅ [(id, 0)]).1

/-- Also tells whether the search was stopped by the limit. -/
def ancestorsCapped (s : DagIndex) (id : Str) (maxDepth maxNodes : ℕ) : Finset Str × Bool :=
  Search.search s.parents (some maxNodes) maxDepth ∅ [(id, 0)]

end DagIndex

/-- **The search for ancestors is exact**: it returns the records between one and `maxDepth` steps
to parents away.  The form with a limit keeps it, and returns the same records if it was not
stopped. -/
theorem ancestors_exact [SetWalk Str] (s : DagIndex) (id : Str) (maxDepth maxNodes : ℕ) :
    (∀ x, x ∈ s.ancestors id maxDepth ↔
        ∃ n, 1 ≤ n ∧ n ≤ maxDepth ∧ Search.StepsIn s.parents id n x) ∧
      (s.ancestorsCapped id maxDepth maxNodes).1.card ≤ maxNodes ∧
      ((s.ancestorsCapped id maxDepth maxNodes).2 = false →
        (s.ancestorsCapped id maxDepth maxNodes).1 = s.ancestors id maxDepth) := by
  refine ⟨Search.mem_search_iff s.parents id maxDepth, Search.card_search_le (Nat.zero_le _), ?_⟩
  intro h
  exact congrArg Prod.fst (Search.search_eq_of_not_stopped h)

end ElaraMesh.Dag
