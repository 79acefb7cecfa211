import AriParti.L1Bounds.Split
import AriParti.L2Partitioner.Lines

/-!
# The partitioner on a problem

`paving` is the `Kernel` of the bounds, the propagation, the conversion and
the splits of `L1Bounds`: the process `machine (paving P pr im so) maxAlive`
is the partitioner on the problem `P`.
-/
namespace AriParti.L2
open AriParti.Core AriParti.L1

/-- What `context_t` does with the contents of a node, for the problem `P`. -/
def paving (P : Problem) (pr : Params) (im : IntervalManager) (so : Sorting) : Kernel where
  Content := Content
  Task := Task
  Candidates := List Nat
  blank := blank P
  noCandidates := []
  init c := c = initRoot P pr im
  propagate := Propagates P pr im
  inconsistent := Content.inconsistent
  convert := convertNodeToTask P so
  undefClauseNum := Task.undefClauseNum
  undefLitNum := Task.undefLitNum
  isEmpty t := t.clauses.isEmpty && t.varBounds.isEmpty
  branch := Branch P

end AriParti.L2
