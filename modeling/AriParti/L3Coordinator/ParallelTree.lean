import AriParti.Core.Refutation
import AriParti.L2Partitioner.Context
import AriParti.L3Coordinator.Status

/-!
# The coordinator's tree of tasks

`ParallelTree` follows the partition tree of the coordinator's own
partitioner. A node is made for each line about a new node; its solver
process, its status and the queue of nodes to be solved are kept here. The
partitioner's numbers (`pid`) and the positions in `nodes` (`id`) differ.

Left out are times, counters and the percentages of the log. Nothing else
decides what happens to a node, except when it is terminated on demand or
chosen for a split, which are open to the steps of the coordinator.
-/
namespace AriParti.L3
open AriParti.Core AriParti.L2

/-- mirrors src/src/partition_tree.py:62-76,121-129; `assignTo` is set while a
solver process runs for the node -/
structure ParallelNode where
  pid : Nat
  parent : Option Nat
  children : List Nat
  status : NodeStatus
  assignTo : Bool
  deriving DecidableEq, Repr

/-- mirrors src/src/partition_tree.py:96-102,157-168; the root is node 0 -/
structure ParallelTree where
  size : Nat
  node : Nat → ParallelNode
  pid2node : Nat → Option Nat
  solvings : List Nat
  waitings : List Nat
  result : NodeStatus

namespace ParallelTree

/-- The entry of a number no node has yet. -/
def noNode : ParallelNode := ⟨0, none, [], .unsolved, false⟩

def empty : ParallelTree := ⟨0, fun _ => noNode, fun _ => none, [], [], .unsolved⟩

variable (t : ParallelTree)

def isDone : Bool := t.result.isSolved

def modify (v : Nat) (f : ParallelNode → ParallelNode) : ParallelTree :=
  { t with node := Function.update t.node v (f (t.node v)) }

/-- mirrors src/src/partition_tree.py:113-118 -/
def updateNodeStatus (v : Nat) (st : NodeStatus) : ParallelTree :=
  t.modify v fun nd => { nd with status := st }

/-- A new node below `parent` (an `id`). -/
def addNode (pid : Nat) (parent : Option Nat) : ParallelTree :=
  let t := match parent with
    | none => t
    | some p => t.modify p fun nd => { nd with children := nd.children ++ [t.size] }
  { t with
    size := t.size + 1
    node := Function.update t.node t.size ⟨pid, parent, [], .unsolved, false⟩
    pid2node := Function.update t.pid2node pid (some t.size) }

/-- mirrors src/src/partition_tree.py:186-198; `none` for the KeyError, and
for the parent is written `-1` -/
def makeNode (pid : Nat) : Option Nat → Option ParallelTree
  | none => some (t.addNode pid none)
  | some ppid => (t.pid2node ppid).map fun p => t.addNode pid (some p)

/-- mirrors src/src/partition_tree.py:281-291 -/
def propagateNodeUnsat (v : Nat) : ParallelTree :=
  t.modify v fun nd => { nd with status := .unsat, assignTo := false }

/-- The tree, marked where a node is unsat. -/
def tree : MarkedTree ParallelTree where
  size t := t.size
  parent t v := (t.node v).parent
  children t v := (t.node v).children
  marked t v := (t.node v).status.isUnsat
  mark v t := t.propagateNodeUnsat v
  size_mark _ _ := rfl
  parent_mark v t := by
    funext w
    simp only [propagateNodeUnsat, modify, Function.update_apply]
    split
    · rename_i h; rw [h]
    · rfl
  children_mark v t := by
    funext w
    simp only [propagateNodeUnsat, modify, Function.update_apply]
    split
    · rename_i h; rw [h]
    · rfl
  marked_mark v t w := by
    simp only [propagateNodeUnsat, modify, Function.update_apply]
    by_cases h : w = v <;> simp [h]

/-- `self.root.status.is_unsat()` -/
def rootUnsat : Bool := (t.node 0).status.isUnsat

/-- mirrors src/src/partition_tree.py:299-328; `can_reason_unsat` asks for two
children at least -/
def nodeSolvedUnsat (v : Nat) : ParallelTree :=
  let t := tree.pushUpFrom 2 (t.updateNodeStatus v .unsat) v
  if t.rootUnsat then { t with result := .unsat } else tree.pushDownFrom t v

/-- mirrors src/src/partition_tree.py:330-334 -/
def nodeSolvedSat (v : Nat) : ParallelTree :=
  { t.updateNodeStatus v .sat with result := .sat }

/-- mirrors src/src/partition_tree.py:221-229 -/
def terminateNode (v : Nat) : ParallelTree :=
  t.modify v fun nd => { nd with status := .terminated, assignTo := false }

/-- mirrors src/src/partition_tree.py:200-205: the next node to solve, and the
rest of the queue -/
def getNextWaitingNode : List Nat → Option (Nat × List Nat)
  | [] => none
  | v :: vs => if (t.node v).status.isUnsolved then some (v, vs) else getNextWaitingNode vs

/-- mirrors src/src/partition_tree.py:349-355 -/
def assignNode (v : Nat) : ParallelTree :=
  { t.modify v fun nd => { nd with status := .solving, assignTo := true } with
    solvings := t.solvings ++ [v] }

/-! ## What the coordinator does with it -/

def parentUnsat (v : Nat) : Bool :=
  match (t.node v).parent with
  | none => false
  | some p => (t.node p).status.isUnsat

/-- A line about a new node (mirrors src/src/coordinator.py:172-185). -/
def newNode : P2C → Option ParallelTree
  | .newUnsatNode pid ppid => (t.makeNode pid ppid).map fun t' => t'.nodeSolvedUnsat t.size
  | .newUnknownNode pid ppid => (t.makeNode pid ppid).map fun t' =>
    if t'.parentUnsat t.size then t'.nodeSolvedUnsat t.size
    else { t' with waitings := t'.waitings ++ [t.size] }

/-- mirrors src/src/coordinator.py:312-317 but for the line to the partitioner -/
def terminate (v : Nat) : ParallelTree :=
  if (t.node v).status.isEnded then t else t.terminateNode v

/-- The solver of `v` has answered unsat (src/src/coordinator.py:333-336). -/
def solverUnsat (v : Nat) : ParallelTree :=
  (t.modify v fun nd => { nd with assignTo := false }).nodeSolvedUnsat v

/-- The loop of `set_node_split`: `v` and its ancestors. Parents have smaller
numbers, so `v + 1` rounds are enough. -/
def terminatePath : Nat → ParallelTree → Nat → ParallelTree
  | 0, t, _ => t
  | fuel + 1, t, v =>
    let t := t.terminate v
    match (t.node v).parent with
    | none => t
    | some p => terminatePath fuel t p

/-- mirrors src/src/coordinator.py:464-471 but for the lines to the
partitioner, with src/src/partition_tree.py:236-239 -/
def setNodeSplit (v : Nat) : ParallelTree := (terminatePath (v + 1) t v).nodeSolvedUnsat v

/-- One round of `run_waiting_tasks` (src/src/coordinator.py:391-396). -/
def runWaitingTask : ParallelTree :=
  match t.getNextWaitingNode t.waitings with
  | none => { t with waitings := [] }
  | some (v, rest) => { t with waitings := rest }.assignNode v

end ParallelTree

end AriParti.L3
