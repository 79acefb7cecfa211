import AriParti.L3Coordinator.PrePartition

/-!
# A coordinator that solves

The loop of a coordinator: it reads the lines of its partitioner, looks at the
solvers of its tree, starts solvers for waiting nodes, and hands a node over
when the leader asks for one. What depends on times is open: how long a solver
runs before it is terminated on demand, and which nodes have run long enough
to be split.

The partitioner gets a line for each node that is refuted by its solver, handed
over or terminated, as long as it runs. No line goes out for a node that is
refuted with its children or with an ancestor, or by the partitioner.

An exception (a line that names no node of the tree, `Partitioner error`, a
failed assertion) ends the coordinator, and with it the run of this model.

## Layout

* `Coordinator` and its functions under their names.
* `distCoordinator`: the steps of the loop, in any order.
-/
namespace AriParti.L3
open AriParti.Core AriParti.L2

/-- mirrors src/src/partitioner.py:29-33 -/
inductive PartitionerStatus where
  | running | processDone | receiveDone
  deriving DecidableEq, Repr

/-- What a look at the solver of a node comes to (`check_subprocess_status`);
for one that is running, whether its time is up (the rest of `need_terminate`
but for the root). -/
inductive SolverOutcome where
  | running (timeUp : Bool) | sat | unsat | error
  deriving DecidableEq, Repr

/-- `Coordinator` with the status of its `Partitioner`, and the lines written
to the partitioner in this round. -/
structure Coordinator where
  status : CoordinatorStatus
  tree : ParallelTree
  result : NodeStatus
  partitioner : PartitionerStatus
  sent : List C2P

namespace ParallelTree

/-- What `select_split_node` comes to. -/
inductive Selection where
  | none
  | node (v : Nat)
  /-- `assert(len(current.children) == 2)` -/
  | notTwo
  /-- `assert((not lc.status.is_unsat()) or (not rc.status.is_unsat()))` -/
  | bothUnsat
  deriving DecidableEq, Repr

variable (t : ParallelTree)

/-- The loop of `select_split_node` (src/src/partition_tree.py:262-279), from
`current`; it has not ended when the fuel is used up. -/
def selectSplitLoop (ready : Nat → Bool) : Nat → Nat → Option Selection
  | 0, _ => Option.none
  | fuel + 1, current =>
    match (t.node current).children with
    | [] | [_] => some .none
    | [lc, rc] =>
      if (t.node lc).status.isUnsat && (t.node rc).status.isUnsat then some .bothUnsat
      else if (t.node lc).status.isUnsat then selectSplitLoop ready fuel rc
      else if (t.node rc).status.isUnsat then selectSplitLoop ready fuel lc
      else if ready lc && ready rc then some (.node rc)
      else some .none
    | _ => some .notTwo

/-- mirrors src/src/partition_tree.py:257-279; `ready` is
`satisfy_split_requirement` -/
def selectSplitNode (ready : Nat → Bool) (fuel : Nat) : Option Selection :=
  if t.size = 0 then some .none
  else if t.isDone then some .none
  else t.selectSplitLoop ready fuel 0

end ParallelTree

namespace Coordinator

/-- Between two rounds. -/
def idle : Coordinator := ⟨.idle, .empty, .unsolved, .receiveDone, []⟩

/-- mirrors src/src/coordinator.py:427-434 -/
def startSolving : Coordinator := ⟨.solving, .empty, .unsolved, .running, []⟩

variable (c : Coordinator)

/-- What the functions that `pre_partition` has in common see. -/
def reader : PrePartition := ⟨c.tree, c.result, [], .loop⟩

def isDone : Bool := c.reader.isDone

def afterIsDone : Coordinator :=
  { c with result := c.reader.afterIsDone.result }

/-- mirrors src/src/coordinator.py:150-191; `none` for an exception -/
def processPartitionerMsg (l : PrePartition.Line) : Option Coordinator :=
  (c.reader.processPartitionerMsg l).map fun s => { c with tree := s.tree, result := s.result }

/-- mirrors src/src/coordinator.py:264-271 -/
def sendPartitionerMessage (line : C2P) : Coordinator :=
  if c.partitioner = .running then { c with sent := c.sent ++ [line] } else c

/-- mirrors src/src/coordinator.py:312-317 -/
def terminateNode (v : Nat) : Coordinator :=
  if (c.tree.node v).status.isEnded then c
  else { c with tree := c.tree.terminateNode v }.sendPartitionerMessage
    (.terminateNode (c.tree.node v).pid)

/-- mirrors src/src/coordinator.py:281-341; the root is not terminated on
demand -/
def checkSolvingStatus (v : Nat) (o : SolverOutcome) : Coordinator :=
  if (c.tree.node v).status.isSolving then
    match o with
    | .error => c.terminateNode v
    | .running timeUp => if timeUp && v != 0 then c.terminateNode v else c
    | .sat => { c with tree := (c.tree.modify v fun nd => { nd with assignTo := false }).nodeSolvedSat v
        }.afterIsDone
    | .unsat =>
      let c' := { c with tree := c.tree.solverUnsat v }.afterIsDone
      if c'.isDone then c' else c'.sendPartitionerMessage (.unsatNode (c.tree.node v).pid)
  else c

/-- The end of `check_solvings_status` (src/src/coordinator.py:373). -/
def keepSolvings (stillSolvings : List Nat) : Coordinator :=
  { c with tree := { c.tree with solvings := stillSolvings } }

/-- The loop of `set_node_split` over `v` and its ancestors. -/
def terminatePath : Nat → Coordinator → Nat → Coordinator
  | 0, c, _ => c
  | fuel + 1, c, v =>
    let c := c.terminateNode v
    match (c.tree.node v).parent with
    | none => c
    | some p => terminatePath fuel c p

/-- mirrors src/src/coordinator.py:464-471 -/
def setNodeSplit (v : Nat) : Coordinator :=
  let c := terminatePath (v + 1) c v
  { c with tree := c.tree.nodeSolvedUnsat v }.sendPartitionerMessage
    (.unsatNode (c.tree.node v).pid)

/-- What a coordinator does at a time. -/
inductive Action where
  /-- a node is received from another coordinator, and the round begins -/
  | startSolving
  /-- a line of the partitioner is read -/
  | line (l : PrePartition.Line)
  /-- the partitioner is found to have ended -/
  | processDone
  /-- all it has written is read -/
  | receiveDone
  /-- the solver of a node is looked at -/
  | check (v : Nat) (o : SolverOutcome)
  | keepSolvings
  | runWaitingTask
  /-- `process_split_message` with a node to split -/
  | split (v : Nat)
  /-- `solving_round_done` -/
  | roundDone
  deriving DecidableEq, Repr

/-- The steps of `interactive_solve` (src/src/coordinator.py:362-396,450-471,
576-591,597-647); `cores` is `available_cores`. -/
inductive Step (cores : Nat) : Coordinator → Action → Coordinator → Prop where
  | startSolving {c : Coordinator} : c.status = .idle →
      Step cores c .startSolving Coordinator.startSolving
  | line {c c' : Coordinator} {l : PrePartition.Line} : c.status = .solving →
      c.partitioner ≠ .receiveDone → c.reader.Allowed l →
      c.processPartitionerMsg l = some c' → Step cores c (.line l) c'
  | processDone {c : Coordinator} : c.status = .solving → c.partitioner = .running →
      Step cores c .processDone { c with partitioner := .processDone }
  | receiveDone {c : Coordinator} : c.status = .solving → c.partitioner = .processDone →
      Step cores c .receiveDone { c with partitioner := .receiveDone }
  | check {c : Coordinator} {v : Nat} (o : SolverOutcome) : c.status = .solving →
      v ∈ c.tree.solvings → Step cores c (.check v o) (c.checkSolvingStatus v o)
  /-- some of the nodes that are kept may have been refuted since their check -/
  | keepSolvings {c : Coordinator} {stillSolvings : List Nat} : c.status = .solving →
      stillSolvings.Sublist c.tree.solvings →
      (∀ v ∈ c.tree.solvings, (c.tree.node v).status = .solving → v ∈ stillSolvings) →
      Step cores c .keepSolvings (c.keepSolvings stillSolvings)
  | runWaitingTask {c : Coordinator} : c.status = .solving → c.tree.solvings.length < cores →
      Step cores c .runWaitingTask { c with tree := c.tree.runWaitingTask }
  | split {c : Coordinator} {ready : Nat → Bool} {fuel v : Nat} : c.status = .solving →
      c.tree.selectSplitNode ready fuel = some (.node v) →
      Step cores c (.split v) (c.setNodeSplit v)
  | roundDone {c : Coordinator} : c.status = .solving → c.isDone = true →
      Step cores c .roundDone { c.afterIsDone with status := .idle, tree := .empty }

end Coordinator

/-- A distributed coordinator. -/
def distCoordinator (cores : Nat) : LTS Coordinator Coordinator.Action where
  init c := c = .idle
  step := Coordinator.Step cores

end AriParti.L3
