import Mathlib.Logic.Function.Basic
import AriParti.Core.LTS
import AriParti.Core.Refutation

/-!
# The partitioner process

`context_t` keeps the partition tree and `subpaving_tactic::solve` calls it in
a loop: each call announces and splits the task made by the call before, reads
the lines of the coordinator, and makes the next task from the leaf with the
highest priority. After a call that returned `l_true` the tactic writes the
file of the new task.

What happens inside a node (bounds, propagation, conversion to a task, the
choice of the split) is the `Kernel`; here it is only known by its results.
The process is a labelled transition system: a call of `operator()` is cut at
the points where it reads a line, so a line of the coordinator may arrive
between any two of them.

Left out: the counters that only feed the score of `select_best_var`
(`m_unsolved_task_num`, `m_var_unsolved_split_cnt`, key ranks), debug output,
and the sleep while too many tasks are alive (it changes nothing).

## Layout

* `Kernel`, `Context`, and the functions of `context_t` on it under their
  names; `tree` is the partition tree as a `MarkedTree`.
* `Step`, `machine`: the calls and the lines read between them.
-/
namespace AriParti.L2
open AriParti.Core

/-- What `context_t` does with the contents of one node. -/
structure Kernel where
  /-- bounds, Boolean values, unit atoms and conflict of a node -/
  Content : Type
  /-- the clauses and bounds of a `task_info` -/
  Task : Type
  /-- `m_var_split_candidates` -/
  Candidates : Type
  /-- a root as its constructor leaves it -/
  blank : Content
  /-- before the first split -/
  noCandidates : Candidates
  /-- the root after `init()` -/
  init : Content → Prop
  /-- `propagate(n)`, wherever the time limit cuts it off -/
  propagate : Content → Content → Prop
  inconsistent : Content → Bool
  /-- `convert_node_to_task(n)`: `none` when it returns true -/
  convert : Content → Option Task
  undefClauseNum : Task → Nat
  undefLitNum : Task → Nat
  /-- no clause and no bound -/
  isEmpty : Task → Bool
  /-- `split_node` up to the two `mk_bound` calls: the children before their
  propagation, left and right, or `none` when no split variable is selected -/
  branch : Candidates → Content → Task → Candidates → Option (Content × Content) → Prop

/-- mirrors subpaving_t.h:847-852 -/
inductive NodeState where
  | unconverted
  | waiting
  | unsat
  | terminated
  deriving DecidableEq, Repr

/-- mirrors subpaving_types.h:80-87; `none` for the parent is written `-1` -/
inductive P2C where
  | newUnknownNode (id : Nat) (pid : Option Nat)
  | newUnsatNode (id : Nat) (pid : Option Nat)
  deriving DecidableEq, Repr

/-- mirrors subpaving_types.h:89-92 -/
inductive C2P where
  | unsatNode (id : Nat)
  | terminateNode (id : Nat)
  deriving DecidableEq, Repr

/-- mirrors subpaving_t.h:449-470 -/
structure NodeInfo where
  id : Nat
  depth : Nat
  undefClauseNum : Nat
  undefLitNum : Nat
  deriving DecidableEq, Repr

/-- `operator<`: the greater entry is split earlier. -/
def NodeInfo.lt (lhs rhs : NodeInfo) : Bool :=
  if lhs.depth ≠ rhs.depth then lhs.depth > rhs.depth
  else if lhs.undefClauseNum ≠ rhs.undefClauseNum then lhs.undefClauseNum < rhs.undefClauseNum
  else if lhs.undefLitNum ≠ rhs.undefLitNum then lhs.undefLitNum < rhs.undefLitNum
  else lhs.id > rhs.id

/-- `std::priority_queue::top` -/
def IsTop (heap : List NodeInfo) (ni : NodeInfo) : Prop :=
  ni ∈ heap ∧ ∀ m ∈ heap, ni.lt m = false

variable (K : Kernel)

structure Node where
  parent : Option Nat
  depth : Nat
  /-- from `first_child` along `next_sibling`: the last made comes first -/
  children : List Nat
  content : K.Content
  state : NodeState

/-- `task_info` of a task that has been made: `m_node_id` is not UINT32_MAX. -/
structure TaskInfo where
  nodeId : Nat
  depth : Nat
  task : K.Task

inductive Verdict where
  | unsat    -- `l_false`
  | unknown  -- `l_undef`
  deriving DecidableEq, Repr

/-- Where the process stands. -/
inductive Phase where
  /-- before the first call -/
  | start
  /-- a call has returned `l_true`; the tactic writes the file next -/
  | returned
  /-- `operator()` is entered with a task to announce -/
  | announce
  /-- the loop of `operator()`, reading lines -/
  | poll
  /-- in `create_new_task` -/
  | create
  /-- a call has returned `l_false` or `l_undef` -/
  | done (v : Verdict)
  deriving DecidableEq, Repr

/-- `context_t`, with the lines it has written and read and the task files
the tactic has written. -/
structure Context where
  size : Nat
  node : Nat → Node K
  aliveTaskNum : Nat
  leafHeap : List NodeInfo
  ptask : Option (TaskInfo K)
  candidates : K.Candidates
  written : List P2C
  read : List C2P
  files : Nat → Option K.Task
  phase : Phase

variable {K}

namespace Context

/-- The entry of a number no node has yet. -/
def noNode : Node K := ⟨none, 0, [], K.blank, .unconverted⟩

def empty : Context K :=
  ⟨0, fun _ => noNode, 0, [], none, K.noCandidates, [], [], fun _ => none, .start⟩

variable (s : Context K)

def setState (n : Nat) (st : NodeState) : Context K :=
  { s with node := Function.update s.node n { s.node n with state := st } }

/-- mirrors subpaving_t_def.h:837-889 with the constructor of the child
(`parent->m_first_child = this`, :163-181). The contents are the ones the node
has when the caller is done with it. -/
def mkNode (parent : Option Nat) (c : K.Content) : Context K :=
  match parent with
  | none =>
    { s with
      size := s.size + 1
      node := Function.update s.node s.size ⟨none, 0, [], c, .unconverted⟩ }
  | some p =>
    let nd := s.node p
    let node := Function.update s.node p { nd with children := s.size :: nd.children }
    { s with
      size := s.size + 1
      node := Function.update node s.size ⟨some p, nd.depth + 1, [], c, .unconverted⟩ }

/-- mirrors subpaving_t_def.h:3388-3414, below its early return for a node
that is UNSAT already. The counter is never zero here (`alive_eq`). -/
def updateNodeStateUnsat (n : Nat) : Context K :=
  { s.setState n .unsat with
    aliveTaskNum :=
      if (s.node n).state = .waiting then s.aliveTaskNum - 1 else s.aliveTaskNum }

/-- The partition tree, marked where `m_nodes_state` is UNSAT. -/
def tree : MarkedTree (Context K) where
  size s := s.size
  parent s n := (s.node n).parent
  children s n := (s.node n).children
  marked s n := (s.node n).state == .unsat
  mark n s := s.updateNodeStateUnsat n
  size_mark _ _ := rfl
  parent_mark n s := by
    funext m
    simp only [updateNodeStateUnsat, setState, Function.update_apply]
    split
    · rename_i h; rw [h]
    · rfl
  children_mark n s := by
    funext m
    simp only [updateNodeStateUnsat, setState, Function.update_apply]
    split
    · rename_i h; rw [h]
    · rfl
  marked_mark n s m := by
    simp only [updateNodeStateUnsat, setState, Function.update_apply]
    by_cases h : m = n <;> simp [h]

/-- mirrors subpaving_t_def.h:3416-3425; a path down the tree is no longer than
the tree has nodes -/
def unsatPushDown (fuel : Nat) (n : Nat) : Context K := tree.pushDown fuel s n

/-- mirrors subpaving_t_def.h:3427-3449: `can_propagate_unsat` asks only that
every child is UNSAT, however many there are -/
def unsatPushUp (n : Nat) : Context K := tree.pushUp 0 (n + 1) s n

/-- mirrors subpaving_t_def.h:3451-3462 -/
def nodeSolvedUnsat (n : Nat) : Context K :=
  if (s.node n).state = .unsat then s
  else
    let s := s.updateNodeStateUnsat n
    let s :=
      match (s.node n).parent with
      | none => s
      | some p => s.unsatPushUp p
    (s.node n).children.foldl (fun s' c => s'.unsatPushDown s.size c) s

theorem nodeSolvedUnsat_eq (n : Nat) : s.nodeSolvedUnsat n =
    if (s.node n).state = .unsat then s else tree.spread 0 (s.updateNodeStateUnsat n) n := rfl

/-- mirrors subpaving_t_def.h:3464-3489 -/
def parseLine : C2P → Context K
  | .unsatNode id => s.nodeSolvedUnsat id
  | .terminateNode id =>
    if (s.node id).state = .waiting then
      { s.setState id .terminated with aliveTaskNum := s.aliveTaskNum - 1 }
    else s

/-- One round of `communicate_with_coordinator` (subpaving_t_def.h:3491-3502). -/
def readLine (line : C2P) : Context K :=
  { s.parseLine line with read := s.read ++ [line] }

def newNode (unsat : Bool) (id : Nat) (pid : Option Nat) : P2C :=
  if unsat then .newUnsatNode id pid else .newUnknownNode id pid

/-- The state a child is left in. -/
def childState (c : K.Content) : NodeState := if K.inconsistent c then .unsat else .unconverted

/-- The heap entry of a child, none for an inconsistent one. -/
def childLeaf (t : TaskInfo K) (c : K.Content) (id : Nat) : List NodeInfo :=
  if K.inconsistent c then []
  else [⟨id, t.depth, K.undefClauseNum t.task, K.undefLitNum t.task⟩]

/-- The line about a child, none for one that is not known to be unsat. -/
def childLine (n : Nat) (c : K.Content) (id : Nat) : List P2C :=
  if K.inconsistent c then [newNode true id (some n)] else []

/-- The part of `split_node` that is written twice, for the left child
(subpaving_t_def.h:3764-3784) and for the right one (:3796-3815): the child
`c` of node `n`, propagated, is announced as unsat or becomes a leaf. `t` is
the task of `n`. -/
def addChild (n : Nat) (t : TaskInfo K) (c : K.Content) : Context K :=
  let id := s.size
  let s := s.mkNode (some n) c
  { s.setState id (childState c) with
    leafHeap := s.leafHeap ++ childLeaf t c id
    written := s.written ++ childLine n c id }

/-- mirrors subpaving_t_def.h:3534-3816 for the children the kernel makes.
Both nodes are made before the first is propagated; their numbers and the
lines written come out the same when each is made where it is propagated. -/
def splitNode (n : Nat) (t : TaskInfo K) : Option (K.Content × K.Content) → Context K
  | none => s
  | some (left, right) => (s.addChild n t left).addChild n t right

/-- mirrors subpaving_t_def.h:3924-3941. The source resets `m_ptask` last;
`split_node` reads it, and here gets it as `t`. -/
def announce (t : TaskInfo K) (candidates : K.Candidates)
    (children : Option (K.Content × K.Content)) : Context K :=
  let nid := t.nodeId
  let s := { s with
    aliveTaskNum := s.aliveTaskNum + 1
    written := s.written ++ [newNode false nid (s.node nid).parent]
    candidates := candidates
    ptask := none
    phase := .poll }
  (s.setState nid .waiting).splitNode nid t children

def parentUnsat (n : Nat) : Bool :=
  match (s.node n).parent with
  | none => false
  | some p => (s.node p).state == .unsat

/-- One round of the loop of `create_new_task`, for the entry `ni` taken from
the heap (mirrors subpaving_t_def.h:3818-3900). -/
def createNewTask (ni : NodeInfo) : Context K :=
  let n := ni.id
  let s := { s with leafHeap := s.leafHeap.erase ni }
  if K.inconsistent (s.node n).content then s.setState n .unsat
  else if (s.node n).state ≠ .unconverted then s
  else if s.parentUnsat n then s.setState n .unsat
  else
    match K.convert (s.node n).content with
    | none =>
      { s.setState n .unsat with
        written := s.written ++ [newNode true n (s.node n).parent] }
    | some task => { s with ptask := some ⟨n, (s.node n).depth, task⟩, phase := .returned }

/-- mirrors subpaving_tactic.cpp:432-482: a task without clause and bound is
not written -/
def displayCurrentTask (t : TaskInfo K) : Context K :=
  if K.isEmpty t.task then s
  else { s with files := Function.update s.files t.nodeId (some t.task) }

/-- The number of a node that has been announced. -/
def Announced (id : Nat) : Prop :=
  ∃ pid, .newUnknownNode id pid ∈ s.written ∨ .newUnsatNode id pid ∈ s.written

end Context

/-- What a step does that an outside condition may speak about. -/
inductive Label where
  | tau
  | readLine (line : C2P)
  deriving DecidableEq, Repr

/-- The children of a split, propagated. -/
def Propagated (K : Kernel) : Option (K.Content × K.Content) → Option (K.Content × K.Content) → Prop
  | none, none => True
  | some (l₀, r₀), some (l, r) => K.propagate l₀ l ∧ K.propagate r₀ r
  | _, _ => False

open Context in
/-- The steps of the process; `maxAlive` is `m_max_alive_tasks`. -/
inductive Step (K : Kernel) (maxAlive : Nat) : Context K → Label → Context K → Prop where
  /-- the first call, when `init()` finds the root inconsistent -/
  | initUnsat {c : K.Content} : K.init c → K.inconsistent c = true →
      Step K maxAlive .empty .tau
        { (empty (K := K)).mkNode none c with phase := .done .unsat }
  /-- the first call, when propagation finds the root inconsistent -/
  | propagateUnsat {c₀ c : K.Content} : K.init c₀ → K.inconsistent c₀ = false →
      K.propagate c₀ c → K.inconsistent c = true →
      Step K maxAlive .empty .tau
        { (empty (K := K)).mkNode none c with phase := .done .unsat }
  /-- the first call, up to the loop -/
  | init {c₀ c : K.Content} : K.init c₀ → K.inconsistent c₀ = false →
      K.propagate c₀ c → K.inconsistent c = false →
      Step K maxAlive .empty .tau
        { (empty (K := K)).mkNode none c with leafHeap := [⟨0, 0, 0, 0⟩], phase := .poll }
  | announce {s : Context K} {t : TaskInfo K} {cs : K.Candidates}
      {ch₀ ch : Option (K.Content × K.Content)} : s.phase = .announce → s.ptask = some t →
      K.branch s.candidates (s.node t.nodeId).content t.task cs ch₀ → Propagated K ch₀ ch →
      Step K maxAlive s .tau (s.announce t cs ch)
  /-- the coordinator writes only about nodes it was told of -/
  | readLine {s : Context K} (line : C2P) : s.phase = .poll →
      (∀ id, line = .unsatNode id ∨ line = .terminateNode id → s.Announced id) →
      Step K maxAlive s (.readLine line) (s.readLine line)
  | enter {s : Context K} : s.phase = .poll → s.aliveTaskNum ≤ maxAlive →
      Step K maxAlive s .tau { s with phase := .create }
  | createNewTask {s : Context K} {ni : NodeInfo} : s.phase = .create → IsTop s.leafHeap ni →
      Step K maxAlive s .tau (s.createNewTask ni)
  | heapEmpty {s : Context K} : s.phase = .create → s.leafHeap = [] →
      Step K maxAlive s .tau
        { s with phase := .done (if 0 < s.aliveTaskNum then .unknown else .unsat) }
  | display {s : Context K} {t : TaskInfo K} : s.phase = .returned → s.ptask = some t →
      Step K maxAlive s .tau { s.displayCurrentTask t with phase := .announce }

/-- The partitioner on its own, reading any lines about announced nodes. -/
def machine (K : Kernel) (maxAlive : Nat) : LTS (Context K) Label where
  init s := s = .empty
  step := Step K maxAlive

end AriParti.L2
