import AriParti.Core.LTS
import AriParti.L4Cluster.Tree

/-!
# The leader, the coordinators and the messages between them

One leader, `n` distributed coordinators (ranks `0 .. n - 1`) and the isolated
coordinator (rank `n`). Each ordered pair of processes has its own FIFO
channel, as MPI guarantees for one communicator; a message of the source is a
type (tag 1) and a payload (tag 2) that sender and receiver always handle
together, so it is one value here. Messages are delivered after any delay and
in any order between different senders.

The solving inside a coordinator is left open: when a split request arrives
while it solves, the label says whether `select_split_node` finds a node and
which (`Answer`), and `coordDone c r` ends its round with result `r` at any
time. `split_tabu` is a free Boolean of the label `leaderAssign`. A Python
exception in a coordinator is `coordFail c` (at any time) or the answer
`raise`; the coordinator then sends `notify_error` and throws away what it
reads.

Fields and message components that the source does not have, and that no
transition of the source's own data depends on, record identity for the proofs:

* the `tag` of a request and of its reply: `solving_round` of the leader's
  record of the asked coordinator when the request was sent;
* the `node` of `assignNode`, `transferNode` and a file: the number of the tree
  node the hand-off is for;
* the `file` of `splitSucceed` and of the `transferNode` that answers it: the
  task file of the node marked split;
* `splits`: the files a coordinator gave away since its assignment;
* `drained`: what a dead coordinator read without acting on it;
* `sent`, `received`: every file sent and received, by tree node.
-/
namespace AriParti.L4
open AriParti.Core AriParti.L3

/-- Leader to coordinator.
mirrors src/src/control_message.py:13-33, payloads src/src/leader.py:284-300,317 -/
inductive L2C where
  | requestSplit (target tag : Nat)
  | transferNode (target node : Nat) (file : TaskFile)
  | assignNode (src node : Nat)
  /-- `assign_node` without a rank, sent to the isolated coordinator only. -/
  | assignIsolated
  | terminateCoordinator
  deriving DecidableEq, Repr

/-- Coordinator to leader.
mirrors src/src/control_message.py:41-71, payloads src/src/coordinator.py:438-447,511-514,548-574 -/
inductive C2L where
  | splitSucceed (target tag : Nat) (file : TaskFile)
  | splitFailed (target tag : Nat)
  | notifyResult (result : NodeStatus)
  | prePartitionDone (num : Nat) (files : List TaskFile)
  | notifyError
  deriving DecidableEq, Repr

/-- mirrors src/src/leader.py:16-26; the two time stamps only feed `split_tabu` -/
structure CoordinatorInfo where
  status : CoordinatorStatus
  assigned : Option Nat
  solvingRound : Nat
  splitCount : Nat
  deriving DecidableEq, Repr

namespace CoordinatorInfo

/-- mirrors src/src/leader.py:31-38 -/
def assignNode (ci : CoordinatorInfo) (node : Nat) : Except LeaderError CoordinatorInfo :=
  if ci.status.isIdle then
    .ok { status := .solving, assigned := some node, solvingRound := ci.solvingRound + 1,
          splitCount := 0 }
  else .error .assignNotIdle

/-- mirrors src/src/leader.py:40-44 -/
def splitNode (ci : CoordinatorInfo) : Except LeaderError CoordinatorInfo :=
  if ci.status.isSplitting then
    .ok { ci with status := .solving, splitCount := ci.splitCount + 1 }
  else .error .splitNotSplitting

/-- mirrors src/src/leader.py:46-48 -/
def nodeSolved (ci : CoordinatorInfo) : CoordinatorInfo :=
  { ci with status := .idle, assigned := none }

theorem assignNode_ok {ci ci' : CoordinatorInfo} {node : Nat} (h : ci.assignNode node = .ok ci') :
    ci.status = .idle ∧ ci' = ⟨.solving, some node, ci.solvingRound + 1, 0⟩ := by
  unfold assignNode at h
  split at h <;> cases h
  rename_i hs
  exact ⟨CoordinatorStatus.isIdle_iff.1 hs, rfl⟩

theorem splitNode_ok {ci ci' : CoordinatorInfo} (h : ci.splitNode = .ok ci') :
    ci.status = .splitting ∧
      ci' = { ci with status := .solving, splitCount := ci.splitCount + 1 } := by
  unfold splitNode at h
  split at h <;> cases h
  rename_i hs
  exact ⟨CoordinatorStatus.isSplitting_iff.1 hs, rfl⟩

end CoordinatorInfo

/-- How the leader process ends.
mirrors src/src/leader.py:356-382 -/
inductive Outcome where
  | verdict (result : NodeStatus)
  | timeout
  | coordinatorError
  | leaderError (e : LeaderError)
  deriving DecidableEq, Repr

/-- Where the leader is in `solve`.
mirrors src/src/leader.py:238-264,334-344 -/
inductive LeaderPhase where
  | boot
  | waitPrePartition
  | main
  | stopped (outcome : Outcome)
  deriving DecidableEq, Repr

/-- mirrors src/src/leader.py:51-75 -/
structure Leader where
  tree : DistributedTree
  coordinators : Nat → CoordinatorInfo
  idleCoordinators : List Nat
  nextSplitRank : Nat
  phase : LeaderPhase

/-- Where a coordinator is in its main loop.
mirrors src/src/coordinator.py:478-546,640-686 -/
inductive CoordPhase where
  /-- the isolated coordinator before `solve_leader_root` -/
  | boot
  | idle
  /-- blocked in `receive_node_from_coordinator(src)` -/
  | receiving (src node : Nat)
  | solving
  /-- the isolated coordinator inside `pre_partition` -/
  | prePartition
  /-- the isolated coordinator blocked on the answer to `pre_partition_done` -/
  | waitLeader (outgoing : List TaskFile)
  deriving DecidableEq, Repr

/-- `solving_folder_path` with the formula of its `task-root.smt2`. -/
structure Folder where
  round : Nat
  root : TaskFile
  deriving DecidableEq, Repr

/-- The file `task-pid.smt2` in a folder of coordinator `rank`. -/
def Folder.task (F : Folder) (rank pid : Nat) : TaskFile := .sub F.root rank F.round pid

/-- mirrors src/src/coordinator.py:42-74,427-435 -/
structure Coord where
  alive : Bool
  phase : CoordPhase
  solvingRound : Nat
  folder : Option Folder
  splitNode : Option Nat
  splits : List TaskFile
  drained : List L2C
  deriving DecidableEq, Repr

/-- One file sent from coordinator `src` to coordinator `dst`. -/
structure Sending where
  src : Nat
  dst : Nat
  file : TaskFile
  deriving DecidableEq, Repr

/-- One file received by coordinator `dst` while it waits for the instance of
tree node `node`. -/
structure Receipt where
  dst : Nat
  node : Nat
  file : TaskFile
  deriving DecidableEq, Repr

structure State where
  leader : Leader
  coord : Nat → Coord
  toC : Nat → List L2C
  toL : Nat → List C2L
  files : Nat → Nat → List (TaskFile × Nat)
  sent : Nat → List Sending
  received : Nat → List Receipt

/-! ## Elementary updates -/

namespace State

def send (s : State) (c : Nat) (m : L2C) : State :=
  { s with toC := Function.update s.toC c (s.toC c ++ [m]) }

def post (s : State) (c : Nat) (m : C2L) : State :=
  { s with toL := Function.update s.toL c (s.toL c ++ [m]) }

/-- The next message for coordinator `c` is read; `rest` is what stays. -/
def pop (s : State) (c : Nat) (rest : List L2C) : State :=
  { s with toC := Function.update s.toC c rest }

/-- The next message of coordinator `c` to the leader is read. -/
def popUp (s : State) (c : Nat) (rest : List C2L) : State :=
  { s with toL := Function.update s.toL c rest }

def setInfo (s : State) (c : Nat) (ci : CoordinatorInfo) : State :=
  { s with leader := { s.leader with
      coordinators := Function.update s.leader.coordinators c ci } }

def setCoord (s : State) (c : Nat) (co : Coord) : State :=
  { s with coord := Function.update s.coord c co }

def setTree (s : State) (t : DistributedTree) : State :=
  { s with leader := { s.leader with tree := t } }

def pushIdle (s : State) (c : Nat) : State :=
  { s with leader := { s.leader with idleCoordinators := s.leader.idleCoordinators ++ [c] } }

/-- Everything sent to coordinator `c` that has not changed its state yet:
what it threw away, then what is in flight. -/
def down (s : State) (c : Nat) : List L2C := (s.coord c).drained ++ s.toC c

/-- `MPI.COMM_WORLD.send(instance_data, dest=dst, tag=2)` -/
def sendFile (s : State) (src dst : Nat) (file : TaskFile) (node : Nat) : State :=
  { s with
    files := Function.update s.files src
      (Function.update (s.files src) dst (s.files src dst ++ [(file, node)]))
    sent := Function.update s.sent node (s.sent node ++ [⟨src, dst, file⟩]) }

/-- mirrors the sending loop of src/src/coordinator.py:518-527; the file for
rank `i` is the instance of tree node `i + 1` -/
def sendFiles (n : Nat) : State → Nat → List TaskFile → State
  | s, _, [] => s
  | s, i, f :: fs => sendFiles n (s.sendFile n i f (i + 1)) (i + 1) fs

/-- mirrors src/src/leader.py:366-373 -/
def terminateCoordinators : State → Nat → State
  | s, 0 => s
  | s, c + 1 => (terminateCoordinators s c).send c .terminateCoordinator

/-- The leader leaves `solve`: it reports the outcome and terminates every
coordinator, the isolated one last. -/
def stop (n : Nat) (s : State) (o : Outcome) : State :=
  terminateCoordinators { s with leader := { s.leader with phase := .stopped o } } (n + 1)

end State

/-! ## The leader

A handler that raises keeps what it did before the exception. -/

abbrev Handled := Except (LeaderError × State) State

/-- mirrors src/src/leader.py:137-139 -/
def updateAssignCoordinator (s : State) (parent idleCoord : Nat) (file : TaskFile) : Handled :=
  let child := s.leader.tree.size
  let s := s.setTree (s.leader.tree.splitNode parent idleCoord file)
  match (s.leader.coordinators idleCoord).assignNode child with
  | .error e => .error (e, s)
  | .ok ci => .ok (s.setInfo idleCoord ci)

/-- mirrors src/src/leader.py:141-142 -/
def updateSplitCoordinator (s : State) (splitCoord : Nat) : Handled :=
  match (s.leader.coordinators splitCoord).splitNode with
  | .error e => .error (e, s)
  | .ok ci => .ok (s.setInfo splitCoord ci)

/-- mirrors src/src/leader.py:144-150 -/
def updateSplitAssignInfo (s : State) (splitCoord idleCoord : Nat) (file : TaskFile) : Handled :=
  match (s.leader.coordinators splitCoord).assigned with
  | none => .error (.parentNone, s)
  | some parent =>
    match updateAssignCoordinator s parent idleCoord file with
    | .error e => .error e
    | .ok s => updateSplitCoordinator s splitCoord

/-- mirrors src/src/leader.py:152-154 -/
def setCoordinatorIdle (s : State) (rank : Nat) : State :=
  (s.setInfo rank (s.leader.coordinators rank).nodeSolved).pushIdle rank

/-- The leader's answer to `split_succeed`.
mirrors src/src/leader.py:182-188 -/
def processSplitSucceed (s : State) (src target : Nat) (file : TaskFile) : Handled :=
  let node := s.leader.tree.size
  let s := s.send target (.assignNode src node)
  let s := s.send src (.transferNode target node file)
  updateSplitAssignInfo s src target file

/-- mirrors src/src/leader.py:189-194 -/
def processSplitFailed (s : State) (src target : Nat) : State :=
  let s := s.pushIdle target
  let coord := s.leader.coordinators src
  if coord.status.isSplitting then s.setInfo src { coord with status := .solving } else s

/-- `true`: the leader is done.
mirrors src/src/leader.py:156-175 -/
def processNotifiedResult (n : Nat) (s : State) (src : Nat) (result : NodeStatus) :
    Except (LeaderError × State) (State × Bool) :=
  if src = n then .ok (s.setTree (s.leader.tree.originalSolved result), true)
  else
    match (s.leader.coordinators src).assigned with
    | none => .error (.notifyUnassigned, s)
    | some node =>
      match s.leader.tree.nodePartialSolved node result with
      | .error e => .error (e, s)
      | .ok t =>
        let s := s.setTree t
        if t.isDone then .ok (s, true) else .ok (setCoordinatorIdle s src, false)

/-- The loop of `pre_partition` over the ranks below `i`. `files` names what
the isolated coordinator is about to send.
mirrors src/src/leader.py:324-330 -/
def prePartitionLoop (n ppNumNodes : Nat) (files : List TaskFile) : Nat → State → Handled
  | 0, s => .ok s
  | i + 1, s =>
    match prePartitionLoop n ppNumNodes files i s with
    | .error e => .error e
    | .ok s =>
      if i < ppNumNodes then
        let s := s.setInfo n { s.leader.coordinators n with status := .splitting }
        let s := s.send i (.assignNode n s.leader.tree.size)
        updateSplitAssignInfo s n i (files.getD i .input)
      else .ok (s.pushIdle i)

/-- mirrors src/src/leader.py:314-332 -/
def prePartition (n : Nat) (s : State) (num : Nat) (files : List TaskFile) : Handled :=
  let s := s.send n .assignIsolated
  let ppNumNodes := if num = 0 then 1 else num
  match prePartitionLoop n ppNumNodes files n s with
  | .error e => .error e
  | .ok s =>
    match s.leader.tree.root with
    | none => .ok s
    | some r =>
      match s.leader.tree.nodePartialSolved r .unsat with
      | .error e => .error (e, s)
      | .ok t => .ok (s.setTree t)

/-- The first steps of `solve`: the isolated coordinator gets the input.
mirrors src/src/leader.py:238-248 -/
def leaderBoot (n : Nat) (s : State) : Handled :=
  let s := s.send n .assignIsolated
  let root := s.leader.tree.size
  let s := s.setTree (s.leader.tree.assignRootNode n .input)
  match (s.leader.coordinators n).assignNode root with
  | .error e => .error (e, s)
  | .ok ci => .ok (s.setInfo n ci)

def setPhase (s : State) (p : LeaderPhase) : State :=
  { s with leader := { s.leader with phase := p } }

/-- An exception leaves `solve`. -/
def orStop (n : Nat) : Handled → State
  | .ok s => s
  | .error (e, s) => s.stop n (.leaderError e)

/-- `return` from `solve` with the result of the tree. -/
def finish (n : Nat) (s : State) : State := s.stop n (.verdict s.leader.tree.result)

def afterNotify (n : Nat) : Except (LeaderError × State) (State × Bool) → State
  | .error (e, s) => s.stop n (.leaderError e)
  | .ok (s, true) => finish n s
  | .ok (s, false) => s

/-- One message of the main loop.
mirrors src/src/leader.py:179-204 -/
def checkCoordinators (n : Nat) (s : State) (src : Nat) : C2L → State
  | .splitSucceed target _ file => orStop n (processSplitSucceed s src target file)
  | .splitFailed target _ => processSplitFailed s src target
  | .notifyResult r => afterNotify n (processNotifiedResult n s src r)
  | .notifyError => s.stop n .coordinatorError
  | .prePartitionDone _ _ => s.stop n (.leaderError .unexpectedMessage)

/-- One message of the loop before pre-partition.
mirrors src/src/leader.py:249-264 -/
def initCoordIsolated (n : Nat) (s : State) : C2L → State
  | .notifyResult r => afterNotify n (processNotifiedResult n s n r)
  | .prePartitionDone num files =>
    orStop n ((prePartition n s num files).map fun s => setPhase s .main)
  | .notifyError => s.stop n .coordinatorError
  | .splitSucceed _ _ _ => s.stop n (.leaderError .unexpectedMessage)
  | .splitFailed _ _ => s.stop n (.leaderError .unexpectedMessage)

def leaderRecv (n : Nat) (s : State) (src : Nat) : Option State :=
  match s.toL src with
  | [] => none
  | m :: rest =>
    let s' := s.popUp src rest
    match s.leader.phase with
    | .main => if src ≤ n then some (checkCoordinators n s' src m) else none
    | .waitPrePartition => if src = n then some (initCoordIsolated n s' m) else none
    | _ => none

/-- One coordinator leaves the queue and the next rank is tried.
mirrors src/src/leader.py:270,274-275 -/
def nextIdle (n : Nat) (s : State) (rest : List Nat) : State :=
  { s with leader := { s.leader with
      idleCoordinators := rest, nextSplitRank := (s.leader.nextSplitRank + 1) % n } }

/-- mirrors src/src/leader.py:266-312 -/
def assignNodeToIdleCoordinator (n : Nat) (s : State) (tabuOk : Bool) : State :=
  match s.leader.idleCoordinators with
  | [] => s
  | idleCoord :: rest =>
    let rank := s.leader.nextSplitRank
    let info := s.leader.coordinators rank
    let s := nextIdle n s rest
    if info.status.isSolving && tabuOk then
      (s.setInfo rank { info with status := .splitting }).send rank
        (.requestSplit idleCoord info.solvingRound)
    else s.pushIdle idleCoord

/-! ## The coordinators -/

/-- What `select_split_node` does with a request that arrives while solving. -/
inductive Answer where
  | decline
  | grant (pid : Nat)
  | raise
  deriving DecidableEq, Repr

/-- The exception handler of `Coordinator.__call__`: `m` was read and had no
other effect. -/
def die (s : State) (c : Nat) (m : L2C) : State :=
  s.setCoord c { s.coord c with alive := false, drained := (s.coord c).drained ++ [m] }

/-- mirrors src/src/coordinator.py:711-720 -/
def raiseError (s : State) (c : Nat) (m : L2C) : State := (die s c m).post c .notifyError

/-- mirrors src/src/coordinator.py:576-590 -/
def processSplitMessage (s : State) (c target tag : Nat) (a : Answer) : State :=
  let co := s.coord c
  if co.phase = .idle then s.post c (.splitFailed target tag)
  else
    match a with
    | .decline => s.post c (.splitFailed target tag)
    | .raise => raiseError s c (.requestSplit target tag)
    | .grant pid =>
      match co.folder with
      | none => raiseError s c (.requestSplit target tag)
      | some F =>
        (s.post c (.splitSucceed target tag (F.task c pid))).setCoord c
          { co with splitNode := some pid, splits := co.splits ++ [F.task c pid] }

/-- mirrors src/src/coordinator.py:554-560,592-595 -/
def processTransferMessage (s : State) (c target node : Nat) (file : TaskFile) : State :=
  match (s.coord c).splitNode, (s.coord c).folder with
  | some pid, some F => s.sendFile c target (F.task c pid) node
  | _, _ => raiseError s c (.transferNode target node file)

/-- mirrors src/src/coordinator.py:534-538,542-545 up to the blocking receive -/
def processAssignMessage (s : State) (c src node : Nat) : State :=
  if (s.coord c).phase = .idle then s.setCoord c { s.coord c with phase := .receiving src node }
  else raiseError s c (.assignNode src node)

/-- mirrors src/src/coordinator.py:619-638 -/
def receiveMessageFromLeader (s : State) (c : Nat) (a : Answer) : L2C → Option State
  | .requestSplit target tag => some (processSplitMessage s c target tag a)
  | .transferNode target node file => some (processTransferMessage s c target node file)
  | .assignNode src node => some (processAssignMessage s c src node)
  | .assignIsolated => none
  | .terminateCoordinator => some (die s c .terminateCoordinator)

/-- mirrors src/src/coordinator.py:427-435 -/
def startSolving (co : Coord) (phase : CoordPhase) (root : TaskFile) : Coord :=
  { co with phase := phase, folder := some ⟨co.solvingRound, root⟩, splitNode := none, splits := [] }

/-- The messages of the isolated coordinator.
mirrors src/src/coordinator.py:472-476,515-532,667-678 -/
def isolatedReceive (n : Nat) (s : State) (m : L2C) : Option State :=
  let co := s.coord n
  match co.phase with
  | .boot =>
    if m = .assignIsolated then some (s.setCoord n (startSolving co .prePartition .input))
    else some (raiseError s n m)
  | .waitLeader outgoing =>
    if m = .assignIsolated then
      some ((s.sendFiles n 0 outgoing).setCoord n { co with phase := .solving })
    else if m = .terminateCoordinator then some (die s n m)
    else some (raiseError s n m)
  | .idle | .solving =>
    if m = .terminateCoordinator then some (die s n m) else some (raiseError s n m)
  | .receiving _ _ | .prePartition => none

def coordRead (n : Nat) (s : State) (c : Nat) (a : Answer) : Option State :=
  match s.toC c with
  | [] => none
  | m :: rest =>
    let s' := s.pop c rest
    if (s.coord c).alive then
      if c = n then isolatedReceive n s' m
      else
        match (s.coord c).phase with
        | .idle | .solving => receiveMessageFromLeader s' c a m
        | _ => none
    else some (die s' c m)

/-- The file arrives.
mirrors src/src/coordinator.py:538-546 -/
def coordFile (s : State) (c : Nat) : Option State :=
  match (s.coord c).alive, (s.coord c).phase with
  | true, .receiving src node =>
    match s.files src c with
    | [] => none
    | (f, v) :: rest =>
      some { (s.setCoord c (startSolving (s.coord c) .solving f)) with
        files := Function.update s.files src (Function.update (s.files src) c rest)
        received := Function.update s.received v (s.received v ++ [⟨c, node, f⟩]) }
  | _, _ => none

/-- mirrors src/src/coordinator.py:438-447,611-616 -/
def solvingRoundDone (s : State) (c : Nat) (r : NodeStatus) : State :=
  (s.post c (.notifyResult r)).setCoord c
    { s.coord c with phase := .idle, solvingRound := (s.coord c).solvingRound + 1 }

/-- A round ends; the isolated coordinator can also end inside `pre_partition`.
mirrors src/src/coordinator.py:481-488,640-646,670-685 -/
def coordDone (n : Nat) (s : State) (c : Nat) (r : NodeStatus) : Option State :=
  if (s.coord c).alive && r.isSolved &&
      ((s.coord c).phase == .solving || (c == n && (s.coord c).phase == .prePartition)) then
    some (solvingRoundDone s c r)
  else none

def coordFail (s : State) (c : Nat) : Option State :=
  if (s.coord c).alive then
    some ((s.setCoord c { s.coord c with alive := false }).post c .notifyError)
  else none

/-- The files of the nodes found by `pre_partition`, or the whole task.
mirrors src/src/coordinator.py:518-527 -/
def Folder.outgoing (F : Folder) (rank : Nat) (pids : List Nat) : List TaskFile :=
  if pids = [] then [F.root] else pids.map (F.task rank)

theorem Folder.outgoing_length (F : Folder) (rank : Nat) (pids : List Nat) :
    (F.outgoing rank pids).length = max 1 pids.length := by
  unfold Folder.outgoing
  split
  · rename_i h; rw [h]; rfl
  · rename_i h
    have := List.length_pos_iff.2 h
    rw [List.length_map]
    omega

/-- The end of the search loop of `pre_partition`, with the nodes found. A
node is replaced by at most two, so there are never more than `n`.
mirrors src/src/coordinator.py:489-528 -/
def isoPre (n : Nat) (s : State) (pids : List Nat) : Option State :=
  let co := s.coord n
  match co.alive, co.phase, co.folder with
  | true, .prePartition, some F =>
    if pids.length ≤ n then
      some ((s.post n (.prePartitionDone pids.length (F.outgoing n pids))).setCoord n
        { co with phase := .waitLeader (F.outgoing n pids) })
    else none
  | _, _, _ => none

/-! ## The system -/

inductive Lbl where
  | leaderBoot
  | leaderRecv (src : Nat)
  | leaderAssign (tabuOk : Bool)
  | leaderTimeout
  | coordRead (c : Nat) (a : Answer)
  | coordFile (c : Nat)
  | coordDone (c : Nat) (r : NodeStatus)
  | coordFail (c : Nat)
  | isoPre (pids : List Nat)
  deriving DecidableEq, Repr

def step (n : Nat) (s : State) : Lbl → Option State
  | .leaderBoot =>
    if s.leader.phase = .boot then
      some (orStop n ((leaderBoot n s).map fun s => setPhase s .waitPrePartition))
    else none
  | .leaderRecv src => leaderRecv n s src
  | .leaderAssign tabuOk =>
    if s.leader.phase = .main then some (assignNodeToIdleCoordinator n s tabuOk) else none
  | .leaderTimeout => if s.leader.phase = .main then some (s.stop n .timeout) else none
  | .coordRead c a => if c ≤ n then coordRead n s c a else none
  | .coordFile c => if c < n then coordFile s c else none
  | .coordDone c r => if c ≤ n then coordDone n s c r else none
  | .coordFail c => if c ≤ n then coordFail s c else none
  | .isoPre pids => isoPre n s pids

def initInfo : CoordinatorInfo := ⟨.idle, none, 0, 0⟩

def initCoord (n c : Nat) : Coord :=
  ⟨true, if c = n then .boot else .idle, 0, none, none, [], []⟩

def init (n : Nat) : State where
  leader := ⟨.empty, fun _ => initInfo, [], 0, .boot⟩
  coord := initCoord n
  toC _ := []
  toL _ := []
  files _ _ := []
  sent _ := []
  received _ := []

/-- The leader with `n` distributed coordinators. -/
def lts (n : Nat) : LTS State Lbl := .ofFn (init n) (step n)

end AriParti.L4
