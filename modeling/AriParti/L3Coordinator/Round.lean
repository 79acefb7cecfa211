import AriParti.L3Coordinator.Attended

/-!
# The processes of a round

A coordinator starts a solver process for a node when a core is free, and the
process ends in many ways: with an answer, with an error, on demand, because
the node is refuted from above or from below, on the path to a node that is
handed over, or in the clean-up of the round. `check_solvings_status` looks at
the nodes of `solvings` one after the other; a look may end the process of a
node that comes later, or of one that was looked at before, and a verdict
leaves the loop with the list as it was.

Here the loop of the coordinator runs in the order of the source, one node of
`check_solvings_status` and one process started at a time.

## Layout

* `Round`: a coordinator with the point its loop has reached and the nodes that
  were given a process. `coordinatorRound`: its steps.
* `Releases`: what ends processes and starts none.
* `Booked`: the invariant of a round.

## Results

* `processes_accounted`: in every state of a round the nodes with a process are
  those that are being solved, all of them are in `solvings`, they are no more
  than the cores, each was given its process once, and the clean-up of the
  round ends them all.
-/
namespace AriParti.L3
open AriParti.Core AriParti.L2

namespace ParallelTree

/-- The loop of `round_clean_up` (src/src/coordinator.py:603-608), with the nodes
whose process it terminates. -/
def releaseSolvings : List Nat → ParallelTree → ParallelTree × List Nat
  | [], t => (t, [])
  | v :: vs, t =>
    if (t.node v).assignTo then
      let r := releaseSolvings vs (t.modify v fun nd => { nd with assignTo := false })
      (r.1, v :: r.2)
    else releaseSolvings vs t

/-- mirrors src/src/coordinator.py:597-610 -/
def roundCleanUp (t : ParallelTree) : ParallelTree × List Nat := releaseSolvings t.solvings t

/-- The nodes with a process. -/
def holders (t : ParallelTree) : Finset Nat :=
  (Finset.range t.size).filter fun v => (t.node v).assignTo = true

end ParallelTree

/-- Where the loop of a coordinator stands. -/
inductive Point where
  /-- between two rounds -/
  | idle
  /-- at `receive_message_from_leader` -/
  | leader
  /-- in `receive_partitioner_messages` -/
  | receive
  /-- in `check_solvings_status`: the nodes to look at, and `still_solvings` -/
  | check (todo stillSolvings : List Nat)
  /-- in `run_waiting_tasks` -/
  | run
  /-- `parallel_solving` has returned True -/
  | returned
  /-- an exception -/
  | raised
  deriving DecidableEq, Repr

/-- A coordinator in its loop; `given` are the nodes of the tree that were
given a process, in order. -/
structure Round where
  coord : Coordinator
  point : Point
  given : List Nat

namespace Round

def idle : Round := ⟨.idle, .idle, []⟩

variable (r : Round)

/-- `check_solving_status` returns True. -/
def stillRunning (v : Nat) : SolverOutcome → Bool
  | .running timeUp => !(timeUp && v != 0)
  | _ => false

/-- One node of the loop of `check_solvings_status` that is being solved
(src/src/coordinator.py:368-372). -/
def checkNode (v : Nat) (todo stillSolvings : List Nat) (o : SolverOutcome) : Round :=
  let c := r.coord.checkSolvingStatus v o
  if stillRunning v o then { r with coord := c, point := .check todo (stillSolvings ++ [v]) }
  else if c.isDone then { r with coord := c.afterIsDone, point := .returned }
  else { r with coord := c, point := .check todo stillSolvings }

/-- The steps of `interactive_solve` and `parallel_solving`
(src/src/coordinator.py:193-225,362-396,450-471,576-591,597-647). The isolated
coordinator takes them as well: it gets no split requests, `check_original_task`
may end its round (:652-691), and `pre_partition` (:483-489) returns at a
verdict before all lines are read, which is left open here. -/
inductive Step (cores : Nat) : Round → Unit → Round → Prop where
  | startSolving {r : Round} : r.point = .idle →
      Step cores r () ⟨Coordinator.startSolving, .receive, []⟩
  /-- no message, or one that changes nothing here -/
  | noMessage {r : Round} : r.point = .leader → Step cores r () { r with point := .receive }
  | split {r : Round} {ready : Nat → Bool} {fuel v : Nat} : r.point = .leader →
      r.coord.tree.selectSplitNode ready fuel = some (.node v) →
      Step cores r () { r with coord := r.coord.setNodeSplit v, point := .receive }
  /-- an assertion of `select_split_node` fails -/
  | assertion {r : Round} {ready : Nat → Bool} {fuel : Nat} : r.point = .leader →
      (r.coord.tree.selectSplitNode ready fuel = some .notTwo ∨
        r.coord.tree.selectSplitNode ready fuel = some .bothUnsat) →
      Step cores r () { r with point := .raised }
  | original {r : Round} {st : NodeStatus} : r.point = .leader →
      Step cores r () { r with coord := { r.coord with result := st }, point := .returned }
  | line {r : Round} {c : Coordinator} {l : PrePartition.Line} : r.point = .receive →
      r.coord.partitioner ≠ .receiveDone → r.coord.processPartitionerMsg l = some c →
      Step cores r () { r with coord := c }
  | raise {r : Round} {l : PrePartition.Line} : r.point = .receive →
      r.coord.partitioner ≠ .receiveDone → r.coord.processPartitionerMsg l = none →
      Step cores r () { r with point := .raised }
  /-- `check_running`, which `send_partitioner_message` calls as well -/
  | processDone {r : Round} : r.point ≠ .idle → r.coord.partitioner = .running →
      Step cores r () { r with coord := { r.coord with partitioner := .processDone } }
  | receiveDone {r : Round} : r.point = .receive → r.coord.partitioner = .processDone →
      Step cores r () { r with coord := { r.coord with partitioner := .receiveDone } }
  | verdict {r : Round} : r.point = .receive → r.coord.isDone = true →
      Step cores r () { r with coord := r.coord.afterIsDone, point := .returned }
  | received {r : Round} : r.point = .receive → r.coord.partitioner ≠ .processDone →
      (r.coord.partitioner = .receiveDone → r.coord.isDone = false) →
      Step cores r () { r with point := .check r.coord.tree.solvings [] }
  /-- `if not node.status.is_solving(): continue` -/
  | skip {r : Round} {v : Nat} {todo still : List Nat} : r.point = .check (v :: todo) still →
      (r.coord.tree.node v).status ≠ .solving →
      Step cores r () { r with point := .check todo still }
  | check {r : Round} {v : Nat} {todo still : List Nat} (o : SolverOutcome) :
      r.point = .check (v :: todo) still → (r.coord.tree.node v).status = .solving →
      Step cores r () (r.checkNode v todo still o)
  | checked {r : Round} {still : List Nat} : r.point = .check [] still →
      Step cores r () { r with coord := r.coord.keepSolvings still, point := .run }
  | assign {r : Round} {v : Nat} {rest : List Nat} : r.point = .run →
      r.coord.tree.solvings.length < cores →
      r.coord.tree.getNextWaitingNode r.coord.tree.waitings = some (v, rest) →
      Step cores r () { r with
        coord := { r.coord with tree := r.coord.tree.runWaitingTask }, given := r.given ++ [v] }
  | noneWaiting {r : Round} : r.point = .run → r.coord.tree.solvings.length < cores →
      r.coord.tree.getNextWaitingNode r.coord.tree.waitings = none →
      Step cores r () { r with
        coord := { r.coord with tree := r.coord.tree.runWaitingTask }, point := .leader }
  | full {r : Round} : r.point = .run → cores ≤ r.coord.tree.solvings.length →
      Step cores r () { r with point := .leader }
  /-- `solving_round_done`, with `round_clean_up` -/
  | roundDone {r : Round} : r.point = .returned →
      Step cores r ()
        ⟨{ r.coord with status := .idle, tree := .empty, partitioner := .receiveDone }, .idle, []⟩

end Round

/-- A coordinator in its loop; `cores` is `available_cores`. -/
def coordinatorRound (cores : Nat) : LTS Round Unit where
  init r := r = .idle
  step := Round.Step cores

namespace ParallelTree

variable {t t' : ParallelTree} {v w : Nat}

/-! ## Ending processes -/

/-- From `t` to `t'` no process is started and no node becomes one to be
solved, but new ones: a node is as it was, or has ended without a process, or
is new. -/
structure Releases (t t' : ParallelTree) : Prop where
  size : t.size ≤ t'.size
  solvings : t'.solvings = t.solvings
  waitings : ∀ v ∈ t'.waitings, v ∈ t.waitings ∨ v < t'.size
  node : ∀ v, ((t'.node v).status = (t.node v).status ∧
      (t'.node v).assignTo = (t.node v).assignTo) ∨
    ((t'.node v).status.isEnded = true ∧ (t'.node v).assignTo = false) ∨
    (t.size ≤ v ∧ (t'.node v).status = .unsolved ∧ (t'.node v).assignTo = false)

theorem Releases.refl (t : ParallelTree) : Releases t t :=
  ⟨Nat.le_refl _, rfl, fun _ => .inl, fun _ => .inl ⟨rfl, rfl⟩⟩

theorem Releases.trans {t₁ t₂ t₃ : ParallelTree} (h : Releases t₁ t₂) (h' : Releases t₂ t₃) :
    Releases t₁ t₃ := by
  refine ⟨h.size.trans h'.size, h'.solvings.trans h.solvings, fun v hv => ?_, fun v => ?_⟩
  · rcases h'.waitings v hv with hv | hv
    · exact (h.waitings v hv).imp_right fun hlt => hlt.trans_le h'.size
    · exact .inr hv
  · rcases h'.node v with ⟨hs, ha⟩ | he | ⟨hle, hn⟩
    · rw [hs, ha]
      exact h.node v
    · exact .inr (.inl he)
    · exact .inr (.inr ⟨h.size.trans hle, hn⟩)

/-- A node ends, and its process is gone. -/
theorem Releases.modify (h : Releases t t') (v : Nat) {f : ParallelNode → ParallelNode}
    (hs : (f (t'.node v)).status.isEnded = true) (ha : (f (t'.node v)).assignTo = false) :
    Releases t (t'.modify v f) := by
  refine h.trans ⟨Nat.le_refl _, rfl, fun _ => .inl, fun w => ?_⟩
  rw [modify_node]
  split
  · exact .inr (.inl ⟨hs, ha⟩)
  · exact .inl ⟨rfl, rfl⟩

theorem Releases.mark (n : Nat) (t' : ParallelTree) (h : Releases t t') :
    Releases t (tree.mark n t') := by
  show Releases t (t'.propagateNodeUnsat n)
  unfold propagateNodeUnsat
  exact h.modify n rfl rfl

/-- Refuting a node whose process has ended. -/
theorem Releases.nodeSolvedUnsat (h : Releases t (t'.updateNodeStatus v .unsat)) :
    Releases t (t'.nodeSolvedUnsat v) := by
  have hup := tree.pushUpFrom_keeps Releases.mark (k := 2) _ v h
  unfold ParallelTree.nodeSolvedUnsat
  simp only
  split
  · exact ⟨hup.size, hup.solvings, hup.waitings, hup.node⟩
  · exact tree.pushDownFrom_keeps Releases.mark _ v hup

theorem terminate_releases (v : Nat) : Releases t (t.terminate v) := by
  unfold terminate
  split
  · exact .refl t
  · unfold terminateNode
    exact (Releases.refl t).modify v rfl rfl

theorem terminatePath_releases (fuel : Nat) : ∀ (t : ParallelTree) (v : Nat),
    Releases t (terminatePath fuel t v) := by
  induction fuel with
  | zero => exact fun t _ => .refl t
  | succ fuel ih =>
    intro t v
    unfold terminatePath
    simp only
    split
    · exact terminate_releases v
    · exact (terminate_releases v).trans (ih _ _)

/-- Nobody is given a process. -/
theorem Releases.assignTo (h : Releases t t') (ha : (t'.node v).assignTo = true) :
    (t.node v).assignTo = true := by
  rcases h.node v with ⟨-, he⟩ | ⟨-, he⟩ | ⟨-, -, he⟩
  · rwa [← he]
  · rw [ha] at he
    cases he
  · rw [ha] at he
    cases he

/-- The path is terminated before the node is handed over. -/
theorem setNodeSplit_releases (hv : (t.node v).assignTo = true → (t.node v).status = .solving) :
    Releases t (t.setNodeSplit v) := by
  have hpath := terminatePath_releases (v + 1) t v
  have hfirst : ((t.terminate v).node v).assignTo = false := by
    unfold terminate
    split
    · rename_i he
      rw [Bool.eq_false_iff]
      intro ha
      rw [hv ha] at he
      cases he
    · unfold terminateNode
      rw [modify_node, if_pos rfl]
  have hgone : ((terminatePath (v + 1) t v).node v).assignTo = false := by
    rw [Bool.eq_false_iff]
    intro ha
    have hrest : Releases (t.terminate v) (terminatePath (v + 1) t v) := by
      rw [terminatePath]
      split
      · exact .refl _
      · exact terminatePath_releases _ _ _
    rw [hrest.assignTo ha] at hfirst
    cases hfirst
  unfold setNodeSplit
  apply Releases.nodeSolvedUnsat
  unfold updateNodeStatus
  exact hpath.modify v rfl hgone

theorem solverUnsat_releases (v : Nat) : Releases t (t.solverUnsat v) := by
  apply Releases.nodeSolvedUnsat
  refine ⟨Nat.le_refl _, rfl, fun _ => .inl, fun w => ?_⟩
  unfold updateNodeStatus
  rw [modify_node, modify_node, modify_node]
  by_cases hw : w = v
  · rw [if_pos hw, if_pos rfl]
    exact .inr (.inl ⟨rfl, rfl⟩)
  · rw [if_neg hw, if_neg hw]
    exact .inl ⟨rfl, rfl⟩

theorem solverSat_releases (v : Nat) :
    Releases t ((t.modify v fun nd => { nd with assignTo := false }).nodeSolvedSat v) := by
  refine ⟨Nat.le_refl _, rfl, fun _ => .inl, fun w => ?_⟩
  unfold nodeSolvedSat updateNodeStatus
  rw [modify_node, modify_node, modify_node]
  by_cases hw : w = v
  · rw [if_pos hw, if_pos rfl]
    exact .inr (.inl ⟨rfl, rfl⟩)
  · rw [if_neg hw, if_neg hw]
    exact .inl ⟨rfl, rfl⟩

theorem addNode_releases (pid : Nat) (parent : Option Nat) :
    Releases t (t.addNode pid parent) := by
  have hqueue : (t.addNode pid parent).waitings = t.waitings ∧
      (t.addNode pid parent).solvings = t.solvings := by
    cases parent <;> exact ⟨rfl, rfl⟩
  refine ⟨?_, hqueue.2, fun v hv => ?_, fun v => ?_⟩
  · rw [addNode_size]
    exact Nat.le_succ _
  · rw [hqueue.1] at hv
    exact .inl hv
  · rw [addNode_node]
    split
    · rename_i hv
      exact .inr (.inr ⟨hv.ge, rfl, rfl⟩)
    · split <;> exact .inl ⟨rfl, rfl⟩

theorem newNode_releases {line : P2C} (hc : t.newNode line = some t') : Releases t t' := by
  obtain ⟨pid, parent, hcase⟩ := newNode_made hc
  rcases hcase with rfl | rfl
  · apply Releases.nodeSolvedUnsat
    unfold updateNodeStatus
    refine (addNode_releases pid parent).modify t.size rfl ?_
    rw [addNode_node, if_pos rfl]
  · have h := addNode_releases (t := t) pid parent
    refine ⟨h.size, h.solvings, fun v hv => ?_, h.node⟩
    rcases List.mem_append.1 hv with hv | hv
    · exact h.waitings v hv
    · rw [List.mem_singleton.1 hv]
      right
      show t.size < (t.addNode pid parent).size
      rw [addNode_size]
      exact Nat.lt_succ_self _

/-! ## The books -/

/-- What the tree of a round says about the processes; `given` are the nodes
that were given one. -/
structure Booked (cores : Nat) (given : List Nat) (t : ParallelTree) : Prop where
  process : ∀ v, (t.node v).assignTo = true ↔ (t.node v).status = .solving
  listed : ∀ v, (t.node v).assignTo = true → v ∈ t.solvings
  holder : ∀ v, (t.node v).assignTo = true → v ∈ given
  made : ∀ v ∈ given, v < t.size ∧ (t.node v).status ≠ .unsolved
  nodup : given.Nodup
  waiting : ∀ v ∈ t.waitings, v < t.size
  room : t.solvings.length ≤ cores

variable {cores : Nat} {given : List Nat}

theorem booked_empty : Booked cores [] empty where
  process v := by
    show false = true ↔ NodeStatus.unsolved = .solving
    decide
  listed v hv := by cases hv
  holder v hv := by cases hv
  made v hv := by cases hv
  nodup := .nil
  waiting v hv := by cases hv
  room := Nat.zero_le _

theorem Booked.releases (h : Booked cores given t) (hr : Releases t t') :
    Booked cores given t' where
  process v := by
    rcases hr.node v with ⟨hs, ha⟩ | ⟨hs, ha⟩ | ⟨-, hs, ha⟩
    · rw [hs, ha]
      exact h.process v
    · rw [ha]
      refine iff_of_false (by decide) fun hf => ?_
      rw [hf] at hs
      cases hs
    · rw [hs, ha]
      decide
  listed v hv := by
    rw [hr.solvings]
    exact h.listed v (hr.assignTo hv)
  holder v hv := h.holder v (hr.assignTo hv)
  made v hv := by
    obtain ⟨hlt, hs⟩ := h.made v hv
    refine ⟨hlt.trans_le hr.size, fun hu => ?_⟩
    rcases hr.node v with ⟨he, -⟩ | ⟨he, -⟩ | ⟨hle, -⟩
    · exact hs (he.symm.trans hu)
    · rw [hu] at he
      cases he
    · omega
  nodup := h.nodup
  waiting v hv := by
    rcases hr.waitings v hv with hv | hv
    · exact (h.waiting v hv).trans_le hr.size
    · exact hv
  room := by
    rw [hr.solvings]
    exact h.room

/-- A node is given a process when it has never had one. -/
theorem Booked.assign (h : Booked cores given t) (hcores : t.solvings.length < cores)
    {rest : List Nat} (hnext : t.getNextWaitingNode t.waitings = some (v, rest)) :
    Booked cores (given ++ [v]) t.runWaitingTask := by
  have hu := getNextWaitingNode_unsolved hnext
  obtain ⟨hmem, hrest, -⟩ := getNextWaitingNode_queue hnext
  have hrun : t.runWaitingTask = ({ t with waitings := rest } : ParallelTree).assignNode v := by
    unfold runWaitingTask
    rw [hnext]
  have hnode : ∀ w, t.runWaitingTask.node w =
      if w = v then { t.node v with status := .solving, assignTo := true } else t.node w := by
    intro w
    rw [hrun]
    show (({ t with waitings := rest } : ParallelTree).modify v fun nd =>
      { nd with status := .solving, assignTo := true }).node w = _
    exact modify_node _
  have hsolvings : t.runWaitingTask.solvings = t.solvings ++ [v] := by
    rw [hrun]
    rfl
  constructor
  · intro w
    rw [hnode]
    split
    · exact iff_of_true rfl rfl
    · exact h.process w
  · intro w hw
    rw [hnode] at hw
    rw [hsolvings, List.mem_append, List.mem_singleton]
    split at hw
    · rename_i he
      exact .inr he
    · exact .inl (h.listed w hw)
  · intro w hw
    rw [hnode] at hw
    rw [List.mem_append, List.mem_singleton]
    split at hw
    · rename_i he
      exact .inr he
    · exact .inl (h.holder w hw)
  · intro w hw
    have hsize : t.runWaitingTask.size = t.size := runWaitingTask_quiet.toSameShape.size
    rw [hnode, hsize]
    rcases List.mem_append.1 hw with hw | hw
    · refine ⟨(h.made w hw).1, ?_⟩
      split
      · exact NodeStatus.noConfusion
      · exact (h.made w hw).2
    · rw [List.mem_singleton.1 hw, if_pos rfl]
      exact ⟨h.waiting v hmem, NodeStatus.noConfusion⟩
  · refine List.nodup_append.2 ⟨h.nodup, List.nodup_singleton v, fun w hw x hx => ?_⟩
    rw [List.mem_singleton.1 hx]
    rintro rfl
    exact (h.made w hw).2 hu
  · intro w hw
    rw [hrun] at hw ⊢
    exact h.waiting w (hrest w hw)
  · rw [hsolvings, List.length_append]
    exact hcores

theorem runWaitingTask_none (hnext : t.getNextWaitingNode t.waitings = none) :
    Releases t t.runWaitingTask := by
  unfold runWaitingTask
  rw [hnext]
  exact ⟨Nat.le_refl _, rfl, nofun, fun _ => .inl ⟨rfl, rfl⟩⟩

theorem Booked.keepSolvings (h : Booked cores given t) {still : List Nat}
    (hall : ∀ v, (t.node v).assignTo = true → v ∈ still) (hlen : still.length ≤ cores) :
    Booked cores given { t with solvings := still } :=
  ⟨h.process, hall, h.holder, h.made, h.nodup, h.waiting, hlen⟩

/-! ## The clean-up -/

theorem releaseSolvings_node (vs : List Nat) (t : ParallelTree) (w : Nat) :
    (((releaseSolvings vs t).1.node w).assignTo = true ↔
      (t.node w).assignTo = true ∧ w ∉ vs) ∧
    (w ∈ (releaseSolvings vs t).2 ↔ (t.node w).assignTo = true ∧ w ∈ vs) := by
  induction vs generalizing t with
  | nil => simp [releaseSolvings]
  | cons v vs ih =>
    unfold releaseSolvings
    split
    · rename_i hv
      obtain ⟨hnode, hended⟩ := ih (t.modify v fun nd => { nd with assignTo := false })
      rw [modify_node] at hnode hended
      simp only [List.mem_cons]
      rw [hnode, hended]
      by_cases hw : w = v
      · subst hw
        simp [hv]
      · simp [hw]
    · rename_i hv
      obtain ⟨hnode, hended⟩ := ih t
      rw [hnode, hended, List.mem_cons]
      by_cases hw : w = v
      · subst hw
        simp [hv]
      · simp [hw]

/-- The clean-up ends every process, as all nodes with one are in the list. -/
theorem roundCleanUp_node (h : ∀ v, (t.node v).assignTo = true → v ∈ t.solvings) (w : Nat) :
    (t.roundCleanUp.1.node w).assignTo = false ∧
      (w ∈ t.roundCleanUp.2 ↔ (t.node w).assignTo = true) := by
  obtain ⟨hnode, hended⟩ := releaseSolvings_node t.solvings t w
  refine ⟨?_, hended.trans ⟨fun hw => hw.1, fun hw => ⟨hw, h w hw⟩⟩⟩
  rw [Bool.eq_false_iff]
  intro hw
  obtain ⟨ha, hno⟩ := hnode.1 hw
  exact hno (h w ha)

end ParallelTree

namespace Coordinator
open ParallelTree

variable {c c' : Coordinator} {v : Nat}

/-- Looking at the solver of a node ends processes and starts none. -/
theorem checkSolvingStatus_releases (o : SolverOutcome) :
    Releases c.tree (c.checkSolvingStatus v o).tree := by
  unfold checkSolvingStatus
  split
  · cases o with
    | error =>
      show Releases _ (c.terminateNode v).tree
      rw [terminateNode_tree]
      exact terminate_releases v
    | running timeUp =>
      simp only
      split
      · rw [terminateNode_tree]
        exact terminate_releases v
      · exact .refl _
    | sat => exact solverSat_releases v
    | unsat =>
      simp only
      split
      · exact solverUnsat_releases v
      · rw [sendPartitionerMessage_tree]
        exact solverUnsat_releases v
  · exact .refl _

/-- A process that is not kept has ended. -/
theorem checkSolvingStatus_gone (hs : (c.tree.node v).status = .solving) {o : SolverOutcome}
    (ho : Round.stillRunning v o = false) :
    ((c.checkSolvingStatus v o).tree.node v).assignTo = false := by
  have hterm : ((c.terminateNode v).tree.node v).assignTo = false := by
    rw [terminateNode_tree]
    unfold terminate
    rw [hs, if_neg (by decide)]
    unfold ParallelTree.terminateNode
    rw [modify_node, if_pos rfl]
  have hunsat : ((c.tree.solverUnsat v).node v).assignTo = false := by
    let t := c.tree.modify v fun nd => { nd with assignTo := false }
    have hself : (t.node v).assignTo = false := by
      rw [modify_node, if_pos rfl]
    have hr : Releases t (t.nodeSolvedUnsat v) := by
      apply Releases.nodeSolvedUnsat
      unfold updateNodeStatus
      exact (Releases.refl t).modify v rfl hself
    rw [Bool.eq_false_iff]
    intro ha
    rw [hr.assignTo ha] at hself
    cases hself
  unfold checkSolvingStatus
  rw [if_pos (NodeStatus.isSolving_iff.2 hs)]
  cases o with
  | error => exact hterm
  | running timeUp =>
    have htime : (timeUp && v != 0) = true := by
      unfold Round.stillRunning at ho
      simpa using ho
    simp only
    rw [if_pos htime]
    exact hterm
  | sat =>
    show ((((c.tree.modify v fun nd => { nd with assignTo := false }).modify v
      fun nd => { nd with status := .sat }).node v)).assignTo = false
    rw [modify_node, if_pos rfl, modify_node, if_pos rfl]
  | unsat =>
    simp only
    split
    · exact hunsat
    · rw [sendPartitionerMessage_tree]
      exact hunsat

/-- A line leaves the tree alone, or makes a node. -/
theorem processPartitionerMsg_tree {l : PrePartition.Line}
    (hc : c.processPartitionerMsg l = some c') :
    c'.tree = c.tree ∨ ∃ line, c.tree.newNode line = some c'.tree := by
  obtain ⟨s, hs, rfl⟩ := Option.map_eq_some_iff.1 hc
  show s.tree = c.tree ∨ ∃ line, c.tree.newNode line = some s.tree
  cases l with
  | node line =>
    refine .inr ⟨line, ?_⟩
    cases line with
    | newUnsatNode pid ppid =>
      obtain ⟨t, ht, rfl⟩ := Option.map_eq_some_iff.1 hs
      rw [(PrePartition.afterIsDone_eq).1]
      exact ht
    | newUnknownNode pid ppid =>
      obtain ⟨t, ht, rfl⟩ := Option.map_eq_some_iff.1 hs
      exact ht
  | unknown =>
    simp only [PrePartition.processPartitionerMsg] at hs
    split at hs
    · cases hs
    · cases hs
      exact .inl rfl
  | sat | unsat | other =>
    cases hs
    exact .inl rfl

theorem processPartitionerMsg_releases {l : PrePartition.Line}
    (hc : c.processPartitionerMsg l = some c') : Releases c.tree c'.tree := by
  rcases processPartitionerMsg_tree hc with he | ⟨line, hline⟩
  · rw [he]
    exact .refl _
  · exact newNode_releases hline

end Coordinator

namespace Round
open ParallelTree

variable {r r' : Round} {cores : Nat}

/-- While `check_solvings_status` runs, the nodes with a process are still to be
looked at, or are kept. -/
def Looks (cores : Nat) (r : Round) : Prop :=
  ∀ todo still, r.point = .check todo still →
    (∀ v, (r.coord.tree.node v).assignTo = true → v ∈ still ∨ v ∈ todo) ∧
      still.length + todo.length ≤ cores

/-- The invariant of a round. -/
structure Inv (cores : Nat) (r : Round) : Prop where
  booked : Booked cores r.given r.coord.tree
  looks : r.Looks cores

theorem Inv.releases (h : r.Inv cores) (hg : r'.given = r.given)
    (hr : Releases r.coord.tree r'.coord.tree)
    (hp : ∀ todo still, r'.point = .check todo still → r.point = .check todo still) :
    r'.Inv cores := by
  refine ⟨hg ▸ h.booked.releases hr, fun todo still hc => ?_⟩
  obtain ⟨hall, hlen⟩ := h.looks todo still (hp todo still hc)
  exact ⟨fun v hv => hall v (hr.assignTo hv), hlen⟩

theorem Inv.checkNode (h : r.Inv cores) {v : Nat} {todo still : List Nat}
    (hp : r.point = .check (v :: todo) still) (hs : (r.coord.tree.node v).status = .solving)
    (o : SolverOutcome) : (r.checkNode v todo still o).Inv cores := by
  have hr := Coordinator.checkSolvingStatus_releases (c := r.coord) (v := v) o
  obtain ⟨hall, hlen⟩ := h.looks _ _ hp
  rw [List.length_cons] at hlen
  unfold Round.checkNode
  simp only
  split
  · refine ⟨h.booked.releases hr, fun todo' still' hc => ?_⟩
    cases hc
    refine ⟨fun w hw => ?_, ?_⟩
    · rw [List.mem_append, List.mem_singleton]
      rcases hall w (hr.assignTo hw) with hw | hw
      · exact .inl (.inl hw)
      · rcases List.mem_cons.1 hw with hw | hw
        · exact .inl (.inr hw)
        · exact .inr hw
    · rw [List.length_append, List.length_singleton]
      omega
  rename_i hrun
  split
  · exact ⟨h.booked.releases hr, fun _ _ hc => by cases hc⟩
  · refine ⟨h.booked.releases hr, fun todo' still' hc => ?_⟩
    cases hc
    refine ⟨fun w hw => ?_, by omega⟩
    rcases hall w (hr.assignTo hw) with hmem | hmem
    · exact .inl hmem
    · rcases List.mem_cons.1 hmem with rfl | hmem
      · -- the process of the node itself is gone
        rw [Coordinator.checkSolvingStatus_gone hs (Bool.eq_false_iff.2 hrun)] at hw
        cases hw
      · exact .inr hmem

theorem inv_inductive (cores : Nat) : (coordinatorRound cores).Inductive (Inv cores) := by
  constructor
  · intro r hr
    rw [show r = idle from hr]
    exact ⟨booked_empty, fun _ _ hc => by cases hc⟩
  · intro r l r' h hs
    have hsame := Releases.refl r.coord.tree
    cases hs with
    | startSolving _ => exact ⟨booked_empty, fun _ _ hc => by cases hc⟩
    | noMessage _ => exact h.releases rfl hsame fun _ _ hc => by cases hc
    | @split _ _ v _ _ =>
      refine h.releases rfl ?_ fun _ _ hc => by cases hc
      show Releases _ (r.coord.setNodeSplit v).tree
      rw [Coordinator.setNodeSplit_tree]
      exact setNodeSplit_releases (h.booked.process v).1
    | assertion _ _ => exact h.releases rfl hsame fun _ _ hc => by cases hc
    | original _ => exact h.releases rfl hsame fun _ _ hc => by cases hc
    | line hp _ hc =>
      refine h.releases rfl (Coordinator.processPartitionerMsg_releases hc) fun _ _ hc => ?_
      rw [show r.point = _ from hc] at hp
      cases hp
    | raise _ _ _ => exact h.releases rfl hsame fun _ _ hc => by cases hc
    | processDone _ _ => exact h.releases rfl hsame fun _ _ hc => hc
    | receiveDone _ _ => exact h.releases rfl hsame fun _ _ hc => hc
    | verdict _ _ => exact h.releases rfl hsame fun _ _ hc => by cases hc
    | received _ _ _ =>
      refine ⟨h.booked, fun todo still hc => ?_⟩
      cases hc
      exact ⟨fun v hv => .inr (h.booked.listed v hv), (Nat.zero_add _).trans_le h.booked.room⟩
    | @skip v todo still hp hs =>
      obtain ⟨hall, hlen⟩ := h.looks _ _ hp
      rw [List.length_cons] at hlen
      refine ⟨h.booked, fun todo' still' hc => ?_⟩
      cases hc
      refine ⟨fun w hw => ?_, by omega⟩
      rcases hall w hw with hmem | hmem
      · exact .inl hmem
      · rcases List.mem_cons.1 hmem with rfl | hmem
        · exact absurd ((h.booked.process w).1 hw) hs
        · exact .inr hmem
    | check o hp hs => exact h.checkNode hp hs o
    | checked hp =>
      obtain ⟨hall, hlen⟩ := h.looks _ _ hp
      refine ⟨h.booked.keepSolvings (fun v hv => ?_) hlen, fun _ _ hc => by cases hc⟩
      exact (hall v hv).resolve_right List.not_mem_nil
    | assign hp hcores hnext =>
      refine ⟨h.booked.assign hcores hnext, fun _ _ hc => ?_⟩
      rw [show r.point = _ from hc] at hp
      cases hp
    | noneWaiting _ _ hnext =>
      exact h.releases rfl (runWaitingTask_none hnext) fun _ _ hc => by cases hc
    | full _ _ => exact h.releases rfl hsame fun _ _ hc => by cases hc
    | roundDone _ => exact ⟨booked_empty, fun _ _ hc => by cases hc⟩

/-- **Solver processes are accounted for.** Whatever the partitioner writes,
the solvers answer and the leader asks for, in every state of a round the nodes
with a process are those that are being solved; they are in `solvings`, and
there are at most `cores` of them; no node was given a process twice; and the
clean-up of the round ends every process that is left. -/
theorem processes_accounted {r : Round} (hr : (coordinatorRound cores).Reachable r) :
    (∀ v, (r.coord.tree.node v).assignTo = true ↔ (r.coord.tree.node v).status = .solving) ∧
      (∀ v, (r.coord.tree.node v).assignTo = true →
        v ∈ r.coord.tree.holders ∧ v ∈ r.coord.tree.solvings ∧ v ∈ r.given) ∧
      r.coord.tree.holders.card ≤ cores ∧ r.given.Nodup ∧
      ∀ v, (r.coord.tree.roundCleanUp.1.node v).assignTo = false ∧
        (v ∈ r.coord.tree.roundCleanUp.2 ↔ (r.coord.tree.node v).assignTo = true) := by
  have h := ((inv_inductive cores).reachable hr).booked
  have hsub : r.coord.tree.holders ⊆ r.coord.tree.solvings.toFinset := fun v hv =>
    List.mem_toFinset.2 (h.listed v (Finset.mem_filter.1 hv).2)
  refine ⟨h.process, fun v hv => ⟨?_, h.listed v hv, h.holder v hv⟩, ?_, h.nodup,
    roundCleanUp_node h.listed⟩
  · exact Finset.mem_filter.2 ⟨Finset.mem_range.2 (h.made v (h.holder v hv)).1, hv⟩
  · calc r.coord.tree.holders.card
        ≤ r.coord.tree.solvings.toFinset.card := Finset.card_le_card hsub
      _ ≤ r.coord.tree.solvings.length := List.toFinset_card_le _
      _ ≤ cores := h.room

/-- The root is being solved on the only core. -/
def rootSolving : Round :=
  ⟨{ Coordinator.startSolving with tree :=
      ((ParallelTree.empty.addNode 0 none).assignNode 0) }, .run, [0]⟩

theorem rootSolving_reachable : (coordinatorRound 1).Reachable rootSolving := by
  have start : Step 1 idle () ⟨Coordinator.startSolving, .receive, []⟩ := .startSolving rfl
  have root : Step 1 ⟨Coordinator.startSolving, .receive, []⟩ () _ :=
    .line (l := .node (.newUnknownNode 0 none)) rfl (by decide) rfl
  exact .step (.step (.step (.step (.step (.init rfl) start) root)
    (.received rfl (by decide) (by decide))) (.checked rfl)) (.assign rfl Nat.zero_lt_one rfl)

/-- In that state the clean-up ends the process of the root. -/
theorem processes_accounted_root :
    rootSolving.coord.tree.holders.card ≤ 1 ∧
      (rootSolving.coord.tree.roundCleanUp.1.node 0).assignTo = false ∧
      0 ∈ rootSolving.coord.tree.roundCleanUp.2 := by
  obtain ⟨-, -, hcard, -, hclean⟩ := processes_accounted rootSolving_reachable
  exact ⟨hcard, (hclean 0).1, (hclean 0).2.2 rfl⟩

end Round

end AriParti.L3
