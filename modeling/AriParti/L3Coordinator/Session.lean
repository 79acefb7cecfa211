import AriParti.L2Partitioner.Told
import AriParti.L3Coordinator.Attended

/-!
# A coordinator with its partitioner

One round of a coordinator, from `start_solving` to `solving_round_done`: the
loop of the coordinator, the partitioner process it has started, and the two
pipes between them. A pipe holds what was written and is not read yet; each
side reads one line at a time, at any time its code reads lines.

The steps of the two sides are those of `Coordinator.Step` and of the
partitioner's `Step`, but here nothing is assumed about the lines one side
gets from the other: the partitioner reads what the coordinator has written,
and the coordinator what the partitioner has. `check_original_task`, which
only the isolated coordinator calls, is open.

## Layout

* `Session`, its pipes and `Session.Step`.
* `Follows`: what the lines read and sent make of the coordinator's tree.
* `allowed_next`: the next line of the partitioner is one that `Allowed` asks
  for.
* `Linked`: the invariant of a session.

## Results

* `linked_inductive`: `Linked` in every run, as long as the round has no result
  and the partitioner runs. In these states each side is in a state it reaches
  on its own.
-/
namespace AriParti.L3
open AriParti.Core AriParti.L2

/-- A coordinator and its partitioner; `taken` counts the lines the coordinator
has read. -/
structure Session (K : Kernel) where
  coord : Coordinator
  parti : Context K
  taken : Nat

namespace Session

variable {K : Kernel}

/-- `start_solving` has started the process. -/
def start : Session K := ⟨Coordinator.startSolving, .empty, 0⟩

/-- What the process prints for its verdict. -/
def verdictLine : Verdict → PrePartition.Line
  | .unsat => .unsat
  | .unknown => .unknown

variable (s : Session K)

/-- All that the partitioner has written. -/
def output : List PrePartition.Line :=
  s.parti.written.map .node ++
    match s.parti.phase with
    | .done v => [verdictLine v]
    | _ => []

/-- The pipe from the partitioner. -/
def toCoord : List PrePartition.Line := s.output.drop s.taken

/-- The pipe to the partitioner. -/
def toParti : List C2P := s.coord.sent.drop s.parti.read.length

inductive Label where
  /-- a step of the partitioner that writes these lines -/
  | parti (lines : List P2C)
  /-- the partitioner reads a line -/
  | read (line : C2P)
  | coord (a : Coordinator.Action)
  /-- `check_original_task` has a verdict -/
  | original (verdict : NodeStatus)

/-- What the coordinator does without its partitioner. -/
def Alone : Coordinator.Action → Prop
  | .check _ _ | .keepSolvings | .runWaitingTask | .split _ | .roundDone => True
  | _ => False

/-- The steps of a round. -/
inductive Step (K : Kernel) (maxAlive cores : Nat) : Session K → Label → Session K → Prop where
  | parti {s : Session K} {p : Context K} {ls : List P2C} : s.coord.status = .solving →
      L2.Step K maxAlive s.parti .tau p → p.written = s.parti.written ++ ls →
      Step K maxAlive cores s (.parti ls) { s with parti := p }
  | read {s : Session K} {line : C2P} {rest : List C2P} : s.coord.status = .solving →
      s.parti.phase = .poll → s.toParti = line :: rest →
      Step K maxAlive cores s (.read line) { s with parti := s.parti.readLine line }
  | line {s : Session K} {l : PrePartition.Line} {rest : List PrePartition.Line}
      {c : Coordinator} : s.coord.status = .solving → s.coord.partitioner ≠ .receiveDone →
      s.toCoord = l :: rest → s.coord.processPartitionerMsg l = some c →
      Step K maxAlive cores s (.coord (.line l)) { s with coord := c, taken := s.taken + 1 }
  | processDone {s : Session K} {v : Verdict} : s.coord.status = .solving →
      s.parti.phase = .done v → s.coord.partitioner = .running →
      Step K maxAlive cores s (.coord .processDone)
        { s with coord := { s.coord with partitioner := .processDone } }
  | receiveDone {s : Session K} : s.coord.status = .solving →
      s.coord.partitioner = .processDone → s.toCoord = [] →
      Step K maxAlive cores s (.coord .receiveDone)
        { s with coord := { s.coord with partitioner := .receiveDone } }
  | alone {s : Session K} {a : Coordinator.Action} {c : Coordinator} : Alone a →
      Coordinator.Step cores s.coord a c →
      Step K maxAlive cores s (.coord a) { s with coord := c }
  | original {s : Session K} {st : NodeStatus} : s.coord.status = .solving →
      st.isSolved = true → Step K maxAlive cores s (.original st)
        { s with coord := { s.coord with result := st } }

end Session

/-- One round of a coordinator with the partitioner it has started; `maxAlive`
is `m_max_alive_tasks`, `cores` is `available_cores`. -/
def session (K : Kernel) (maxAlive cores : Nat) : LTS (Session K) Session.Label where
  init s := s = Session.start
  step := Session.Step K maxAlive cores

namespace ParallelTree

variable {t t' : ParallelTree} {v : Nat}

/-- A line about a new node refutes nodes and changes the others not. -/
theorem newNode_old (h : Shape t) {line : P2C} (ha : t.Allowed (.newNode line))
    (hc : t.newNode line = some t') : t'.size = t.size + 1 ∧
      (∀ w < t.size, (t'.node w).pid = (t.node w).pid ∧
        ((t'.node w).status = .unsat ∨ (t'.node w).status = (t.node w).status)) ∧
      ((t'.node t.size).status = .unsat ∨ (t'.node t.size).status = .unsolved) := by
  obtain ⟨pid, parent, -, -, hcase⟩ := newNode_cases h ha hc
  have hsize : (t.addNode pid parent).size = t.size + 1 := addNode_size
  have hpid : ∀ w < t.size, ((t.addNode pid parent).node w).pid = (t.node w).pid := fun w hw =>
    addNode_old ParallelNode.pid (fun _ _ => rfl) (Nat.ne_of_lt hw)
  have hstatus : ∀ w < t.size, ((t.addNode pid parent).node w).status = (t.node w).status := by
    intro w hw
    rw [addNode_status, if_neg (Nat.ne_of_lt hw)]
  have hnew : ((t.addNode pid parent).node t.size).status = .unsolved := by
    rw [addNode_status, if_pos rfl]
  rcases hcase with rfl | ⟨-, rfl⟩
  · have hs := nodeSolvedUnsat_shape (t := t.addNode pid parent) (v := t.size)
    have hr := nodeSolvedUnsat_refuting (t.addNode pid parent) t.size
    refine ⟨hs.size.trans hsize, fun w hw => ⟨(hs.pid w).trans (hpid w hw), ?_⟩, ?_⟩
    · rw [← hstatus w hw]
      exact (hr.node w).imp_right (congrArg ParallelNode.status)
    · exact .inl nodeSolvedUnsat_self
  · exact ⟨hsize, fun w hw => ⟨hpid w hw, .inr (hstatus w hw)⟩, .inr hnew⟩

end ParallelTree

namespace Coordinator
open ParallelTree

variable {c c' : Coordinator} {v : Nat} {ls : List P2C}

/-! ## A round without a result -/

theorem isDone_false_iff :
    c.isDone = false ↔ c.result.isSolved = false ∧ c.tree.isDone = false :=
  Bool.or_eq_false_iff

/-- What has a result keeps it. -/
theorem undone_of (c' : Coordinator) (hr : c.result.isSolved = true → c'.result.isSolved = true)
    (ht : c'.tree.result = .unsat ∨ c'.tree.result = c.tree.result) (h : c'.isDone = false) :
    c.isDone = false := by
  rw [isDone_false_iff] at h ⊢
  refine ⟨?_, ?_⟩
  · rw [Bool.eq_false_iff]
    intro hs
    rw [hr hs] at h
    cases h.1
  · rcases ht with hu | he
    · rw [isDone_iff.2 (.inr hu)] at h
      cases h.2
    · rw [← h.2]
      exact (isDone_congr he).symm

theorem reader_afterIsDone (s : PrePartition) : s.afterIsDone.isDone = s.isDone := by
  unfold PrePartition.afterIsDone PrePartition.isDone
  split
  · rfl
  · split
    · rename_i hd
      have hr : s.tree.result.isSolved = true := hd
      rw [hd]
      simp [hr]
    · rfl

theorem afterIsDone_isDone : c.afterIsDone.isDone = c.isDone := by
  have htree : c.reader.afterIsDone.tree = c.tree := (PrePartition.afterIsDone_eq).1
  have h := reader_afterIsDone c.reader
  unfold PrePartition.isDone at h
  rw [htree] at h
  exact h

/-- After a step of a round without a result there was none before it. -/
theorem line_undone {l : PrePartition.Line} (hc : c.processPartitionerMsg l = some c')
    (h : c'.isDone = false) : c.isDone = false := by
  obtain ⟨s, hs, rfl⟩ := Option.map_eq_some_iff.1 hc
  have h : s.isDone = false := h
  cases l with
  | node line =>
    have new : ∀ t, c.tree.newNode line = some t →
        ({ c.reader with tree := t } : PrePartition).isDone = false → c.isDone = false := by
      intro t ht hd
      exact undone_of { c with tree := t } id (newNode_result ht) hd
    cases line with
    | newUnsatNode pid ppid =>
      obtain ⟨t, ht, rfl⟩ := Option.map_eq_some_iff.1 hs
      rw [reader_afterIsDone] at h
      exact new t ht h
    | newUnknownNode pid ppid =>
      obtain ⟨t, ht, rfl⟩ := Option.map_eq_some_iff.1 hs
      exact new t ht h
  | unknown =>
    simp only [PrePartition.processPartitionerMsg] at hs
    split at hs
    · cases hs
    · cases hs
      exact h
  | sat | unsat =>
    cases hs
    cases h
  | other =>
    cases hs
    exact h

theorem check_undone (o : SolverOutcome) (h : (c.checkSolvingStatus v o).isDone = false) :
    c.isDone = false := by
  have term : (c.terminateNode v).isDone = false → c.isDone = false := by
    intro ht
    refine undone_of _ (fun hs => ?_) (.inr ?_) ht
    · rwa [(terminateNode_same v).result]
    · rw [terminateNode_tree]
      exact (terminate_quiet v).result
  unfold checkSolvingStatus at h
  split at h
  · cases o with
    | error => exact term h
    | running timeUp =>
      simp only at h
      split at h
      · exact term h
      · exact h
    | sat =>
      -- the tree has a result then
      rw [afterIsDone_isDone] at h
      exact absurd (isDone_false_iff.1 h).2 Bool.true_eq_false.mp
    | unsat =>
      have key : ({ c with tree := c.tree.solverUnsat v } : Coordinator).afterIsDone.isDone =
          false := by
        simp only at h
        split at h
        · exact h
        · rename_i hd
          exact Bool.eq_false_iff.2 hd
      rw [afterIsDone_isDone] at key
      exact undone_of { c with tree := c.tree.solverUnsat v } id
        (solverUnsat_refuting v).result key
  · exact h

theorem split_undone (h : (c.setNodeSplit v).isDone = false) : c.isDone = false := by
  refine undone_of _ (fun hs => ?_) ?_ h
  · rwa [(setNodeSplit_same v).result]
  · rw [setNodeSplit_tree, ← (terminatePath_quiet (v + 1) c.tree v).result]
    exact (nodeSolvedUnsat_refuting (ParallelTree.terminatePath (v + 1) c.tree v) v).result

/-! ## What is sent is only added to -/

theorem sendPartitionerMessage_adds (line : C2P) :
    c.sent <+: (c.sendPartitionerMessage line).sent := by
  unfold sendPartitionerMessage
  split
  · exact List.prefix_append _ _
  · exact List.prefix_refl _

theorem terminateNode_adds (v : Nat) : c.sent <+: (c.terminateNode v).sent := by
  unfold terminateNode
  split
  · exact List.prefix_refl _
  · exact sendPartitionerMessage_adds (c := { c with tree := c.tree.terminateNode v }) _

theorem terminatePath_adds (fuel : Nat) : ∀ (c : Coordinator) (v : Nat),
    c.sent <+: (terminatePath fuel c v).sent := by
  induction fuel with
  | zero => exact fun c _ => List.prefix_refl c.sent
  | succ fuel ih =>
    intro c v
    unfold terminatePath
    simp only
    split
    · exact terminateNode_adds v
    · exact (terminateNode_adds v).trans (ih _ _)

theorem setNodeSplit_adds (v : Nat) : c.sent <+: (c.setNodeSplit v).sent :=
  (terminatePath_adds (v + 1) c v).trans (sendPartitionerMessage_adds (c :=
    { terminatePath (v + 1) c v with
      tree := (terminatePath (v + 1) c v).tree.nodeSolvedUnsat v }) _)

theorem checkSolvingStatus_adds (v : Nat) (o : SolverOutcome) :
    c.sent <+: (c.checkSolvingStatus v o).sent := by
  unfold checkSolvingStatus
  split
  · cases o with
    | error => exact terminateNode_adds v
    | running timeUp =>
      simp only
      split
      · exact terminateNode_adds v
      · exact List.prefix_refl _
    | sat => exact List.prefix_refl _
    | unsat =>
      simp only
      split
      · exact List.prefix_refl _
      · exact sendPartitionerMessage_adds
          (c := ({ c with tree := c.tree.solverUnsat v } : Coordinator).afterIsDone) _
  · exact List.prefix_refl _

/-! ## What the lines make of the tree -/

/-- A line of `ls` announces the node `p` below `q`. -/
def Announces (ls : List P2C) (p : Nat) (q : Option Nat) : Prop :=
  .newUnknownNode p q ∈ ls ∨ .newUnsatNode p q ∈ ls

/-- The nodes that are refuted by a line: of `ls`, or sent. -/
def RefutedLine (ls : List P2C) (sent : List C2P) (p : Nat) : Prop :=
  (∃ q, .newUnsatNode p q ∈ ls) ∨ .unsatNode p ∈ sent

/-- The tree of a coordinator that has read the lines `ls` and has no result. -/
structure Follows (ls : List P2C) (c : Coordinator) : Prop where
  kept : Kept (Announces ls) (RefutedLine ls c.sent) c.tree
  queued : Queued c.tree
  running : c.partitioner = .running
  terminated : ∀ v < c.tree.size, (c.tree.node v).status = .terminated →
    .terminateNode (c.tree.node v).pid ∈ c.sent
  ended : ∀ p, .terminateNode p ∈ c.sent → ∃ v, c.tree.pid2node p = some v ∧
    ((c.tree.node v).status = .terminated ∨ (c.tree.node v).status = .unsat)

theorem follows_start : startSolving.Follows [] where
  kept := by
    have hE : Announces [] = fun _ _ => False := by
      funext p q
      simp [Announces]
    have hD : RefutedLine [] startSolving.sent = fun _ => False := by
      funext p
      simp [RefutedLine, startSolving]
    rw [hE, hD]
    exact kept_empty
  queued := queued_empty
  running := rfl
  terminated v hv := absurd hv (Nat.not_lt_zero v)
  ended p hp := absurd hp List.not_mem_nil

theorem sendPartitionerMessage_sent (h : c.partitioner = .running) (line : C2P) :
    (c.sendPartitionerMessage line).sent = c.sent ++ [line] := by
  unfold sendPartitionerMessage
  rw [if_pos h]

/-- Statuses may change when nothing ends that had not. -/
theorem Follows.step (h : c.Follows ls) (hq : Quiet c.tree c'.tree) (hqueue : Queued c'.tree)
    (hp : c'.partitioner = c.partitioner) (hsent : c'.sent = c.sent)
    (hst : ∀ w, (c'.tree.node w).status = .terminated ↔ (c.tree.node w).status = .terminated) :
    c'.Follows ls := by
  refine ⟨?_, hqueue, hp.trans h.running, fun w hw hw' => ?_, fun p hp => ?_⟩
  · rw [hsent]
    exact h.kept.quiet hq
  · rw [hq.size] at hw
    rw [hsent, hq.pid]
    exact h.terminated w hw ((hst w).1 hw')
  · rw [hsent] at hp
    obtain ⟨v, hv, hs⟩ := h.ended p hp
    refine ⟨v, by rw [hq.pid2node]; exact hv, ?_⟩
    rw [hst, hq.unsat]
    exact hs

/-- A node is terminated, and the partitioner is told. -/
theorem Follows.terminateNode (h : c.Follows ls) (hv : v < c.tree.size) :
    (c.terminateNode v).Follows ls := by
  by_cases he : (c.tree.node v).status.isEnded = true
  · unfold Coordinator.terminateNode
    rw [if_pos he]
    exact h
  · have htree := terminateNode_tree (c := c) v
    have hq := terminate_quiet (t := c.tree) v
    have hqueue := h.queued.terminate v
    have hstatus := terminate_status (t := c.tree) v
    have hsent : (c.terminateNode v).sent = c.sent ++ [.terminateNode (c.tree.node v).pid] := by
      unfold Coordinator.terminateNode
      rw [if_neg he]
      exact sendPartitionerMessage_sent (by exact h.running) _
    have hrun := (terminateNode_same (c := c) v).partitioner
    have hR : RefutedLine ls (c.sent ++ [.terminateNode (c.tree.node v).pid]) =
        RefutedLine ls c.sent := by
      funext p
      simp [RefutedLine]
    rw [← htree] at hq hqueue hstatus
    have hself : ((c.terminateNode v).tree.node v).status = .terminated := by
      rw [hstatus, if_pos ⟨rfl, Bool.eq_false_iff.2 he⟩]
    refine ⟨?_, hqueue, hrun.trans h.running, fun w hw hw' => ?_, fun p hp => ?_⟩
    · rw [hsent, hR]
      exact h.kept.quiet hq
    · rw [hq.size] at hw
      rw [hsent, hq.pid, List.mem_append]
      rw [hstatus] at hw'
      split at hw'
      · rename_i hwv
        rw [hwv.1]
        exact .inr List.mem_cons_self
      · exact .inl (h.terminated w hw hw')
    · rw [hsent, List.mem_append, List.mem_singleton] at hp
      rw [hq.pid2node]
      rcases hp with hp | hp
      · obtain ⟨w, hw, hs⟩ := h.ended p hp
        refine ⟨w, hw, ?_⟩
        rw [hstatus]
        split
        · exact .inl rfl
        · exact hs
      · cases hp
        exact ⟨v, h.kept.shape.number hv, .inl hself⟩

theorem Follows.terminatePath (fuel : Nat) : ∀ (c : Coordinator) (v : Nat), c.Follows ls →
    v < c.tree.size → (Coordinator.terminatePath fuel c v).Follows ls := by
  induction fuel with
  | zero => exact fun _ _ h _ => h
  | succ fuel ih =>
    intro c v h hv
    have hone := h.terminateNode hv
    have hsize : (c.terminateNode v).tree.size = c.tree.size := by
      rw [terminateNode_tree]
      exact (terminate_quiet v).size
    unfold Coordinator.terminatePath
    simp only
    split
    · exact hone
    · rename_i p hp
      have hpv := hone.kept.shape.grown.parentLt v p hp
      exact ih _ p hone (by omega)

/-- A node is refuted, and the partitioner is told. -/
theorem Follows.refute (h : c.Follows ls) {t : ParallelTree}
    (hk : Kept (Announces ls) (With (RefutedLine ls c.sent) (c.tree.node v).pid) t)
    (hs : SameShape c.tree t) (hr : Refuting c.tree t) (ht : c'.tree = t)
    (hp : c'.partitioner = c.partitioner)
    (hsent : c'.sent = c.sent ++ [.unsatNode (c.tree.node v).pid]) : c'.Follows ls := by
  have hR : RefutedLine ls (c.sent ++ [.unsatNode (c.tree.node v).pid]) =
      With (RefutedLine ls c.sent) (c.tree.node v).pid := by
    funext p
    simp only [RefutedLine, With, List.mem_append, List.mem_singleton, C2P.unsatNode.injEq,
      or_assoc, eq_comm]
  refine ⟨?_, ?_, hp.trans h.running, fun w hw hw' => ?_, fun p hp => ?_⟩ <;> rw [ht] at *
  · rw [hsent, hR]
    exact hk
  · exact h.queued.refuting hs hr
  · have hold := (hr.node w).resolve_left fun hu => by rw [hw'] at hu; cases hu
    rw [hs.size] at hw
    rw [hold] at hw' ⊢
    rw [hsent]
    exact List.mem_append_left _ (h.terminated w hw hw')
  · rw [hsent, List.mem_append, List.mem_singleton] at hp
    rcases hp with hp | hp
    · obtain ⟨w, hw, hst⟩ := h.ended p hp
      refine ⟨w, by rw [hs.pid2node]; exact hw, ?_⟩
      rcases hr.node w with hu | he
      · exact .inr hu
      · rw [he]
        exact hst
    · cases hp

/-- **A line about a node.** -/
theorem Follows.node (h : c.Follows ls) {line : P2C} (ha : c.tree.Allowed (.newNode line))
    (hc : c.processPartitionerMsg (.node line) = some c') : c'.Follows (ls ++ [line]) := by
  obtain ⟨s, hs, rfl⟩ := Option.map_eq_some_iff.1 hc
  have htree : ∃ t, c.tree.newNode line = some t ∧ s.tree = t := by
    cases line with
    | newUnsatNode pid ppid =>
      obtain ⟨t, ht, rfl⟩ := Option.map_eq_some_iff.1 hs
      exact ⟨t, ht, (PrePartition.afterIsDone_eq).1⟩
    | newUnknownNode pid ppid =>
      obtain ⟨t, ht, rfl⟩ := Option.map_eq_some_iff.1 hs
      exact ⟨t, ht, rfl⟩
  obtain ⟨t, ht, he⟩ := htree
  obtain ⟨hsize, hold, hnew⟩ := newNode_old h.kept.shape ha ht
  have hk : Kept (Announces (ls ++ [line])) (RefutedLine (ls ++ [line]) c.sent) t := by
    cases line with
    | newUnsatNode pid ppid =>
      have hk := h.kept.newUnsat ha ht
      have hE : Announces (ls ++ [.newUnsatNode pid ppid]) =
          fun p q => Announces ls p q ∨ pid = p ∧ ppid = q := by
        funext p q
        simp [Announces, or_assoc, eq_comm]
      have hD : RefutedLine (ls ++ [.newUnsatNode pid ppid]) c.sent =
          With (RefutedLine ls c.sent) pid := by
        funext p
        simp only [RefutedLine, With, List.mem_append, List.mem_singleton, P2C.newUnsatNode.injEq,
          exists_or, exists_and_left, exists_eq, and_true, eq_iff_iff, eq_comm (a := p)]
        tauto
      rw [hE, hD]
      exact hk
    | newUnknownNode pid ppid =>
      have hk := h.kept.newUnknown ha ht
      have hE : Announces (ls ++ [.newUnknownNode pid ppid]) =
          fun p q => Announces ls p q ∨ pid = p ∧ ppid = q := by
        funext p q
        simp only [Announces, List.mem_append, List.mem_singleton, P2C.newUnknownNode.injEq,
          reduceCtorEq, or_false, eq_iff_iff, eq_comm (a := p), eq_comm (a := q)]
        tauto
      have hD : RefutedLine (ls ++ [.newUnknownNode pid ppid]) c.sent =
          RefutedLine ls c.sent := by
        funext p
        simp [RefutedLine]
      rw [hE, hD]
      exact hk
  have hpids : ∀ p w, c.tree.pid2node p = some w → t.pid2node p = some w := by
    intro p w hw
    obtain ⟨hlt, hpid⟩ := (h.kept.shape.pids p w).1 hw
    exact (hk.shape.pids p w).2 ⟨by omega, (hold w hlt).1.trans hpid⟩
  have hq := h.queued.newNode h.kept.shape ha ht
  refine ⟨?_, ?_, h.running, fun w hw hw' => ?_, fun p hp => ?_⟩
  · show Kept _ _ s.tree
    rw [he]
    exact hk
  · show Queued s.tree
    rw [he]
    exact hq
  · have hw : w < s.tree.size := hw
    have hw' : (s.tree.node w).status = .terminated := hw'
    show C2P.terminateNode (s.tree.node w).pid ∈ c.sent
    rw [he] at hw hw' ⊢
    by_cases hlt : w < c.tree.size
    · obtain ⟨hpid, hst⟩ := hold w hlt
      rw [hpid]
      rcases hst with hu | hsame
      · rw [hw'] at hu
        cases hu
      · exact h.terminated w hlt (hsame.symm.trans hw')
    · have hws : w = c.tree.size := by omega
      rw [hws] at hw'
      rcases hnew with hu | hu <;> rw [hw'] at hu <;> cases hu
  · obtain ⟨w, hw, hst⟩ := h.ended p hp
    show ∃ v, s.tree.pid2node p = some v ∧
      ((s.tree.node v).status = .terminated ∨ (s.tree.node v).status = .unsat)
    rw [he]
    refine ⟨w, hpids p w hw, ?_⟩
    obtain ⟨hlt, -⟩ := (h.kept.shape.pids p w).1 hw
    rcases (hold w hlt).2 with hu | hsame
    · exact .inr hu
    · rw [hsame]
      exact hst

/-- **A look at a solver.** -/
theorem Follows.check (h : c.Follows ls) (hv : v < c.tree.size) {o : SolverOutcome}
    (hd : (c.checkSolvingStatus v o).isDone = false) : (c.checkSolvingStatus v o).Follows ls := by
  unfold checkSolvingStatus at hd ⊢
  split
  · rename_i hst
    rw [if_pos hst] at hd
    cases o with
    | error => exact h.terminateNode hv
    | running timeUp =>
      simp only
      split
      · exact h.terminateNode hv
      · exact h
    | sat =>
      rw [afterIsDone_isDone] at hd
      exact absurd (isDone_false_iff.1 hd).2 Bool.true_eq_false.mp
    | unsat =>
      have hq := unassign_quiet (t := c.tree) v
      have hs : SameShape c.tree (c.tree.solverUnsat v) :=
        hq.toSameShape.trans nodeSolvedUnsat_shape
      have hk : Kept (Announces ls) (With (RefutedLine ls c.sent) (c.tree.node v).pid)
          (c.tree.solverUnsat v) :=
        (h.kept.quiet hq).solvedUnsat (by rw [hq.pid2node]; exact h.kept.shape.number hv)
      simp only at hd ⊢
      split
      · rename_i hdone
        rw [if_pos hdone, hdone] at hd
        cases hd
      · refine h.refute hk hs (solverUnsat_refuting v) ?_ ?_ ?_
        · exact sendPartitionerMessage_tree _
        · exact (sendPartitionerMessage_same _).partitioner
        · exact sendPartitionerMessage_sent (by exact h.running) _
  · exact h

/-- **A node handed over.** -/
theorem Follows.split (h : c.Follows ls) (hv : v < c.tree.size) : (c.setNodeSplit v).Follows ls := by
  have hpath := h.terminatePath (v + 1) c v hv
  have hq := terminatePath_quiet (v + 1) c.tree v
  have htree := terminatePath_tree (v + 1) c v
  rw [← htree] at hq
  have hpid := hq.pid v
  have hnum : (Coordinator.terminatePath (v + 1) c v).tree.pid2node (c.tree.node v).pid = some v := by
    rw [hq.pid2node]
    exact h.kept.shape.number hv
  have hk := hpath.kept.solvedUnsat hnum
  rw [← hpid] at hk
  refine hpath.refute hk nodeSolvedUnsat_shape (nodeSolvedUnsat_refuting _ v) ?_ ?_ ?_
  · unfold setNodeSplit
    exact sendPartitionerMessage_tree _
  · unfold setNodeSplit
    exact (sendPartitionerMessage_same _).partitioner
  · have hrun := hpath.running
    unfold setNodeSplit
    exact sendPartitionerMessage_sent (by exact hrun) _

theorem Follows.runWaitingTask (h : c.Follows ls) :
    ({ c with tree := c.tree.runWaitingTask } : Coordinator).Follows ls := by
  refine h.step runWaitingTask_quiet h.queued.runWaitingTask rfl rfl fun w => ?_
  rcases runWaitingTask_node (t := c.tree) w with he | ⟨hu, he⟩
  · rw [show (({ c with tree := c.tree.runWaitingTask } : Coordinator).tree.node w) = _ from he]
  · rw [show (({ c with tree := c.tree.runWaitingTask } : Coordinator).tree.node w) = _ from he, hu]
    exact iff_of_false NodeStatus.noConfusion NodeStatus.noConfusion

theorem Follows.keepSolvings (h : c.Follows ls) {vs : List Nat} (hvs : vs.Sublist c.tree.solvings) :
    (c.keepSolvings vs).Follows ls := by
  have hq : Quiet c.tree (c.keepSolvings vs).tree :=
    ⟨⟨rfl, rfl, fun _ => rfl, fun _ => rfl, fun _ => rfl⟩, fun _ => .rfl, rfl⟩
  refine h.step hq ⟨h.queued.waiting, h.queued.process, h.queued.plain, fun w hw =>
    h.queued.lt w (hw.imp_right fun hm => hvs.subset hm)⟩ rfl rfl fun w => .rfl

theorem selectSplitNode_lt (h : Shape c.tree) {ready : Nat → Bool} {fuel : Nat}
    (hsel : c.tree.selectSplitNode ready fuel = some (.node v)) : v < c.tree.size := by
  obtain ⟨p, -, hmem, -⟩ := selectSplitNode_sibling h.nodup hsel
  exact (h.child_lt hmem).2

end Coordinator

namespace ParallelTree
open Coordinator

variable {K : Kernel} {p : Context K} {t : ParallelTree} {ls rest : List P2C} {line : P2C}

theorem announces_id {q : Option Nat} {n : Nat} (h : Announces ls n q) :
    n ∈ ls.map P2C.id := by
  rcases h with h | h
  · exact List.mem_map.2 ⟨_, h, rfl⟩
  · exact List.mem_map.2 ⟨_, h, rfl⟩

/-- What a line says about the partitioner's tree. -/
theorem announces_node (hl : p.Lines) {n : Nat} {q : Option Nat}
    (h : Announces p.written n q) : n < p.size ∧ (p.node n).parent = q := by
  rcases h with h | h
  · exact ⟨(hl.unknown n q h).1, (hl.unknown n q h).2.1⟩
  · exact ⟨(hl.unsat n q h).1, (hl.unsat n q h).2.1⟩

/-- The nodes of the coordinator are those of the lines it has read. -/
theorem Kept.announced {D : Nat → Prop} (h : Kept (Announces ls) D t) {v : Nat}
    (hv : v < t.size) : Announces ls (t.node v).pid (t.parentPid v) :=
  (h.made _ _).2 ⟨v, h.shape.number hv, rfl⟩

/-- **The next line** is about a new node: a first node without a parent, or a
node below one that was announced and has one child at most. -/
theorem allowed_next (hi : p.Inv) (hl : p.Lines) (hg : p.Genealogy) (ht : p.Told)
    {D : Nat → Prop} (hk : Kept (Announces ls) D t) (hw : p.written = ls ++ line :: rest) :
    t.Allowed (.newNode line) := by
  obtain ⟨b, id, pid, rfl⟩ : ∃ b id pid, line = Context.newNode b id pid := by
    cases line with
    | newUnknownNode id pid => exact ⟨false, id, pid, rfl⟩
    | newUnsatNode id pid => exact ⟨true, id, pid, rfl⟩
  have hid : P2C.id (Context.newNode b id pid) = id := by cases b <;> rfl
  have hsub : ∀ n q, Announces ls n q → Announces p.written n q := by
    intro n q h
    rw [hw]
    exact h.imp (List.mem_append_left _) (List.mem_append_left _)
  have hself : Announces p.written id pid := by
    have hmem : Context.newNode b id pid ∈ p.written := by
      rw [hw]
      exact List.mem_append_right _ List.mem_cons_self
    cases b
    · exact .inl hmem
    · exact .inr hmem
  obtain ⟨hlt, hpar⟩ := announces_node hl hself
  -- no line read before is about the node
  have hnew : id ∉ ls.map P2C.id := by
    have hd := ht.distinct
    rw [hw, List.map_append, List.map_cons, hid] at hd
    exact fun hm => (List.nodup_append.1 hd).2.2 id hm id List.mem_cons_self rfl
  have hnone : t.pid2node id = none := by
    by_contra hsome
    obtain ⟨v, hv⟩ := Option.ne_none_iff_exists'.1 hsome
    exact hnew (announces_id ((hk.made id _).2 ⟨v, hv, rfl⟩))
  have hroom : t.HasRoom pid := by
    cases pid with
    | none =>
      -- only the root has no parent
      by_contra hs
      have hpos : 0 < t.size := Nat.pos_of_ne_zero hs
      have hroot := hk.announced hpos
      have hnull : t.parentPid 0 = none := by
        unfold parentPid
        rw [hk.shape.root_parent]
        rfl
      rw [hnull] at hroot
      have zero : ∀ n, Announces p.written n none → n = 0 := by
        intro n hn
        obtain ⟨hn, hp⟩ := announces_node hl hn
        by_contra h0
        obtain ⟨q, hq⟩ := hg.parent n hn h0
        rw [hp] at hq
        cases hq
      rw [zero id hself, ← zero _ (hsub _ _ hroot)] at hnew
      exact hnew (announces_id hroot)
    | some q =>
      obtain ⟨q', hq'⟩ := hl.ordered ls rest b id q hw
      obtain ⟨v, hv, -⟩ := (hk.made q q').1 (.inl hq')
      obtain ⟨hvlt, hvpid⟩ := (hk.shape.pids q v).1 hv
      refine ⟨v, hv, ?_⟩
      -- the children made so far and the new one are children of `q`
      let cs := (t.node v).children.map fun c => (t.node c).pid
      have hcs : ∀ n ∈ cs, Announces ls n (some q) := by
        intro n hn
        obtain ⟨c, hc, rfl⟩ := List.mem_map.1 hn
        obtain ⟨-, hclt⟩ := hk.shape.child_lt hc
        have ha := hk.announced hclt
        have hp : (t.node c).parent = some v := ((hk.shape.grown.child v c).1 hc).2
        unfold parentPid at ha
        rwa [hp, Option.map_some, hvpid] at ha
      have hnodup : cs.Nodup := by
        refine List.Nodup.map_on (fun a ha c hc he => ?_) (hk.shape.nodup v)
        exact hk.shape.pid_inj (hk.shape.child_lt ha).2 (hk.shape.child_lt hc).2 he
      have hin : ∀ n, Announces p.written n (some q) → n ∈ (p.node q).children := by
        intro n hn
        obtain ⟨hn, hp⟩ := announces_node hl hn
        exact (hi.grown.child q n).2 ⟨hn, hp⟩
      have hall : (id :: cs).Subperm (p.node q).children := by
        refine List.Nodup.subperm (List.nodup_cons.2 ⟨fun hm => ?_, hnodup⟩) fun n hn => ?_
        · exact hnew (announces_id (hcs id hm))
        · rcases List.mem_cons.1 hn with rfl | hn
          · exact hin n hself
          · exact hin n (hsub _ _ (hcs n hn))
      obtain ⟨a, c, hac, -⟩ := hg.children q (List.ne_nil_of_mem (hin id hself))
      have hlen := hall.length_le
      rw [hac, List.length_cons, List.length_map] at hlen
      simp only [List.length_cons, List.length_nil] at hlen
      omega
  cases b
  · exact ⟨hnone, hroom⟩
  · exact ⟨hnone, hroom⟩

end ParallelTree

namespace Session
open Context ParallelTree Coordinator

variable {K : Kernel} {maxAlive cores : Nat} {s s' : Session K}

/-! ## The session while it is open -/

/-- The round has no result, and the partitioner runs. -/
structure Live (s : Session K) : Prop where
  solving : s.coord.status = .solving
  undone : s.coord.isDone = false
  running : ∀ v, s.parti.phase ≠ .done v

/-- The lines the coordinator has read. -/
def readLines (s : Session K) : List P2C := s.parti.written.take s.taken

/-- The invariant: each side is in a state that it reaches on its own, the
coordinator has followed the lines it has read, and the partitioner has read a
part of what was sent. -/
structure Linked (maxAlive cores : Nat) (s : Session K) : Prop where
  parti : (machine K maxAlive).Reachable s.parti
  coord : (distCoordinator cores).Reachable s.coord
  follows : s.coord.Follows s.readLines
  taken : s.taken ≤ s.parti.written.length
  read : s.parti.read <+: s.coord.sent

/-- A step of the process on its own reads nothing. -/
theorem tau_read {p p' : Context K} (h : L2.Step K maxAlive p .tau p') : p'.read = p.read := by
  cases h with
  | initUnsat | propagateUnsat | init | enter | heapEmpty => rfl
  | @announce _ t cs ch₀ ch _ _ _ _ => cases ch <;> rfl
  | @createNewTask ni _ _ =>
    unfold createNewTask
    simp only
    split
    · rfl
    · split
      · rfl
      · split
        · rfl
        · split <;> rfl
  | display =>
    unfold displayCurrentTask
    split <;> rfl

/-- A process that has ended does nothing. -/
theorem tau_running {p p' : Context K} (h : L2.Step K maxAlive p .tau p') (v : Verdict) :
    p.phase ≠ .done v := by
  intro hd
  cases h with
  | initUnsat | propagateUnsat | init => cases hd
  | announce hp | enter hp | createNewTask hp | heapEmpty hp | display hp =>
    rw [hp] at hd
    cases hd

/-- What the coordinator sends is about announced nodes. -/
theorem Linked.announced (h : s.Linked maxAlive cores) {line : C2P} (hline : line ∈ s.coord.sent) :
    ∀ id, line = .unsatNode id ∨ line = .terminateNode id → s.parti.Announced id := by
  have told : ∀ id v, s.coord.tree.pid2node id = some v → s.parti.Announced id := by
    intro id v hv
    rcases (h.follows.kept.made id _).2 ⟨v, hv, rfl⟩ with ha | ha
    · exact ⟨_, .inl (List.mem_of_mem_take ha)⟩
    · exact ⟨_, .inr (List.mem_of_mem_take ha)⟩
  rintro id (rfl | rfl)
  · obtain ⟨v, hv⟩ := Option.isSome_iff_exists.1 (h.follows.kept.known id (.inr hline))
    exact told id v hv
  · obtain ⟨v, hv, -⟩ := h.follows.ended id hline
    exact told id v hv

theorem toParti_eq (h : s.Linked maxAlive cores) : s.coord.sent = s.parti.read ++ s.toParti := by
  obtain ⟨rest, hrest⟩ := h.read
  unfold toParti
  rw [← hrest, List.drop_left]

theorem toCoord_eq (hrunning : ∀ v, s.parti.phase ≠ .done v) :
    s.toCoord = (s.parti.written.drop s.taken).map .node := by
  have hout : s.output = s.parti.written.map .node := by
    unfold output
    split
    · rename_i v hv
      exact absurd hv (hrunning v)
    · exact List.append_nil _
  unfold toCoord
  rw [hout, List.map_drop]

/-- After a step of an open session it was open before. -/
theorem Step.live {l : Label} (hs : Step K maxAlive cores s l s') (h : s'.Live) : s.Live := by
  obtain ⟨hsolving, hundone, hrunning⟩ := h
  cases hs with
  | parti hst hp _ => exact ⟨hst, hundone, tau_running hp⟩
  | read hst hp _ => exact ⟨hst, hundone, fun v hv => by rw [hp] at hv; cases hv⟩
  | line hst _ _ hc => exact ⟨hst, line_undone hc hundone, hrunning⟩
  | processDone hst hd _ => exact absurd hd (hrunning _)
  | receiveDone hst _ _ => exact ⟨hst, hundone, hrunning⟩
  | alone ha hc =>
    cases hc with
    | startSolving | line | processDone | receiveDone => exact ha.elim
    | check o hst _ => exact ⟨hst, check_undone o hundone, hrunning⟩
    | keepSolvings hst _ _ => exact ⟨hst, hundone, hrunning⟩
    | runWaitingTask hst _ =>
      exact ⟨hst, undone_of { s.coord with tree := s.coord.tree.runWaitingTask } id
        (.inr runWaitingTask_quiet.result) hundone, hrunning⟩
    | split hst _ => exact ⟨hst, split_undone hundone, hrunning⟩
    | roundDone => cases hsolving
  | original _ hst =>
    have hres := (isDone_false_iff.1 hundone).1
    exact absurd (hst.symm.trans hres) Bool.true_eq_false.mp

theorem linked_start : (start : Session K).Linked maxAlive cores where
  parti := .init rfl
  coord := .step (.init rfl) (.startSolving rfl)
  follows := follows_start
  taken := Nat.le_refl 0
  read := List.nil_prefix

/-- The partitioner writes; what was read before is the same. -/
theorem Linked.write (h : s.Linked maxAlive cores) {p : Context K}
    (hr : (machine K maxAlive).Reachable p) {ls : List P2C}
    (hw : p.written = s.parti.written ++ ls) (hread : p.read <+: s.coord.sent) :
    ({ s with parti := p } : Session K).Linked maxAlive cores := by
  have htake : ({ s with parti := p } : Session K).readLines = s.readLines := by
    show p.written.take s.taken = s.parti.written.take s.taken
    rw [hw, List.take_append_of_le_length h.taken]
  refine ⟨hr, h.coord, ?_, ?_, hread⟩
  · rw [htake]
    exact h.follows
  · show s.taken ≤ p.written.length
    rw [hw, List.length_append]
    exact Nat.le_add_right_of_le h.taken

/-- The coordinator reads the next line. -/
theorem Linked.line (h : s.Linked maxAlive cores) (hlive : s.Live) {l : PrePartition.Line}
    {rest : List PrePartition.Line} (hpipe : s.toCoord = l :: rest) {c : Coordinator}
    (hc : s.coord.processPartitionerMsg l = some c) :
    ({ s with coord := c, taken := s.taken + 1 } : Session K).Linked maxAlive cores := by
  rw [toCoord_eq hlive.running] at hpipe
  obtain ⟨line, more, hdrop, rfl, -⟩ := List.map_eq_cons_iff.1 hpipe
  have hw : s.parti.written = s.readLines ++ line :: more := by
    rw [← hdrop]
    exact (List.take_append_drop _ _).symm
  have hlen : s.readLines.length = s.taken := List.length_take_of_le h.taken
  have htake : s.parti.written.take (s.taken + 1) = s.readLines ++ [line] := by
    rw [hw, ← hlen, List.take_append, List.take_of_length_le (Nat.le_succ _)]
    simp
  -- a line was written, so the process has made its first call
  obtain ⟨⟨hrun, hgen⟩, htold⟩ := told_inductive.reachable h.parti
  have hne : s.parti ≠ .empty := by
    intro he
    rw [he] at hw
    exact absurd hw.symm (List.append_ne_nil_of_right_ne_nil _ (List.cons_ne_nil _ _))
  obtain ⟨hi, hl⟩ := hrun.resolve_left hne
  have hallowed := allowed_next hi hl (hgen.resolve_left hne) htold h.follows.kept hw
  have hpart : s.coord.partitioner ≠ .receiveDone := by
    rw [h.follows.running]
    exact PartitionerStatus.noConfusion
  have hsent : c.sent = s.coord.sent := by
    obtain ⟨_, -, rfl⟩ := Option.map_eq_some_iff.1 hc
    rfl
  refine ⟨h.parti, h.coord.step (.line (l := .node line) hlive.solving hpart hallowed hc), ?_, ?_, ?_⟩
  · show c.Follows (s.parti.written.take (s.taken + 1))
    rw [htake]
    exact h.follows.node hallowed hc
  · show s.taken + 1 ≤ s.parti.written.length
    rw [hw, List.length_append, List.length_cons, hlen]
    omega
  · show s.parti.read <+: c.sent
    rw [hsent]
    exact h.read

/-- A step of the coordinator that reads nothing. -/
theorem Linked.alone (h : s.Linked maxAlive cores) {a : Coordinator.Action} {c : Coordinator}
    (hs : Coordinator.Step cores s.coord a c) (hf : c.Follows s.readLines)
    (hsent : s.coord.sent <+: c.sent) :
    ({ s with coord := c } : Session K).Linked maxAlive cores :=
  ⟨h.parti, h.coord.step hs, hf, h.taken, h.read.trans hsent⟩

/-- **Both sides, step by step.** -/
theorem linked_inductive (K : Kernel) (maxAlive cores : Nat) :
    (session K maxAlive cores).Inductive fun s => s.Live → s.Linked maxAlive cores := by
  refine ⟨fun s hs _ => ?_, fun s l s' hI hs hlive' => ?_⟩
  · rw [show s = start from hs]
    exact linked_start
  have hlive := Step.live hs hlive'
  have h := hI hlive
  cases hs with
  | parti _ hp hw =>
    refine h.write (h.parti.step hp) hw ?_
    rw [tau_read hp]
    exact h.read
  | @read line rest _ hphase hpipe =>
    have hsent : s.coord.sent = s.parti.read ++ line :: rest := by
      rw [toParti_eq h, hpipe]
    have hmem : line ∈ s.coord.sent := by
      rw [hsent]
      exact List.mem_append_right _ List.mem_cons_self
    have hw : (s.parti.readLine line).written = s.parti.written ++ [] :=
      ((parseLine_recolors line).written).trans (List.append_nil _).symm
    refine h.write (h.parti.step (.readLine line hphase (h.announced hmem))) hw ?_
    show s.parti.read ++ [line] <+: s.coord.sent
    rw [hsent, List.prefix_append_right_inj]
    exact List.prefix_append [line] rest
  | line _ _ hpipe hc => exact h.line hlive hpipe hc
  | processDone _ hd _ => exact absurd hd (hlive.running _)
  | receiveDone _ hp _ =>
    rw [h.follows.running] at hp
    cases hp
  | alone ha hc =>
    have hstep := hc
    cases hc with
    | startSolving | line | processDone | receiveDone => exact ha.elim
    | @check v o hst hv =>
      have hlt := h.follows.queued.lt v (.inr hv)
      exact h.alone hstep (h.follows.check hlt hlive'.undone) (checkSolvingStatus_adds v o)
    | keepSolvings _ hvs _ =>
      exact h.alone hstep (h.follows.keepSolvings hvs) (List.prefix_refl _)
    | runWaitingTask _ _ => exact h.alone hstep h.follows.runWaitingTask (List.prefix_refl _)
    | @split ready fuel v _ hsel =>
      have hlt := selectSplitNode_lt h.follows.kept.shape hsel
      exact h.alone hstep (h.follows.split hlt) (setNodeSplit_adds v)
    | roundDone _ hd =>
      rw [hlive.undone] at hd
      cases hd
  | original _ hst =>
    have hres := (isDone_false_iff.1 hlive'.undone).1
    exact absurd (hst.symm.trans hres) Bool.true_eq_false.mp

/-! ## One side after the other -/

/-- A step of the process on its own. -/
def Silent (_ : Context K) (l : L2.Label) : Prop := l = .tau

/-- The process writes at the end. -/
theorem tau_written {p p' : Context K} (h : L2.Step K maxAlive p .tau p') :
    ∃ ls, p'.written = p.written ++ ls := by
  cases h with
  | initUnsat | propagateUnsat | init => exact ⟨[], rfl⟩
  | enter | heapEmpty => exact ⟨[], (List.append_nil _).symm⟩
  | @announce _ t cs ch₀ ch _ _ _ _ =>
    cases ch with
    | none => exact ⟨_, rfl⟩
    | some lr => exact ⟨_, (List.append_assoc ..).trans (List.append_assoc ..)⟩
  | @createNewTask ni _ _ =>
    unfold createNewTask
    simp only
    split
    · exact ⟨[], (List.append_nil _).symm⟩
    · split
      · exact ⟨[], (List.append_nil _).symm⟩
      · split
        · exact ⟨[], (List.append_nil _).symm⟩
        · split
          · exact ⟨_, rfl⟩
          · exact ⟨[], (List.append_nil _).symm⟩
  | display =>
    unfold displayCurrentTask
    split <;> exact ⟨[], (List.append_nil _).symm⟩

/-- What the process does on its own it does in a session before the
coordinator reads. -/
theorem reachable_parti {G : Session K → Label → Prop} {p : Context K}
    (hG : ∀ s ls, (∀ l ∈ ls, l ∈ p.written) → G s (.parti ls))
    (hr : ((machine K maxAlive).restrict Silent).Reachable p) :
    ((session K maxAlive cores).restrict G).Reachable ⟨Coordinator.startSolving, p, 0⟩ := by
  induction hr with
  | init h =>
    rw [show _ = Context.empty from h]
    exact .init rfl
  | step _ hs ih =>
    obtain ⟨rfl, hs⟩ := hs
    obtain ⟨ls, hw⟩ := tau_written hs
    refine (ih fun s ls hls => hG s ls fun l hl => ?_).step
      ⟨hG _ ls fun l hl => ?_, .parti rfl hs hw⟩
    · rw [hw]
      exact List.mem_append_left _ (hls l hl)
    · rw [hw]
      exact List.mem_append_right _ hl

/-- The coordinator reads what was written. -/
theorem reachable_lines {G : Session K → Label → Prop} (hG : ∀ s l, G s (.coord (.line l)))
    {ls : List P2C} : ∀ {s : Session K} {c : Coordinator},
    ((session K maxAlive cores).restrict G).Reachable s → s.coord.status = .solving →
    s.coord.partitioner = .running → (∀ v, s.parti.phase ≠ .done v) →
    s.parti.written.drop s.taken = ls →
    ls.foldlM (fun c l => c.processPartitionerMsg (.node l)) s.coord = some c →
    ((session K maxAlive cores).restrict G).Reachable
      { s with coord := c, taken := s.taken + ls.length } := by
  induction ls with
  | nil =>
    intro s c hr _ _ _ _ hc
    cases hc
    exact hr
  | cons l ls ih =>
    intro s c hr hst hp hrun hdrop hc
    rw [List.foldlM_cons] at hc
    obtain ⟨c₁, h₁, hc⟩ := Option.bind_eq_some_iff.1 hc
    have hpipe : s.toCoord = .node l :: ls.map .node := by
      rw [toCoord_eq hrun, hdrop]
      rfl
    have hne : s.coord.partitioner ≠ .receiveDone := by
      rw [hp]
      exact PartitionerStatus.noConfusion
    have hs : Step K maxAlive cores s (.coord (.line (.node l)))
        { s with coord := c₁, taken := s.taken + 1 } := .line hst hne hpipe h₁
    obtain ⟨_, -, rfl⟩ := Option.map_eq_some_iff.1 h₁
    have hrest : s.parti.written.drop (s.taken + 1) = ls := by
      rw [← List.drop_drop, hdrop]
      rfl
    have h := ih (hr.step ⟨hG _ _, hs⟩) hst hp hrun hrest hc
    rw [List.length_cons, Nat.add_comm ls.length, ← Nat.add_assoc]
    exact h

theorem lines_same {ls : List P2C} : ∀ {c c' : Coordinator},
    ls.foldlM (fun c l => c.processPartitionerMsg (.node l)) c = some c' →
    c'.status = c.status ∧ c'.sent = c.sent := by
  induction ls with
  | nil =>
    intro c c' hc
    cases hc
    exact ⟨rfl, rfl⟩
  | cons l ls ih =>
    intro c c' hc
    rw [List.foldlM_cons] at hc
    obtain ⟨c₁, h₁, hc⟩ := Option.bind_eq_some_iff.1 hc
    obtain ⟨_, -, rfl⟩ := Option.map_eq_some_iff.1 h₁
    have h := ih hc
    exact h

end Session

end AriParti.L3
