import AriParti.L2Partitioner.Verdicts
import AriParti.L3Coordinator.Framing
import AriParti.L3Coordinator.Session
import AriParti.L3Coordinator.Wire

/-!
# A session over pipes of characters

A `Session` has pipes of lines. Here the two sides are joined as the code joins
them: the partitioner prints its lines, debug lines among them, and they are
flushed into the pipe in parts; the coordinator reads parts again, in the loops
of `receive_partitioner_messages`, and parses what `receive_message` returns; the
other way it is the same. The process ends when everything is flushed.

A debug line has no end of a line in it. The parts of a step that one thread
makes in one go (a read, and the parsing of the line it ends) are one step.

## Layout

* `Small`: bounds on the numbers the coordinator knows.
* `Wired`, `wired`: the system.
* `Carried`: what the two pipes hold.

## Results

* `Session.bounded_inductive`: the numbers are those of nodes of the partitioner.
* `carried_inductive`: `Carried` in every run, and the states of the two sides are
  those of a session.
* `pipes_carry`: what this says of the messages and the lines.
-/
namespace AriParti.L3
open AriParti.Core AriParti.L2

variable {K : Kernel} {maxAlive cores : Nat}

/-! ## Numbers -/

namespace ParallelTree

variable {t t' : ParallelTree}

/-- A line gives its number to the new node. -/
theorem newNode_pid {line : P2C} (hc : t.newNode line = some t') (v : Nat) :
    (t'.node v).pid = (t.node v).pid ∨ (t'.node v).pid = line.id := by
  have make : ∀ {pid ppid t₁}, t.makeNode pid ppid = some t₁ →
      ∀ v, (t₁.node v).pid = (t.node v).pid ∨ (t₁.node v).pid = pid := by
    intro pid ppid t₁ h v
    have hadd : ∃ parent, t₁ = t.addNode pid parent := by
      cases ppid with
      | none =>
        cases h
        exact ⟨none, rfl⟩
      | some q =>
        obtain ⟨p, -, rfl⟩ := Option.map_eq_some_iff.1 h
        exact ⟨some p, rfl⟩
    obtain ⟨parent, rfl⟩ := hadd
    by_cases hv : v = t.size
    · rw [addNode_node, if_pos hv]
      exact .inr rfl
    · exact .inl (addNode_old ParallelNode.pid (fun _ _ => rfl) hv)
  cases line with
  | newUnsatNode pid ppid =>
    obtain ⟨t₁, ht, rfl⟩ := Option.map_eq_some_iff.1 hc
    rw [nodeSolvedUnsat_shape.pid]
    exact make ht v
  | newUnknownNode pid ppid =>
    obtain ⟨t₁, ht, rfl⟩ := Option.map_eq_some_iff.1 hc
    split
    · rw [nodeSolvedUnsat_shape.pid]
      exact make ht v
    · exact make ht v

end ParallelTree

namespace Coordinator
open ParallelTree

variable {c c' : Coordinator} {N : Nat}

/-- The numbers of the nodes, and those sent, are below `N`. -/
structure Small (N : Nat) (c : Coordinator) : Prop where
  pid : ∀ v, (c.tree.node v).pid < N
  sent : ∀ line ∈ c.sent, commandId line < N

theorem Small.congr (h : c.Small N) (hp : ∀ v, (c'.tree.node v).pid = (c.tree.node v).pid)
    (hs : c'.sent = c.sent) : c'.Small N :=
  ⟨fun v => (hp v).symm ▸ h.pid v, fun line hl => h.sent line (hs ▸ hl)⟩

theorem Small.send (h : c.Small N) (line : C2P) (hl : commandId line < N) :
    (c.sendPartitionerMessage line).Small N := by
  unfold sendPartitionerMessage
  split
  · refine ⟨h.pid, fun m hm => ?_⟩
    rcases List.mem_append.1 hm with hm | hm
    · exact h.sent m hm
    · rw [List.mem_singleton.1 hm]
      exact hl
  · exact h

theorem Small.terminateNode (h : c.Small N) (v : Nat) : (c.terminateNode v).Small N := by
  have hpid := h.pid v
  unfold Coordinator.terminateNode
  split
  · exact h
  · have hshape : SameShape c.tree (c.tree.terminateNode v) :=
      sameShape_modify fun _ => ⟨rfl, rfl, rfl⟩
    have hset : Small N { c with tree := c.tree.terminateNode v } := h.congr hshape.pid rfl
    exact hset.send (.terminateNode _) hpid

theorem Small.terminatePath (fuel : Nat) : ∀ (c : Coordinator) (v : Nat), c.Small N →
    (Coordinator.terminatePath fuel c v).Small N := by
  induction fuel with
  | zero => exact fun _ _ h => h
  | succ fuel ih =>
    intro c v h
    have hone := h.terminateNode v
    unfold Coordinator.terminatePath
    simp only
    split
    · exact hone
    · exact ih _ _ hone

theorem Small.check (h : c.Small N) (v : Nat) (o : SolverOutcome) :
    (c.checkSolvingStatus v o).Small N := by
  have hpid := h.pid v
  unfold checkSolvingStatus
  split
  · cases o with
    | error => exact h.terminateNode v
    | running timeUp =>
      simp only
      split
      · exact h.terminateNode v
      · exact h
    | sat =>
      refine h.congr (fun w => ?_) rfl
      show (((c.tree.modify v _).updateNodeStatus v .sat).node w).pid = _
      rw [(updateNodeStatus_shape v .sat).pid]
      exact (unassign_quiet v).pid w
    | unsat =>
      have hs : Small N ({ c with tree := c.tree.solverUnsat v } : Coordinator).afterIsDone := by
        refine h.congr (fun w => ?_) rfl
        show ((c.tree.solverUnsat v).node w).pid = _
        unfold ParallelTree.solverUnsat
        rw [nodeSolvedUnsat_shape.pid]
        exact (unassign_quiet v).pid w
      simp only
      split
      · exact hs
      · exact hs.send (.unsatNode _) hpid
  · exact h

theorem checkSolvingStatus_partitioner (v : Nat) (o : SolverOutcome) :
    (c.checkSolvingStatus v o).partitioner = c.partitioner := by
  unfold checkSolvingStatus
  split
  · cases o with
    | error => exact (terminateNode_same v).partitioner
    | running timeUp =>
      simp only
      split
      · exact (terminateNode_same v).partitioner
      · rfl
    | sat => rfl
    | unsat =>
      simp only
      split
      · rfl
      · exact (sendPartitionerMessage_same _).partitioner
  · rfl

theorem Small.split (h : c.Small N) (v : Nat) : (c.setNodeSplit v).Small N := by
  have hpath := h.terminatePath (v + 1) c v
  have hset : Small N { Coordinator.terminatePath (v + 1) c v with
      tree := (Coordinator.terminatePath (v + 1) c v).tree.nodeSolvedUnsat v } :=
    hpath.congr nodeSolvedUnsat_shape.pid rfl
  exact hset.send (.unsatNode _) (hpath.pid v)

/-- What the coordinator does without its partitioner. -/
theorem alone_keeps {a : Action} (ha : Session.Alone a) (hs : Coordinator.Step cores c a c') :
    c'.partitioner = c.partitioner ∧ c.sent <+: c'.sent ∧
      (0 < N → c.Small N → c'.Small N) := by
  cases hs with
  | startSolving | line | processDone | receiveDone => exact ha.elim
  | @check v o _ _ =>
    exact ⟨checkSolvingStatus_partitioner v o, checkSolvingStatus_adds v o,
      fun _ h => h.check v o⟩
  | keepSolvings _ _ _ => exact ⟨rfl, List.prefix_refl _, fun _ h => ⟨h.pid, h.sent⟩⟩
  | runWaitingTask _ _ =>
    exact ⟨rfl, List.prefix_refl _, fun _ h => h.congr runWaitingTask_quiet.pid rfl⟩
  | @split _ _ v _ _ =>
    exact ⟨(setNodeSplit_same v).partitioner, setNodeSplit_adds v, fun _ h => h.split v⟩
  | roundDone _ _ => exact ⟨rfl, List.prefix_refl _, fun hN h => ⟨fun _ => hN, h.sent⟩⟩

theorem Small.line (h : c.Small N) {l : PrePartition.Line}
    (hl : ∀ line, l = .node line → line.id < N) (hc : c.processPartitionerMsg l = some c') :
    c'.Small N := by
  obtain ⟨s, hs, rfl⟩ := Option.map_eq_some_iff.1 hc
  refine ⟨fun v => ?_, h.sent⟩
  show (s.tree.node v).pid < N
  cases l with
  | node line =>
    have ht : c.tree.newNode line = some s.tree := by
      cases line with
      | newUnsatNode pid ppid =>
        obtain ⟨t, ht, rfl⟩ := Option.map_eq_some_iff.1 hs
        rw [(PrePartition.afterIsDone_eq).1]
        exact ht
      | newUnknownNode pid ppid =>
        obtain ⟨t, ht, rfl⟩ := Option.map_eq_some_iff.1 hs
        exact ht
    rcases newNode_pid ht v with he | he
    · rw [he]
      exact h.pid v
    · rw [he]
      exact hl line rfl
  | unknown =>
    simp only [PrePartition.processPartitionerMsg] at hs
    split at hs
    · cases hs
    · cases hs
      exact h.pid v
  | sat | unsat | other =>
    cases hs
    exact h.pid v

end Coordinator

namespace Session
open Context

variable {s s' : Session K} {N : Nat}

theorem mem_output {line : P2C} (h : .node line ∈ s.output) : line ∈ s.parti.written := by
  unfold output at h
  rcases List.mem_append.1 h with h | h
  · obtain ⟨m, hm, he⟩ := List.mem_map.1 h
    cases he
    exact hm
  · split at h
    · rename_i v _
      cases v <;> cases List.mem_singleton.1 h
    · cases h

/-- The numbers on both sides are those of nodes of the partitioner, as long as
it has at most `N`. -/
def Bounded (N : Nat) (s : Session K) : Prop :=
  s.parti.Numbered ∧ (s.parti.size ≤ N → s.coord.Small N)

/-- **The numbers** in every run. -/
theorem bounded_inductive (hN : 0 < N) : (session K maxAlive cores).Inductive (Bounded N) := by
  refine ⟨fun s hs => ?_, fun s l s' ⟨hnum, hsmall⟩ hs => ?_⟩
  · rw [show s = start from hs]
    exact ⟨numbered_empty, fun _ => ⟨fun _ => hN, fun line hl => absurd hl List.not_mem_nil⟩⟩
  cases hs with
  | parti _ hp _ =>
    exact ⟨hnum.step hp, fun h => hsmall ((step_size_le hp).trans h)⟩
  | @read line _ _ _ _ =>
    refine ⟨hnum.readLine line, fun h => hsmall ?_⟩
    have hsize : (s.parti.readLine line).size = s.parti.size :=
      (parseLine_recolors (s := s.parti) line).size
    rwa [hsize] at h
  | @line l rest c _ _ hpipe hc =>
    refine ⟨hnum, fun h => (hsmall h).line (fun line he => ?_) hc⟩
    have hmem : l ∈ s.output := by
      refine List.mem_of_mem_drop (i := s.taken) ?_
      rw [show s.output.drop s.taken = l :: rest from hpipe]
      exact List.mem_cons_self
    rw [he] at hmem
    exact ((hnum.written line (mem_output hmem)).1).trans_le h
  | processDone | receiveDone | original =>
    exact ⟨hnum, fun h => ⟨(hsmall h).pid, (hsmall h).sent⟩⟩
  | alone ha hc =>
    exact ⟨hnum, fun h => (Coordinator.alone_keeps ha hc).2.2 hN (hsmall h)⟩

end Session

/-! ## The system -/

/-- A coordinator and its partitioner with the pipes between them; `lines` are
what the process has printed. -/
structure Wired (K : Kernel) where
  session : Session K
  lines : List (List Char)
  receiving : Receiving
  input : Input

namespace Wired

def start : Wired K := ⟨.start, [], .start, .start⟩

/-- The body of the loop of `receive_partitioner_messages_limited` below the call
of `receive_message` (src/src/coordinator.py:204-210); `none` for an exception. -/
def handle (s : Session K) (msg : List Char) : Option (Session K) :=
  if msg = [] then some s
  else (lineOf msg).bind fun l => (s.coord.processPartitionerMsg l).map fun c =>
    { s with coord := c, taken := if l = .other then s.taken else s.taken + 1 }

/-- mirrors subpaving_t_def.h:3464-3489 from the text of the line -/
def parse (p : Context K) (line : List Char) : Option (Context K) :=
  (commandOf line).map p.readLine

/-- What the shell prints when the process has its verdict. -/
def verdictLines (p : Context K) : List (List Char) :=
  match p.phase with
  | .done v => [v.text]
  | _ => []

variable (w : Wired K)

/-- The coordinator has looked at its partitioner, and sees its status. -/
def look (s : Session K) (r : Receiving) : Wired K :=
  { w with session := { s with coord := { s.coord with partitioner := r.partitioner.status } }
           receiving := r }

inductive Label where
  | parti (lines : List P2C)
  | debug | flush | finish | look | call
  | coord (a : Coordinator.Action)
  | original (verdict : NodeStatus)
  | send | enter | readLine

/-- The steps of the two processes and of the pipes. -/
inductive Step (K : Kernel) (maxAlive cores : Nat) : Wired K → Label → Wired K → Prop where
  /-- the partitioner goes on, and prints -/
  | parti {w : Wired K} {p : Context K} {ls : List P2C} {texts : List (List Char)} :
      w.session.coord.status = .solving → w.input.inside = false →
      L2.Step K maxAlive w.session.parti .tau p → p.written = w.session.parti.written ++ ls →
      List.Forall₂ P2C.Text ls texts →
      Step K maxAlive cores w (.parti ls)
        { w with session := { w.session with parti := p }
                 lines := w.lines ++ texts ++ verdictLines p }
  | debug {w : Wired K} (line : List Char) : w.session.coord.status = .solving →
      (∀ v, w.session.parti.phase ≠ .done v) → (∀ c ∈ line, isNewline c = false) →
      Step K maxAlive cores w .debug { w with lines := w.lines ++ [debugText line] }
  /-- a part of what is printed goes into the pipe -/
  | flush {w : Wired K} {r : Receiving} : Receiving.Step w.receiving .write r →
      r.written <+: unlines '\n' w.lines →
      Step K maxAlive cores w .flush { w with receiving := r }
  /-- the process closes its output, or exits -/
  | finish {w : Wired K} {r : Receiving} {v : Verdict} {l : Receiving.Label} :
      w.session.parti.phase = .done v → w.receiving.written = unlines '\n' w.lines →
      l = .close ∨ l = .exit → Receiving.Step w.receiving l r →
      Step K maxAlive cores w .finish { w with receiving := r }
  /-- the coordinator polls, or begins or ends a round of calls -/
  | look {w : Wired K} {r : Receiving} {l : Receiving.Label} :
      w.session.coord.status = .solving → l = .poll ∨ l = .enter ∨ l = .leave →
      Receiving.Step w.receiving l r → Step K maxAlive cores w .look (w.look w.session r)
  /-- a call of `receive_message`, and what becomes of the message -/
  | call {w : Wired K} {r : Receiving} {s : Session K} : w.session.coord.status = .solving →
      Receiving.Step w.receiving .call r →
      (r.received.drop w.receiving.received.length).foldlM handle w.session = some s →
      Step K maxAlive cores w .call (w.look s r)
  | alone {w : Wired K} {a : Coordinator.Action} {c : Coordinator} : Session.Alone a →
      w.receiving.messages = none → Coordinator.Step cores w.session.coord a c →
      Step K maxAlive cores w (.coord a) { w with session := { w.session with coord := c } }
  | original {w : Wired K} {st : NodeStatus} : w.session.coord.status = .solving →
      w.receiving.messages = none → st.isSolved = true →
      Step K maxAlive cores w (.original st)
        { w with session := { w.session with coord := { w.session.coord with result := st } } }
  /-- a part of what is sent goes into the pipe -/
  | send {w : Wired K} {i : Input} : Input.Step w.input .write i →
      i.written <+: unlines '\n' (w.session.coord.sent.map commandText) →
      Step K maxAlive cores w .send { w with input := i }
  /-- `communicate_with_coordinator` is called -/
  | enter {w : Wired K} {i : Input} : w.session.coord.status = .solving →
      w.session.parti.phase = .poll → Input.Step w.input .enter i →
      Step K maxAlive cores w .enter { w with input := i }
  | readLine {w : Wired K} {i : Input} {p : Context K} : w.session.coord.status = .solving →
      Input.Step w.input .readLine i →
      (i.parsed.drop w.input.parsed.length).foldlM parse w.session.parti = some p →
      Step K maxAlive cores w .readLine
        { w with session := { w.session with parti := p }, input := i }

end Wired

/-- A session over pipes of characters. -/
def wired (K : Kernel) (maxAlive cores : Nat) : LTS (Wired K) Wired.Label where
  init w := w = .start
  step := Wired.Step K maxAlive cores

/-! ## One step of a pipe -/

namespace Partitioner

variable {q : Partitioner}

theorem nextLine_status : (q.nextLine).2.status = q.status := by
  unfold nextLine
  simp only
  split <;> rfl

theorem checkRunning_status (exited : Bool) : (q.checkRunning exited).status = q.status ∨
    q.status = .running ∧ exited = true ∧ (q.checkRunning exited).status ≠ .running := by
  unfold checkRunning
  split
  · rename_i h
    exact .inr ⟨h.1, h.2, PartitionerStatus.noConfusion⟩
  · exact .inl rfl

/-- What a call may do to the status. -/
theorem receiveMessage_status (data : Option (List Char)) (exited : Bool) :
    (q.receiveMessage data exited).2.status = q.status ∨
      q.status = .running ∧ exited = true ∧ (q.receiveMessage data exited).2.status ≠ .running ∨
      q.status = .processDone ∧ (q.receiveMessage data exited).2.status = .receiveDone := by
  unfold receiveMessage
  split
  · cases data with
    | none =>
      unfold readFromProcess
      exact .inl rfl
    | some cs =>
      unfold readFromProcess
      simp only
      by_cases hcs : universal cs = []
      · rw [if_pos hcs]
        have hrun := checkRunning_status (q := q) exited
        by_cases hst : (q.checkRunning exited).status = .running
        · rw [if_pos hst]
          simp only
          rw [nextLine_status]
          exact hrun.imp_right .inl
        · rw [if_neg hst]
          cases hq : q.status with
          | running =>
            refine .inr (.inl ⟨rfl, ?_, PartitionerStatus.noConfusion⟩)
            rcases hrun with he | he
            · exact absurd (he.trans hq) hst
            · exact he.2.1
          | processDone => exact .inr (.inr ⟨rfl, rfl⟩)
          | receiveDone => exact .inl rfl
      · rw [if_neg hcs]
        exact .inl nextLine_status
  · exact .inl nextLine_status

end Partitioner

namespace Receiving

variable {r r' : Receiving}

theorem call_eq (cnt : Nat) (data : Option (List Char)) (p : Process) :
    (r.call cnt data p).partitioner = (r.partitioner.receiveMessage data r.process.exited).2 ∧
      (r.call cnt data p).written = r.written ∧
      ∃ msgs, (r.call cnt data p).received = r.received ++ msgs ∧ msgs.length ≤ 1 := by
  unfold call
  split
  · rename_i he
    rw [he]
    exact ⟨rfl, rfl, [], (List.append_nil _).symm, Nat.zero_le 1⟩
  · rename_i msg q he
    rw [he]
    exact ⟨rfl, rfl, [msg], rfl, Nat.le_refl 1⟩

/-- What a step of the coordinator leaves alone, and what it may do to the
status. -/
structure Looks (r r' : Receiving) : Prop where
  written : r'.written = r.written
  closed : r'.process.closed = r.process.closed
  received : ∃ msgs, r'.received = r.received ++ msgs ∧ msgs.length ≤ 1
  status : r'.partitioner.status = r.partitioner.status ∨
    r.partitioner.status = .running ∧ r.process.exited = true ∧ r'.partitioner.status ≠ .running ∨
    r.partitioner.status = .processDone ∧ r'.partitioner.status = .receiveDone

theorem looks_call (hs : Step r .call r') : Looks r r' ∧ r.partitioner.status ≠ .receiveDone := by
  cases hs with
  | @read cnt data p _ _ hst _ hread =>
    obtain ⟨hp, hw, hr⟩ := call_eq (r := r) cnt data p
    refine ⟨⟨hw, ?_, hr, ?_⟩, hst⟩
    · rw [call_process]
      cases hread <;> rfl
    · rw [hp]
      exact Partitioner.receiveMessage_status data r.process.exited
  | @buffered cnt _ _ hst _ =>
    obtain ⟨hp, hw, hr⟩ := call_eq (r := r) cnt none r.process
    refine ⟨⟨hw, ?_, hr, ?_⟩, hst⟩
    · rw [call_process]
    · rw [hp]
      exact Partitioner.receiveMessage_status none r.process.exited

theorem looks_poll {l : Label} (hl : l = .poll ∨ l = .enter ∨ l = .leave) (hs : Step r l r') :
    Looks r r' ∧ r'.received = r.received := by
  have hnone : ∃ msgs, r.received = r.received ++ msgs ∧ msgs.length ≤ 1 :=
    ⟨[], (List.append_nil _).symm, Nat.zero_le 1⟩
  cases hs with
  | write | close | exit | read | buffered => rcases hl with hl | hl | hl <;> cases hl
  | poll | enter =>
    exact ⟨⟨rfl, rfl, hnone, (Partitioner.checkRunning_status _).imp_right .inl⟩, rfl⟩
  | leave => exact ⟨⟨rfl, rfl, hnone, .inl rfl⟩, rfl⟩

end Receiving

/-! ## What the pipes hold -/

namespace Wired

/-- What lines come to, without those that come to nothing. -/
def said (ls : List (List Char)) : List (Option PrePartition.Line) :=
  (ls.map lineOf).filter fun l => l ≠ some .other

@[simp] theorem said_nil : said [] = [] := rfl

theorem said_append (ls ms : List (List Char)) : said (ls ++ ms) = said ls ++ said ms := by
  unfold said
  rw [List.map_append, List.filter_append]

theorem said_cons {l : List Char} {d : PrePartition.Line} (h : lineOf l = some d)
    (ls : List (List Char)) : said (l :: ls) = if d = .other then said ls else some d :: said ls := by
  unfold said
  rw [List.map_cons, h, List.filter_cons]
  by_cases hd : d = .other
  · simp [hd]
  · simp [hd]

/-- Not blank, and without an end of a line. -/
def Plain (l : List Char) : Prop := l ≠ [] ∧ ∀ c ∈ l, isNewline c = false

/-- The messages received are the first lines printed, and all of them when the
output has ended. -/
theorem received_first {r : Receiving} (hr : L3.receiving.Reachable r) {ls : List (List Char)}
    (hplain : ∀ l ∈ ls, Plain l)
    (hwritten : r.written <+: unlines '\n' ls)
    (hclosed : r.process.closed = true → r.written = unlines '\n' ls) :
    nonblank r.received <+: ls ∧
      (r.partitioner.status = .receiveDone → nonblank r.received = ls) := by
  have h := Receiving.framed_inductive.reachable hr
  have hpieces : pieces isNewline (unlines '\n' ls) = ls := by
    rw [pieces_unlines isNewline_lf fun l hl => (hplain l hl).2]
    exact List.filter_eq_self.2 fun l hl => by simp [(hplain l hl).1]
  have hend : r.partitioner.status = .receiveDone → nonblank r.received = ls := by
    intro hs
    obtain ⟨hl, hc⟩ := h.ended hs
    rw [← hl, hclosed hc, hpieces]
  refine ⟨?_, hend⟩
  by_cases hs : r.partitioner.status = .receiveDone
  · rw [hend hs]
  · obtain ⟨future, hfuture⟩ := hwritten
    have hl := h.lines hs future
    rw [hfuture, hpieces] at hl
    rw [hl]
    exact List.prefix_append _ _

/-- The lines parsed are the first lines sent. -/
theorem parsed_first {i : Input} (hi : L2.input.Reachable i) {ls : List (List Char)}
    (hplain : ∀ l ∈ ls, ∀ c ∈ l, (c == '\n') = false) (hwritten : i.written <+: unlines '\n' ls) :
    i.parsed <+: ls := by
  have h := Input.framed_inductive.reachable hi
  obtain ⟨future, hfuture⟩ := hwritten
  have hl := h.lines (i.pipe ++ future)
  rw [← List.append_assoc, ← h.written, hfuture,
    complete_unlines (p := (· == '\n')) (beq_self_eq_true '\n') hplain] at hl
  rw [hl]
  exact List.prefix_append _ _

/-- What the two pipes hold, in the terms of the session. -/
structure Carried (w : Wired K) : Prop where
  receiving : L3.receiving.Reachable w.receiving
  input : L2.input.Reachable w.input
  status : w.session.coord.partitioner = w.receiving.partitioner.status
  plain : ∀ l ∈ w.lines, Plain l
  printed : said w.lines = w.session.output.map some
  flushed : w.receiving.written <+: unlines '\n' w.lines
  closed : w.receiving.process.closed = true →
    w.receiving.written = unlines '\n' w.lines ∧ ∃ v, w.session.parti.phase = .done v
  taken : said (nonblank w.receiving.received) = (w.session.output.take w.session.taken).map some
  inRange : w.session.taken ≤ w.session.output.length
  sent : w.input.written <+: unlines '\n' (w.session.coord.sent.map commandText)
  inside : w.input.inside = true → w.session.parti.phase = .poll
  parsed : w.input.parsed.map commandOf = w.session.parti.read.map some
  read : w.session.parti.read <+: w.session.coord.sent

theorem carried_start : (start : Wired K).Carried where
  receiving := .init rfl
  input := .init rfl
  status := rfl
  plain _ h := absurd h List.not_mem_nil
  printed := rfl
  flushed := List.nil_prefix
  closed h := by cases h
  taken := rfl
  inRange := Nat.le_refl 0
  sent := List.nil_prefix
  inside h := by cases h
  parsed := rfl
  read := List.nil_prefix

variable {w : Wired K}

theorem commandText_plain {l : List Char} {ls : List C2P} (h : l ∈ ls.map commandText) :
    ∀ c ∈ l, (c == '\n') = false := by
  obtain ⟨line, -, rfl⟩ := List.mem_map.1 h
  intro c hc
  rw [beq_eq_false_iff_ne]
  rintro rfl
  rw [commandText, words_two] at hc
  rcases List.mem_append.1 hc with hc | hc
  · exact not_mem_numeral (by decide) (by decide) hc
  · rcases List.mem_cons.1 hc with hc | hc
    · cases hc
    · exact not_mem_numeral (by decide) (by decide) hc

/-- The next message is blank, or a debug line, or the next line of the session's
pipe. -/
theorem Carried.next (h : w.Carried) {r : Receiving} (hs : Receiving.Step w.receiving .call r)
    {msg : List Char} (hm : r.received = w.receiving.received ++ [msg]) :
    msg = [] ∨ lineOf msg = some .other ∨
      ∃ l rest, l ≠ .other ∧ lineOf msg = some l ∧ w.session.toCoord = l :: rest := by
  obtain ⟨hlooks, -⟩ := Receiving.looks_call hs
  by_cases hne : msg = []
  · exact .inl hne
  have hnb : nonblank r.received = nonblank w.receiving.received ++ [msg] := by
    rw [hm, nonblank_append]
    congr 1
    simp [nonblank, hne]
  obtain ⟨⟨rest, hrest⟩, -⟩ := received_first (h.receiving.step hs) h.plain
    (hlooks.written ▸ h.flushed) fun hc =>
      hlooks.written ▸ (h.closed (hlooks.closed ▸ hc)).1
  rw [hnb, List.append_assoc, List.singleton_append] at hrest
  have hsaid := h.printed
  rw [← hrest, said_append, h.taken] at hsaid
  -- every line printed is parsed
  have hsome : ∃ d, lineOf msg = some d := by
    refine Option.ne_none_iff_exists'.1 fun hnone => ?_
    have hmem : none ∈ said w.lines := by
      rw [← hrest]
      refine List.mem_filter.2 ⟨?_, by simp⟩
      rw [← hnone]
      exact List.mem_map_of_mem (List.mem_append_right _ List.mem_cons_self)
    rw [h.printed] at hmem
    obtain ⟨d, -, hd⟩ := List.mem_map.1 hmem
    cases hd
  obtain ⟨d, hd⟩ := hsome
  by_cases hother : d = .other
  · exact .inr (.inl (hother ▸ hd))
  · rw [said_cons hd, if_neg hother] at hsaid
    have hdrop : w.session.toCoord.map some = some d :: said rest := by
      have hsplit := congrArg (List.map some) (List.take_append_drop w.session.taken w.session.output)
      rw [List.map_append, ← hsaid] at hsplit
      exact (List.append_cancel_left hsplit)
    obtain ⟨l, more, hl, he, -⟩ := List.map_eq_cons_iff.1 hdrop
    cases he
    exact .inr (.inr ⟨d, more, hother, hd, hl⟩)

/-! ## The coordinator reads -/

/-- The status the coordinator sees next is one that the session allows for. -/
theorem look_reachable {s : Session K} {r₀ r : Receiving}
    (hr : (L3.session K maxAlive cores).Reachable s) (hst : s.coord.status = .solving)
    (hl : Receiving.Looks r₀ r) (hp : s.coord.partitioner = r₀.partitioner.status)
    (hdone : r₀.process.exited = true → ∃ v, s.parti.phase = .done v)
    (hend : r.partitioner.status = .receiveDone → s.toCoord = []) :
    (L3.session K maxAlive cores).Reachable (w.look s r).session := by
  show (L3.session K maxAlive cores).Reachable
    { s with coord := { s.coord with partitioner := r.partitioner.status } }
  rcases hl.status with he | ⟨hrun, hexit, hne⟩ | ⟨hproc, he⟩
  · rw [he, ← hp]
    exact hr
  · obtain ⟨v, hv⟩ := hdone hexit
    have hdone : (L3.session K maxAlive cores).Reachable
        { s with coord := { s.coord with partitioner := .processDone } } :=
      hr.step (.processDone hst hv (hp.trans hrun))
    cases hq : r.partitioner.status with
    | running => exact absurd hq hne
    | processDone => exact hdone
    | receiveDone => exact hdone.step (.receiveDone hst rfl (hend hq))
  · rw [he]
    exact hr.step (.receiveDone hst (hp.trans hproc) (hend he))

/-- After a step of the coordinator's side the pipes hold what they should. -/
theorem Carried.looked (h : w.Carried) {s : Session K} {r : Receiving}
    (hr : L3.receiving.Reachable r) (hl : Receiving.Looks w.receiving r)
    (hparti : s.parti = w.session.parti) (hsent : s.coord.sent = w.session.coord.sent)
    (htaken : said (nonblank r.received) = (s.output.take s.taken).map some)
    (hrange : s.taken ≤ s.output.length) : (w.look s r).Carried := by
  have hout : s.output = w.session.output := by
    unfold Session.output
    rw [hparti]
  refine ⟨hr, h.input, rfl, h.plain, ?_, ?_, fun hc => ?_, htaken, hrange, ?_, ?_, ?_, ?_⟩
  · exact h.printed.trans (congrArg (List.map some) hout.symm)
  · exact hl.written ▸ h.flushed
  · obtain ⟨hw, hv⟩ := h.closed (hl.closed ▸ hc)
    refine ⟨hl.written.trans hw, ?_⟩
    show ∃ v, s.parti.phase = .done v
    rw [hparti]
    exact hv
  · show w.input.written <+: unlines '\n' (s.coord.sent.map commandText)
    rw [hsent]
    exact h.sent
  · show w.input.inside = true → s.parti.phase = .poll
    rw [hparti]
    exact h.inside
  · show w.input.parsed.map commandOf = s.parti.read.map some
    rw [hparti]
    exact h.parsed
  · show s.parti.read <+: s.coord.sent
    rw [hparti, hsent]
    exact h.read

/-- When the output has ended, no line is left in the pipe. -/
theorem Carried.drained (h : w.Carried) {s : Session K} {r : Receiving}
    (hr : L3.receiving.Reachable r) (hl : Receiving.Looks w.receiving r)
    (hparti : s.parti = w.session.parti)
    (htaken : said (nonblank r.received) = (s.output.take s.taken).map some)
    (hend : r.partitioner.status = .receiveDone) : s.toCoord = [] := by
  have hout : s.output = w.session.output := by
    unfold Session.output
    rw [hparti]
  have hall := (received_first hr h.plain (hl.written ▸ h.flushed) fun hc =>
    hl.written ▸ (h.closed (hl.closed ▸ hc)).1).2 hend
  rw [hall, h.printed, hout] at htaken
  have hlen := congrArg List.length htaken
  rw [List.length_map, List.length_map, List.length_take] at hlen
  show s.output.drop s.taken = []
  rw [List.drop_eq_nil_iff, hout]
  omega

theorem handle_cases {s s' : Session K} {msg : List Char} (h : handle s msg = some s') :
    msg = [] ∧ s' = s ∨ ∃ l c, msg ≠ [] ∧ lineOf msg = some l ∧
      s.coord.processPartitionerMsg l = some c ∧
      s' = { s with coord := c, taken := if l = .other then s.taken else s.taken + 1 } := by
  unfold handle at h
  split at h
  · rename_i hm
    cases h
    exact .inl ⟨hm, rfl⟩
  · rename_i hm
    obtain ⟨l, hl, h⟩ := Option.bind_eq_some_iff.1 h
    obtain ⟨c, hc, rfl⟩ := Option.map_eq_some_iff.1 h
    exact .inr ⟨l, c, hm, hl, hc, rfl⟩

/-- A line changes neither the round nor what was sent. -/
theorem processPartitionerMsg_keeps {c c' : Coordinator} {l : PrePartition.Line}
    (hc : c.processPartitionerMsg l = some c') :
    c'.status = c.status ∧ c'.partitioner = c.partitioner ∧ c'.sent = c.sent := by
  obtain ⟨_, -, rfl⟩ := Option.map_eq_some_iff.1 hc
  exact ⟨rfl, rfl, rfl⟩

/-- What is to be shown of the session after a message has been handled. -/
structure Handled (maxAlive cores : Nat) (w : Wired K) (r : Receiving) (s : Session K) : Prop where
  reachable : (L3.session K maxAlive cores).Reachable s
  parti : s.parti = w.session.parti
  coord : s.coord.status = w.session.coord.status ∧
    s.coord.partitioner = w.session.coord.partitioner ∧ s.coord.sent = w.session.coord.sent
  taken : said (nonblank r.received) = (s.output.take s.taken).map some
  inRange : s.taken ≤ s.output.length

/-- A message is handled as the session handles a line, or not at all. -/
theorem Carried.handled (h : w.Carried) (hr : (L3.session K maxAlive cores).Reachable w.session)
    (hst : w.session.coord.status = .solving) {r : Receiving}
    (hs : Receiving.Step w.receiving .call r) {s : Session K} {msg : List Char}
    (hm : r.received = w.receiving.received ++ [msg]) (hf : handle w.session msg = some s) :
    Handled maxAlive cores w r s := by
  have hopen : w.session.coord.partitioner ≠ .receiveDone := by
    rw [h.status]
    exact (Receiving.looks_call hs).2
  have hnb : ∀ l, lineOf msg = some l → msg ≠ [] → said (nonblank r.received) =
      said (nonblank w.receiving.received) ++ if l = .other then [] else [some l] := by
    intro l hl hne
    rw [hm, nonblank_append, said_append, show nonblank [msg] = [msg] by simp [nonblank, hne],
      said_cons hl]
    rfl
  rcases handle_cases hf with ⟨rfl, rfl⟩ | ⟨l, c, hne, hl, hc, rfl⟩
  · refine ⟨hr, rfl, ⟨rfl, rfl, rfl⟩, ?_, h.inRange⟩
    rw [hm, nonblank_append, nonblank_blank, List.append_nil]
    exact h.taken
  · have hkeep := processPartitionerMsg_keeps hc
    have hsaid := hnb l hl hne
    rcases h.next hs hm with he | he | ⟨l', rest, hother, hl', hpipe⟩
    · exact absurd he hne
    · -- a debug line
      rw [hl] at he
      cases he
      cases hc
      rw [if_pos rfl, List.append_nil] at hsaid
      simp only [if_true]
      exact ⟨hr, rfl, ⟨rfl, rfl, rfl⟩, hsaid.trans h.taken, h.inRange⟩
    · rw [hl] at hl'
      cases hl'
      rw [if_neg hother] at hsaid ⊢
      have hdrop : w.session.output.drop w.session.taken = l :: rest := hpipe
      have hlt : w.session.taken < w.session.output.length := by
        have hlen := congrArg List.length hdrop
        rw [List.length_drop, List.length_cons] at hlen
        omega
      refine ⟨hr.step (.line hst hopen hpipe hc), rfl, hkeep, ?_, hlt⟩
      rw [hsaid, h.taken]
      show _ = (w.session.output.take (w.session.taken + 1)).map some
      rw [List.take_add_one, List.map_append, ← List.head?_drop, hdrop]
      rfl

/-- **A call of `receive_message`.** -/
theorem Carried.call (h : w.Carried) (hr : (L3.session K maxAlive cores).Reachable w.session)
    (hst : w.session.coord.status = .solving) {r : Receiving}
    (hs : Receiving.Step w.receiving .call r) {s : Session K}
    (hf : (r.received.drop w.receiving.received.length).foldlM handle w.session = some s) :
    (L3.session K maxAlive cores).Reachable (w.look s r).session ∧ (w.look s r).Carried := by
  obtain ⟨hlooks, -⟩ := Receiving.looks_call hs
  have hreach := h.receiving.step hs
  obtain ⟨msgs, hmsgs, hlen⟩ := hlooks.received
  rw [hmsgs, List.drop_left] at hf
  have hhandled : Handled maxAlive cores w r s := by
    rcases msgs with _ | ⟨msg, _ | ⟨_, _⟩⟩
    · cases hf
      rw [List.append_nil] at hmsgs
      exact ⟨hr, rfl, ⟨rfl, rfl, rfl⟩, by rw [hmsgs]; exact h.taken, h.inRange⟩
    · rw [List.foldlM_cons] at hf
      obtain ⟨s', hf, hs'⟩ := Option.bind_eq_some_iff.1 hf
      cases hs'
      exact h.handled hr hst hs hmsgs hf
    · simp at hlen
  obtain ⟨hstatus, hp, hsent⟩ := hhandled.coord
  refine ⟨look_reachable hhandled.reachable (hstatus.trans hst) hlooks (hp.trans h.status)
    (fun he => ?_) fun hend => ?_, h.looked hreach hlooks hhandled.parti hsent hhandled.taken
    hhandled.inRange⟩
  · rw [hhandled.parti]
    exact (h.closed ((Receiving.framed_inductive.reachable h.receiving).closed he)).2
  · exact h.drained hreach hlooks hhandled.parti hhandled.taken hend

/-- **A look at the partitioner** that reads nothing. -/
theorem Carried.look (h : w.Carried) (hr : (L3.session K maxAlive cores).Reachable w.session)
    (hst : w.session.coord.status = .solving) {r : Receiving} {l : Receiving.Label}
    (hl : l = .poll ∨ l = .enter ∨ l = .leave) (hs : Receiving.Step w.receiving l r) :
    (L3.session K maxAlive cores).Reachable (w.look w.session r).session ∧
      (w.look w.session r).Carried := by
  obtain ⟨hlooks, hreceived⟩ := Receiving.looks_poll hl hs
  have hreach := h.receiving.step hs
  have htaken : said (nonblank r.received) =
      (w.session.output.take w.session.taken).map some := hreceived ▸ h.taken
  refine ⟨look_reachable hr hst hlooks h.status (fun he => ?_)
    (h.drained hreach hlooks rfl htaken), h.looked hreach hlooks rfl rfl htaken h.inRange⟩
  exact (h.closed ((Receiving.framed_inductive.reachable h.receiving).closed he)).2

/-! ## The partitioner prints -/

theorem numeral_plain {i : Int} {c : Char} (h : c ∈ numeral i) : isNewline c = false := by
  unfold isNewline
  rw [Bool.or_eq_false_iff, beq_eq_false_iff_ne, beq_eq_false_iff_ne]
  constructor <;> rintro rfl
  · exact not_mem_numeral (by decide) (by decide) h
  · exact not_mem_numeral (by decide) (by decide) h

/-- Plain words make a plain line. -/
theorem words_plain {v : List Char} {ws : List (List Char)} (hne : v ≠ [])
    (h : ∀ w ∈ v :: ws, ∀ c ∈ w, isNewline c = false) : Plain (words (v :: ws)) := by
  refine ⟨words_ne_nil hne ws, fun c hc => ?_⟩
  rcases mem_words hc with rfl | ⟨w, hw, hc⟩
  · rfl
  · exact h w hw c hc

theorem text_plain {l : P2C} {cs : List Char} (h : l.Text cs) : Plain cs := by
  have hrow : ∀ (l : P2C) (id : Nat) (pid : Int), Plain (l.row id pid) := by
    intro l id pid
    refine words_plain (numeral_ne_nil _) fun w hw c hc => ?_
    simp only [List.mem_cons, List.not_mem_nil, or_false] at hw
    rcases hw with rfl | rfl | rfl <;> exact numeral_plain hc
  cases h <;> exact hrow _ _ _

theorem texts_plain {ls : List P2C} {texts : List (List Char)}
    (ht : List.Forall₂ P2C.Text ls texts) : ∀ l ∈ texts, Plain l := by
  induction ht with
  | nil => exact fun l hl => absurd hl List.not_mem_nil
  | cons h _ ih => exact List.forall_mem_cons.2 ⟨text_plain h, ih⟩

theorem debugText_plain {line : List Char} (h : ∀ c ∈ line, isNewline c = false) :
    Plain (debugText line) := by
  refine words_plain (numeral_ne_nil 0) fun w hw c hc => ?_
  simp only [List.mem_cons, List.not_mem_nil, or_false] at hw
  rcases hw with rfl | rfl
  · exact numeral_plain hc
  · exact h c hc

theorem verdict_plain (v : Verdict) : Plain v.text := by
  cases v <;> exact ⟨List.cons_ne_nil _ _, by simp [Verdict.text, isNewline]⟩

/-- The texts of lines about nodes are parsed as those lines. -/
theorem said_texts {ls : List P2C} {texts : List (List Char)}
    (ht : List.Forall₂ P2C.Text ls texts)
    (h : ∀ l ∈ ls, ∀ p, l.parent = some p → p < 2 ^ 31) :
    said texts = (ls.map PrePartition.Line.node).map some := by
  induction ht with
  | nil => rfl
  | @cons l cs ls texts hl _ ih =>
    rw [said_cons (lineOf_text hl (h l List.mem_cons_self)),
      if_neg PrePartition.Line.noConfusion, ih fun m hm => h m (List.mem_cons_of_mem l hm)]
    rfl

/-- The lines about nodes, and the verdict. -/
theorem said_output (s : Session K) :
    s.output.map some = (s.parti.written.map .node).map some ++ said (verdictLines s.parti) := by
  unfold Session.output verdictLines
  rw [List.map_append]
  cases s.parti.phase with
  | done v => cases v <;> rfl
  | _ => rfl

/-- The lines printed are only added to. -/
theorem Carried.printedMore (h : w.Carried) (hopen : ∀ v, w.session.parti.phase ≠ .done v)
    {more : List (List Char)} (hmore : ∀ l ∈ more, Plain l) {s : Session K}
    (hcoord : s.coord = w.session.coord) (htaken : s.taken = w.session.taken)
    (hread : s.parti.read = w.session.parti.read)
    (hout : s.output.map some = w.session.output.map some ++ said more)
    (hinside : w.input.inside = true → s.parti.phase = .poll) :
    ({ w with session := s, lines := w.lines ++ more } : Wired K).Carried := by
  have hpre : w.session.output.map some <+: s.output.map some := by
    rw [hout]
    exact List.prefix_append _ _
  refine ⟨h.receiving, h.input, ?_, ?_, ?_, ?_, ?_, ?_, ?_, ?_, hinside, ?_, ?_⟩
  · exact hcoord ▸ h.status
  · intro l hl
    rcases List.mem_append.1 hl with hl | hl
    · exact h.plain l hl
    · exact hmore l hl
  · show said (w.lines ++ more) = _
    rw [said_append, h.printed, hout]
  · show _ <+: unlines '\n' (w.lines ++ more)
    rw [unlines_append]
    exact h.flushed.trans (List.prefix_append _ _)
  · intro hc
    obtain ⟨-, v, hv⟩ := h.closed hc
    exact absurd hv (hopen v)
  · show _ = (s.output.take s.taken).map some
    rw [h.taken, htaken, List.map_take, List.map_take, hout,
      List.take_append_of_le_length (by rw [List.length_map]; exact h.inRange)]
  · have hlen := hpre.length_le
    rw [List.length_map, List.length_map] at hlen
    exact htaken ▸ h.inRange.trans hlen
  · exact hcoord ▸ h.sent
  · exact hread ▸ h.parsed
  · exact hcoord ▸ hread ▸ h.read

/-- **The partitioner prints** lines about nodes, and its verdict. -/
theorem Carried.parti (h : w.Carried) (hidle : w.input.inside = false) {p : Context K}
    (hs : L2.Step K maxAlive w.session.parti .tau p) {ls : List P2C}
    (hw : p.written = w.session.parti.written ++ ls) {texts : List (List Char)}
    (ht : List.Forall₂ P2C.Text ls texts) (hnum : p.Numbered) (hsize : p.size ≤ 2 ^ 31) :
    ({ w with session := { w.session with parti := p }
              lines := w.lines ++ texts ++ verdictLines p } : Wired K).Carried := by
  have hopen := Session.tau_running hs
  have hout : w.session.output = w.session.parti.written.map .node := by
    unfold Session.output
    split
    · rename_i v hv
      exact absurd hv (hopen v)
    · exact List.append_nil _
  have hsmall : ∀ l ∈ ls, ∀ q, l.parent = some q → q < 2 ^ 31 := by
    intro l hl q hq
    have hmem : l ∈ p.written := by
      rw [hw]
      exact List.mem_append_right _ hl
    exact ((hnum.written l hmem).2 q hq).trans_le hsize
  rw [List.append_assoc]
  refine h.printedMore hopen (fun l hl => ?_) rfl rfl (Session.tau_read hs) ?_ fun hin => ?_
  · rcases List.mem_append.1 hl with hl | hl
    · exact texts_plain ht l hl
    · unfold verdictLines at hl
      split at hl
      · rw [List.mem_singleton.1 hl]
        exact verdict_plain _
      · cases hl
  · rw [hout, said_append, said_texts ht hsmall, said_output]
    show (p.written.map PrePartition.Line.node).map some ++ _ = _
    rw [hw, List.map_append, List.map_append, List.append_assoc]
  · rw [hidle] at hin
    cases hin

theorem Carried.debug (h : w.Carried) (hopen : ∀ v, w.session.parti.phase ≠ .done v)
    {line : List Char} (hline : ∀ c ∈ line, isNewline c = false) :
    ({ w with lines := w.lines ++ [debugText line] } : Wired K).Carried := by
  refine h.printedMore hopen (fun l hl => ?_) rfl rfl rfl ?_ h.inside
  · rw [List.mem_singleton.1 hl]
    exact debugText_plain hline
  · rw [said_cons (lineOf_debug line), if_pos rfl, said_nil, List.append_nil]

/-- What is printed goes into the pipe, and the pipe is closed behind it. -/
theorem Carried.flush (h : w.Carried) {r : Receiving} {l : Receiving.Label}
    (hl : l = .write ∨ l = .close ∨ l = .exit) (hs : Receiving.Step w.receiving l r)
    (hw : r.written <+: unlines '\n' w.lines)
    (hclosed : r.process.closed = true →
      r.written = unlines '\n' w.lines ∧ ∃ v, w.session.parti.phase = .done v) :
    ({ w with receiving := r } : Wired K).Carried := by
  have hsame : r.partitioner.status = w.receiving.partitioner.status ∧
      r.received = w.receiving.received := by
    cases hs with
    | write | close | exit => exact ⟨rfl, rfl⟩
    | poll | enter | read | buffered | leave => rcases hl with hl | hl | hl <;> cases hl
  refine ⟨h.receiving.step hs, h.input, ?_, h.plain, h.printed, hw, hclosed, ?_, h.inRange,
    h.sent, h.inside, h.parsed, h.read⟩
  · exact h.status.trans hsame.1.symm
  · rw [hsame.2]
    exact h.taken

/-! ## The partitioner reads -/

/-- What a call of `read_line_from_coordinator` leaves alone. -/
theorem readLine_looks {i i' : Input} (hs : Input.Step i .readLine i') :
    i'.written = i.written ∧ i.inside = true ∧ ∃ ls, i'.parsed = i.parsed ++ ls ∧ ls.length ≤ 1 := by
  cases hs with
  | @readLine chunk rest hin _ _ =>
    unfold Input.communicate
    simp only
    split
    · rename_i m _
      refine ⟨?_, hin, [m.currentLine], ?_, Nat.le_refl 1⟩
      · show (if i.reader.tail ≤ i.reader.head then _ else i : Input).written = i.written
        split <;> rfl
      · show (if i.reader.tail ≤ i.reader.head then _ else i : Input).parsed ++ _ = _
        split <;> rfl
    · refine ⟨?_, hin, [], ?_, Nat.zero_le 1⟩
      · show (if i.reader.tail ≤ i.reader.head then _ else i : Input).written = i.written
        split <;> rfl
      · show (if i.reader.tail ≤ i.reader.head then _ else i : Input).parsed = _
        rw [List.append_nil]
        split <;> rfl

/-- The next line parsed is the next line of the session's pipe. -/
theorem Carried.nextCommand (h : w.Carried) (hsmall : w.session.coord.Small (2 ^ 31)) {i : Input}
    (hs : Input.Step w.input .readLine i) {text : List Char}
    (hi : i.parsed = w.input.parsed ++ [text]) :
    ∃ line rest, commandOf text = some line ∧ w.session.toParti = line :: rest := by
  obtain ⟨hw, -, -⟩ := readLine_looks hs
  obtain ⟨rest, hrest⟩ := parsed_first (h.input.step hs)
    (fun l hl => commandText_plain hl) (hw ▸ h.sent)
  have hlen := congrArg List.length h.parsed
  rw [List.length_map, List.length_map] at hlen
  have hdrop := congrArg (List.drop w.input.parsed.length) hrest
  rw [hi, List.append_assoc, List.drop_left, hlen, ← List.map_drop, List.singleton_append] at hdrop
  obtain ⟨line, more, hpipe, htext, -⟩ := List.map_eq_cons_iff.1 hdrop.symm
  have hmem : line ∈ w.session.coord.sent := by
    refine List.mem_of_mem_drop (i := w.session.parti.read.length) ?_
    rw [hpipe]
    exact List.mem_cons_self
  have hlt := (hsmall.sent line hmem).trans (by decide : 2 ^ 31 < 2 ^ 32)
  exact ⟨line, more, htext ▸ commandOf_text hlt, hpipe⟩

/-- **A call of `read_line_from_coordinator`**, and of `parse_line`. -/
theorem Carried.readLine (h : w.Carried) (hr : (L3.session K maxAlive cores).Reachable w.session)
    (hst : w.session.coord.status = .solving) (hsmall : w.session.coord.Small (2 ^ 31)) {i : Input}
    (hs : Input.Step w.input .readLine i) {p : Context K}
    (hf : (i.parsed.drop w.input.parsed.length).foldlM parse w.session.parti = some p) :
    (L3.session K maxAlive cores).Reachable { w.session with parti := p } ∧
      ({ w with session := { w.session with parti := p }, input := i } : Wired K).Carried := by
  obtain ⟨hwritten, hin, ls, hls, hlen⟩ := readLine_looks hs
  have hphase := h.inside hin
  -- the partitioner has read nothing, or the next line of the pipe
  have hkeep : (L3.session K maxAlive cores).Reachable { w.session with parti := p } ∧
      p.phase = w.session.parti.phase ∧ p.written = w.session.parti.written ∧
      i.parsed.map commandOf = p.read.map some ∧ p.read <+: w.session.coord.sent := by
    rw [hls, List.drop_left] at hf
    rcases ls with _ | ⟨text, _ | ⟨_, _⟩⟩
    · cases hf
      rw [hls, List.append_nil]
      exact ⟨hr, rfl, rfl, h.parsed, h.read⟩
    · obtain ⟨line, rest, hline, hpipe⟩ := h.nextCommand hsmall hs hls
      rw [List.foldlM_cons] at hf
      obtain ⟨q, hq, he⟩ := Option.bind_eq_some_iff.1 hf
      cases he
      unfold parse at hq
      rw [hline] at hq
      cases hq
      have hrec := Context.parseLine_recolors (s := w.session.parti) line
      refine ⟨hr.step (.read hst hphase hpipe), hrec.phase, hrec.written, ?_, ?_⟩
      · show _ = (w.session.parti.read ++ [line]).map some
        rw [hls, List.map_append, List.map_append, h.parsed, List.map_singleton, hline]
        rfl
      · show w.session.parti.read ++ [line] <+: _
        obtain ⟨more, hmore⟩ := h.read
        have hdrop : w.session.coord.sent.drop w.session.parti.read.length = line :: rest := hpipe
        rw [← hmore, List.drop_left] at hdrop
        rw [← hmore, hdrop, List.prefix_append_right_inj]
        exact List.prefix_append [line] rest
    · simp at hlen
  obtain ⟨hreach, hph, hw, hparsed, hread⟩ := hkeep
  have hout : ({ w.session with parti := p } : Session K).output = w.session.output := by
    unfold Session.output
    rw [hph, hw]
  refine ⟨hreach, ⟨h.receiving, h.input.step hs, h.status, h.plain, ?_, h.flushed, ?_, ?_, ?_, ?_,
    ?_, hparsed, hread⟩⟩
  · rw [hout]
    exact h.printed
  · rw [show ({ w.session with parti := p } : Session K).parti.phase = _ from hph]
    exact h.closed
  · rw [hout]
    exact h.taken
  · rw [hout]
    exact h.inRange
  · rw [show i.written = _ from hwritten]
    exact h.sent
  · exact fun _ => hph.trans hphase

/-! ## Every run -/

theorem handle_parti {msgs : List (List Char)} : ∀ {s s' : Session K},
    msgs.foldlM handle s = some s' → s'.parti = s.parti := by
  induction msgs with
  | nil =>
    intro s s' h
    cases h
    rfl
  | cons msg msgs ih =>
    intro s s' h
    rw [List.foldlM_cons] at h
    obtain ⟨s₁, h₁, h⟩ := Option.bind_eq_some_iff.1 h
    refine (ih h).trans ?_
    rcases handle_cases h₁ with ⟨-, rfl⟩ | ⟨l, c, -, -, -, rfl⟩ <;> rfl

theorem parse_size {lines : List (List Char)} : ∀ {p p' : Context K},
    lines.foldlM parse p = some p' → p'.size = p.size := by
  induction lines with
  | nil =>
    intro p p' h
    cases h
    rfl
  | cons text lines ih =>
    intro p p' h
    rw [List.foldlM_cons] at h
    obtain ⟨q, hq, h⟩ := Option.bind_eq_some_iff.1 h
    obtain ⟨line, -, rfl⟩ := Option.map_eq_some_iff.1 hq
    exact (ih h).trans (Context.parseLine_recolors line).size

/-- A run over characters is a run over lines, as long as the numbers of the nodes
fit an `int`. -/
theorem carried_inductive (K : Kernel) (maxAlive cores : Nat) :
    (wired K maxAlive cores).Inductive fun w => w.session.parti.size ≤ 2 ^ 31 →
      (L3.session K maxAlive cores).Reachable w.session ∧ w.Carried := by
  refine ⟨fun w hw _ => ?_, fun w l w' hI hs hsize => ?_⟩
  · rw [show w = start from hw]
    exact ⟨.init rfl, carried_start⟩
  have bounded : ∀ {s : Session K}, (L3.session K maxAlive cores).Reachable s → s.Bounded (2 ^ 31) :=
    fun hr => (Session.bounded_inductive (by decide)).reachable hr
  cases hs with
  | @parti p ls texts hst hidle hp hw ht =>
    obtain ⟨hr, h⟩ := hI ((Context.step_size_le hp).trans hsize)
    have hr' := hr.step (.parti hst hp hw)
    exact ⟨hr', h.parti hidle hp hw ht (bounded hr').1 hsize⟩
  | debug line _ hopen hline =>
    obtain ⟨hr, h⟩ := hI hsize
    exact ⟨hr, h.debug hopen hline⟩
  | @flush r hs hw =>
    obtain ⟨hr, h⟩ := hI hsize
    refine ⟨hr, h.flush (.inl rfl) hs hw fun hc => ?_⟩
    cases hs with
    | write _ hopen => exact absurd (hopen.symm.trans hc) Bool.false_ne_true
  | @finish r v l hv hall hl hs =>
    obtain ⟨hr, h⟩ := hI hsize
    have hw : r.written = unlines '\n' w.lines := by
      rw [← hall]
      cases hs with
      | close | exit => rfl
      | write | poll | enter | read | buffered | leave => rcases hl with hl | hl <;> cases hl
    exact ⟨hr, h.flush (.inr hl) hs (hw ▸ List.prefix_refl _) fun _ => ⟨hw, v, hv⟩⟩
  | look hst hl hs =>
    obtain ⟨hr, h⟩ := hI hsize
    exact h.look hr hst hl hs
  | @call r s hst hs hf =>
    have hparti : s.parti.size = w.session.parti.size := congrArg Context.size (handle_parti hf)
    obtain ⟨hr, h⟩ := hI (hparti ▸ hsize)
    exact h.call hr hst hs hf
  | @alone a c ha _ hc =>
    obtain ⟨hr, h⟩ := hI hsize
    obtain ⟨hp, hsent, -⟩ := Coordinator.alone_keeps (N := 0) ha hc
    refine ⟨hr.step (.alone ha hc), ⟨h.receiving, h.input, hp.trans h.status, h.plain, h.printed,
      h.flushed, h.closed, h.taken, h.inRange, ?_, h.inside, h.parsed, h.read.trans hsent⟩⟩
    obtain ⟨more, hmore⟩ := hsent
    show _ <+: unlines '\n' (c.sent.map commandText)
    rw [← hmore, List.map_append, unlines_append]
    exact h.sent.trans (List.prefix_append _ _)
  | original hst _ hv =>
    obtain ⟨hr, h⟩ := hI hsize
    exact ⟨hr.step (.original hst hv), ⟨h.receiving, h.input, h.status, h.plain, h.printed,
      h.flushed, h.closed, h.taken, h.inRange, h.sent, h.inside, h.parsed, h.read⟩⟩
  | @send i hs hw =>
    obtain ⟨hr, h⟩ := hI hsize
    have hi := h.input.step hs
    cases hs with
    | write cs =>
      exact ⟨hr, ⟨h.receiving, hi, h.status, h.plain, h.printed, h.flushed, h.closed, h.taken,
        h.inRange, hw, h.inside, h.parsed, h.read⟩⟩
  | @enter i hst hphase hs =>
    obtain ⟨hr, h⟩ := hI hsize
    have hi := h.input.step hs
    cases hs with
    | enter _ =>
      exact ⟨hr, ⟨h.receiving, hi, h.status, h.plain, h.printed, h.flushed, h.closed, h.taken,
        h.inRange, h.sent, fun _ => hphase, h.parsed, h.read⟩⟩
  | @readLine i p hst hs hf =>
    have hsame := parse_size hf
    obtain ⟨hr, h⟩ := hI (hsame ▸ hsize)
    exact h.readLine hr hst ((bounded hr).2 (hsame ▸ hsize)) hs hf

/-- What the process does before it prints. -/
theorem reachable_silent {p : Context K}
    (hr : ((machine K maxAlive).restrict Session.Silent).Reachable p) :
    p.written = [] → (∀ v, p.phase ≠ .done v) →
      (wired K maxAlive cores).Reachable ⟨⟨Coordinator.startSolving, p, 0⟩, [], .start, .start⟩ := by
  induction hr with
  | init h =>
    intro _ _
    rw [show _ = Context.empty from h]
    exact .init rfl
  | @step p p' l hr hs ih =>
    intro hw hopen
    obtain ⟨rfl, hs⟩ := hs
    obtain ⟨ls, hls⟩ := Session.tau_written hs
    obtain ⟨hold, hnil⟩ := List.append_eq_nil_iff.1 (hls.symm.trans hw)
    have hverdict : verdictLines p' = [] := by
      unfold verdictLines
      split
      · rename_i v hv
        exact absurd hv (hopen v)
      · rfl
    have h := (ih hold (Session.tau_running hs)).step
      (@Step.parti K maxAlive cores _ _ ls [] rfl rfl hs hls (hnil ▸ .nil))
    rw [hverdict] at h
    exact h

end Wired

/-- **The pipes carry the session.** Whatever parts the lines of the two processes
are cut into, and however their loops and the pipes interleave: the two sides do
what they do in a session, and are in states of one. The messages received are
the first lines of the partitioner, in order, each of them once, and the debug
lines apart they are parsed as they were meant; so are the lines the partitioner
has parsed. A message or a line that comes next is the next one of the session's
pipe; and when the output has ended nothing is left in it. The numbers of the
nodes must fit an `int`, in which the number of a parent is printed. -/
theorem pipes_carry {w : Wired K} (hr : (wired K maxAlive cores).Reachable w)
    (hsize : w.session.parti.size ≤ 2 ^ 31) :
    (session K maxAlive cores).Reachable w.session ∧
    nonblank w.receiving.received <+: w.lines ∧
    Wired.said (nonblank w.receiving.received) =
      (w.session.output.take w.session.taken).map some ∧
    w.input.parsed.map commandOf = w.session.parti.read.map some ∧
    w.session.parti.read <+: w.session.coord.sent ∧
    (∀ r msg, Receiving.Step w.receiving .call r →
      r.received = w.receiving.received ++ [msg] →
      msg = [] ∨ lineOf msg = some .other ∨
        ∃ l rest, l ≠ .other ∧ lineOf msg = some l ∧ w.session.toCoord = l :: rest) ∧
    (∀ i text, Input.Step w.input .readLine i → i.parsed = w.input.parsed ++ [text] →
      ∃ line rest, commandOf text = some line ∧ w.session.toParti = line :: rest) ∧
    (w.receiving.partitioner.status = .receiveDone → w.session.toCoord = []) := by
  obtain ⟨hs, h⟩ := (Wired.carried_inductive K maxAlive cores).reachable hr hsize
  have hsmall := ((Session.bounded_inductive (by decide)).reachable hs).2 hsize
  have hsame : Receiving.Looks w.receiving w.receiving :=
    ⟨rfl, rfl, ⟨[], (List.append_nil _).symm, Nat.zero_le 1⟩, .inl rfl⟩
  exact ⟨hs, (Wired.received_first h.receiving h.plain h.flushed fun hc => (h.closed hc).1).1,
    h.taken, h.parsed, h.read, fun r msg hr hm => h.next hr hm,
    fun i text hi he => h.nextCommand hsmall hi he, h.drained h.receiving hsame rfl h.taken⟩

/-- The line about the root, in two parts. -/
theorem rootLine_carried : ∃ w : Wired boolsKernel, (wired boolsKernel 8 1).Reachable w ∧
    w.receiving.received = [['1', ' ', '0', ' ', '-', '1']] ∧ w.session.taken = 1 ∧
    w.session.parti.size = 1 := by
  have h₀ : (wired boolsKernel 8 1).Reachable
      ⟨⟨Coordinator.startSolving, boolsConverted, 0⟩, [], .start, .start⟩ :=
    Wired.reachable_silent (boolsConverted_reachable fun _ => rfl) rfl fun v hv => by cases hv
  have h₁ := h₀.step (@Wired.Step.parti _ _ _ _ _ [.newUnknownNode 0 none]
    [['1', ' ', '0', ' ', '-', '1']] rfl rfl boolsAnnounced_step rfl
    (.cons (.unknown 0 none) .nil))
  have h₂ := h₁.step (.flush (.write ['1', ' ', '0'] rfl) (by decide))
  have h₃ := h₂.step (.look rfl (.inr (.inl rfl)) (.enter rfl (by decide)))
  have h₄ := h₃.step (.call rfl (.read rfl (by decide) (by decide) rfl
    (@Process.Reads.data _ ['1', ' ', '0'] [] (by decide) rfl)) rfl)
  have h₅ := h₄.step (.flush (.write [' ', '-', '1', '\n'] rfl) (by decide))
  have h₆ := h₅.step (.look rfl (.inr (.inl rfl)) (.enter rfl (by decide)))
  have h₇ := h₆.step (.call rfl (.read rfl (by decide) (by decide) rfl
    (@Process.Reads.data _ [' ', '-', '1', '\n'] [] (by decide) rfl)) rfl)
  exact ⟨_, h₇, rfl, rfl, rfl⟩

theorem pipes_carry_rootLine : ∃ w : Wired boolsKernel,
    w.receiving.received = [['1', ' ', '0', ' ', '-', '1']] ∧ w.session.taken = 1 ∧
      (session boolsKernel 8 1).Reachable w.session := by
  obtain ⟨w, hr, hm, ht, hsize⟩ := rootLine_carried
  have hle : w.session.parti.size ≤ 2 ^ 31 := by
    rw [hsize]
    decide
  exact ⟨w, hm, ht, (pipes_carry hr hle).1⟩

end AriParti.L3
