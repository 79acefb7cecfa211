import AriParti.L1Arith.Manager
import AriParti.L1Bounds.Visits
import AriParti.L2Partitioner.Paving

/-!
# Verdicts and task files

What the coordinator may rely on. The process says unsat (`l_false`) when no
leaf is left to convert and no task is alive. A leaf is then UNSAT or
TERMINATED: terminating the solver of a node that was not split leaves its
part of the search space to nobody, and the counter drops just as if the node
had been refuted. The line that announces a node promises its task file; a
task without clause and bound gets no file, and its node is announced all the
same.

## Results

* `unsat_verdict_refuted`: in a run that terminates no leaf, on `l_false` every
  leaf is UNSAT, found so by the partitioner or the coordinator, directly or
  through an ancestor. `unsat_verdict_terminated`: a run that terminates the
  root.
* `announced_file`: when a node is announced its parent has been, and its file
  has been written exactly if its task is not empty. `announced_no_file`: a
  problem with an empty task.
-/
namespace AriParti.L2
open AriParti.Core AriParti.L1 Context

variable {K : Kernel} {maxAlive : Nat}

/-! ## What a verdict says about the leaves -/

/-- On `l_false` after the root was placed in the heap, a leaf is UNSAT or
TERMINATED. -/
theorem unsat_verdict_leaves {s : Context K} (h : s.Inv) (hd : s.phase = .done .unsat)
    (hroot : K.inconsistent (s.node 0).content = false) {n : Nat} (hn : n < s.size) :
    (s.node n).state = .unsat ∨ (s.node n).state = .terminated := by
  rcases h.verdict .unsat hd with hc | ⟨hheap, halive⟩
  · rw [hroot] at hc
    cases hc
  · have hnone : s.ptask = none := by
      rcases h.idle with he | he | he
      · rw [hd] at he; cases he
      · rw [hd] at he; cases he
      · exact he
    have hzero := halive rfl
    cases hs : (s.node n).state with
    | unconverted =>
      rcases h.unconverted n hn hs with hc | hc | ⟨t, ht, -⟩
      · rw [hroot] at hc
        cases hc
      · rw [hheap] at hc
        exact absurd hc List.not_mem_nil
      · rw [hnone] at ht
        cases ht
    | waiting =>
      have hmem := mem_waitingNodes.2 ⟨hn, hs⟩
      rw [h.counted.alive, Finset.card_eq_zero] at hzero
      rw [hzero] at hmem
      exact absurd hmem (Finset.notMem_empty n)
    | unsat => exact .inl rfl
    | terminated => exact .inr rfl

/-- A terminate line is read for a WAITING node only when it has been split. -/
def TerminatesSplit (s : Context K) : Label → Prop
  | .readLine (.terminateNode id) => (s.node id).state = .waiting → (s.node id).children ≠ []
  | _ => True

/-- A terminated node has children to cover it. -/
def TerminatedSplit (s : Context K) : Prop :=
  ∀ n, (s.node n).state = .terminated → (s.node n).children ≠ []

theorem TerminatedSplit.setUnsat {s : Context K} (h : TerminatedSplit s) (n : Nat) :
    TerminatedSplit (s.setState n .unsat) := by
  intro m hm
  rw [setState_state] at hm
  split at hm
  · cases hm
  · rw [((Recolored.refl s).setState n .unsat).children]
    exact h m hm

theorem TerminatedSplit.announce {s : Context K} (h : TerminatedSplit s) (hi : s.Inv)
    {t : TaskInfo K} (ht : s.ptask = some t) (cs : K.Candidates)
    (ch : Option (K.Content × K.Content)) : TerminatedSplit (s.announce t cs ch) := by
  have hpend := hi.task t ht
  have hen : TerminatedSplit (s.enlist t cs) := by
    intro m hm
    rw [enlist_state] at hm
    split at hm
    · cases hm
    · rw [(enlist_node t cs m).2.1]
      exact h m hm
  have hleaf : ((s.enlist t cs).node t.nodeId).children = [] :=
    (enlist_node t cs t.nodeId).2.1.trans hpend.children
  cases ch with
  | none => exact hen
  | some lr =>
    have hlt : t.nodeId < (s.enlist t cs).size := hpend.lt
    have hsp := splitNode_split hlt hleaf t lr.1 lr.2
    have hchild : ∀ c : K.Content, childState c ≠ .terminated := by
      intro c
      unfold childState
      split <;> decide
    show TerminatedSplit ((s.enlist t cs).splitNode t.nodeId t (some lr))
    intro m hm
    by_cases h1 : m = t.nodeId
    · rw [h1, hsp.parent]
      exact List.cons_ne_nil _ _
    · by_cases h2 : m = (s.enlist t cs).size
      · rw [h2, hsp.left] at hm
        exact absurd hm (hchild lr.1)
      · by_cases h3 : m = (s.enlist t cs).size + 1
        · rw [h3, hsp.right] at hm
          exact absurd hm (hchild lr.2)
        · rw [hsp.other m h1 h2 h3] at hm ⊢
          exact hen m hm

theorem TerminatedSplit.readLine {s : Context K} (h : TerminatedSplit s) (line : C2P)
    (hg : TerminatesSplit s (.readLine line)) : TerminatedSplit (s.readLine line) := by
  intro m hm
  have hm : ((s.parseLine line).node m).state = .terminated := hm
  show ((s.parseLine line).node m).children ≠ []
  rw [(parseLine_recolors line).children]
  rcases parseLine_state (s := s) line m with he | he | ⟨rfl, hw, -⟩
  · rw [he] at hm
    exact h m hm
  · rw [he] at hm
    cases hm
  · exact hg hw

theorem TerminatedSplit.createNewTask {s : Context K} (h : TerminatedSplit s) (hi : s.Inv)
    {ni : NodeInfo} (hni : ni ∈ s.leafHeap) : TerminatedSplit (s.createNewTask ni) := by
  rcases createNewTask_cases hi hni with ⟨-, he⟩ | ⟨-, -, -, he⟩ | ⟨task, -, -, -, he⟩ <;> rw [he]
  · exact h
  · exact h.setUnsat ni.id
  · exact h

theorem terminatedSplit_inductive :
    ((machine K maxAlive).restrict TerminatesSplit).Inductive
      fun s => RunInv s ∧ TerminatedSplit s := by
  apply (run_inv.of_restrict TerminatesSplit).under
  · intro s hs m hm
    rw [show s = .empty from hs] at hm
    cases hm
  · intro s l s' hi h ⟨hg, hs⟩
    have root : ∀ (c : K.Content) m, (((empty (K := K)).mkNode none c).node m).state ≠
        .terminated := by
      intro c m hm
      rw [root_state] at hm
      cases hm
    cases hs with
    | initUnsat => exact fun m hm => absurd hm (root _ m)
    | propagateUnsat => exact fun m hm => absurd hm (root _ m)
    | init => exact fun m hm => absurd hm (root _ m)
    | announce hp ht =>
      rcases hi with rfl | ⟨hi, -⟩
      · cases hp
      · exact h.announce hi ht _ _
    | readLine line => exact h.readLine line hg
    | enter => exact h
    | createNewTask hp htop =>
      rcases hi with rfl | ⟨hi, -⟩
      · cases hp
      · exact h.createNewTask hi htop.1
    | heapEmpty => exact h
    | display =>
      unfold displayCurrentTask
      split
      · exact h
      · exact h

/-- **An unsat verdict refutes the whole tree**, as long as no leaf was
terminated: on `l_false` after the root was placed in the heap, every leaf is
UNSAT, and it or a node above it was found inconsistent, refuted by its
conversion, or reported unsat. -/
theorem unsat_verdict_refuted {s : Context K}
    (hr : ((machine K maxAlive).restrict TerminatesSplit).Reachable s)
    (hd : s.phase = .done .unsat) (hroot : K.inconsistent (s.node 0).content = false) :
    ∀ n < s.size, s.childrenOf n = [] →
      (s.node n).state = .unsat ∧ ∃ a, Below s.childrenOf a n ∧ s.FoundUnsat a := by
  intro n hn hleaf
  obtain ⟨hi, ht⟩ := terminatedSplit_inductive.reachable hr
  rcases hi with rfl | ⟨hi, -⟩
  · cases hd
  · rcases unsat_verdict_leaves hi hd hroot hn with hs | hs
    · exact ⟨hs, hi.reasons.leaf hs hleaf⟩
    · exact absurd hleaf (ht n hs)

/-! ## What an announcement says about the file -/

/-- A step announces at most the pending task as unknown. -/
theorem newUnknownNode_announced {s s' : Context K} {l : Label} (h : s.Inv) (hl : s.Lines)
    (hs : Step K maxAlive s l s') {id : Nat} {pid : Option Nat}
    (hnew : .newUnknownNode id pid ∈ s'.written) (hold : .newUnknownNode id pid ∉ s.written) :
    ∃ task, K.convert (s.node id).content = some task ∧ s.files id = fileOf task ∧
      ∀ p, pid = some p → ∃ q, .newUnknownNode p q ∈ s.written := by
  cases hs with
  | initUnsat => exact absurd rfl h.started
  | propagateUnsat => exact absurd rfl h.started
  | init => exact absurd rfl h.started
  | @announce _ t cs ch₀ ch hp ht _ _ =>
    have hpend := h.task t ht
    have hw : .newUnknownNode id pid ∈ (s.enlist t cs).written := by
      cases ch with
      | none => exact hnew
      | some lr =>
        have hleaf : ((s.enlist t cs).node t.nodeId).children = [] :=
          (enlist_node t cs t.nodeId).2.1.trans hpend.children
        have hsp := splitNode_split (s := s.enlist t cs) hpend.lt hleaf t lr.1 lr.2
        have hnew : P2C.newUnknownNode id pid ∈
            ((s.enlist t cs).splitNode t.nodeId t (some lr)).written := hnew
        rw [hsp.written, List.mem_append, List.mem_append] at hnew
        have hchild : ∀ (c : K.Content) m, .newUnknownNode id pid ∉ childLine t.nodeId c m := by
          intro c m hm
          unfold childLine at hm
          split at hm
          · cases List.mem_singleton.1 hm
          · exact List.not_mem_nil hm
        rcases hnew with (hnew | hnew) | hnew
        · exact hnew
        · exact absurd hnew (hchild _ _)
        · exact absurd hnew (hchild _ _)
    have hw : .newUnknownNode id pid ∈ s.written ++ [newNode false t.nodeId _] := hw
    rcases List.mem_append.1 hw with hw | hw
    · exact absurd hw hold
    · cases List.mem_singleton.1 hw
      exact ⟨t.task, hpend.convert, hl.pending t hp ht,
        fun p hpar => hl.parent_announced h.grown hpend.lt hpar⟩
  | readLine line =>
    rw [show (s.readLine line).written = s.written from (parseLine_recolors line).written] at hnew
    exact absurd hnew hold
  | enter => exact absurd hnew hold
  | createNewTask hp htop =>
    rcases createNewTask_cases h htop.1 with ⟨-, he⟩ | ⟨-, -, -, he⟩ | ⟨task, -, -, -, he⟩ <;>
      rw [he] at hnew
    · exact absurd hnew hold
    · rcases List.mem_append.1 hnew with hnew | hnew
      · exact absurd hnew hold
      · cases List.mem_singleton.1 hnew
    · exact absurd hnew hold
  | heapEmpty => exact absurd hnew hold
  | @display _ t hp ht =>
    have hw : (s.displayCurrentTask t).written = s.written := by
      unfold displayCurrentTask
      split <;> rfl
    rw [show ({ s.displayCurrentTask t with phase := .announce } : Context K).written = s.written
      from hw] at hnew
    exact absurd hnew hold

/-- **An announced task exists exactly if it is not empty.** When a step
writes the line that announces a node as unknown, the node converts to a task,
its parent was announced before, and the file with its task is there if and
only if the task has a clause or a bound. -/
theorem announced_file {P : Problem} {pr : Params} {im : IntervalManager} {so : Sorting}
    {s s' : Context (paving P pr im so)} {l : Label}
    (hr : (machine (paving P pr im so) maxAlive).Reachable s)
    (hs : Step (paving P pr im so) maxAlive s l s') {id : Nat} {pid : Option Nat}
    (hnew : .newUnknownNode id pid ∈ s'.written) (hold : .newUnknownNode id pid ∉ s.written) :
    ∃ task, convertNodeToTask P so (s.node id).content = some task ∧
      (∀ p, pid = some p → ∃ q, .newUnknownNode p q ∈ s.written) ∧
      (s.files id = some task ↔ task.clauses ≠ [] ∨ task.varBounds ≠ []) := by
  rcases run_inv.reachable hr with rfl | ⟨h, hl⟩
  · have hempty : s'.written = [] := by
      cases hs with
      | initUnsat => rfl
      | propagateUnsat => rfl
      | init => rfl
      | announce hp => cases hp
      | readLine _ hp => cases hp
      | enter hp => cases hp
      | createNewTask hp => cases hp
      | heapEmpty hp => cases hp
      | display hp => cases hp
    rw [hempty] at hnew
    exact absurd hnew List.not_mem_nil
  · obtain ⟨task, htask, hfile, hpid⟩ := newUnknownNode_announced h hl hs hnew hold
    refine ⟨task, htask, hpid, ?_⟩
    rw [hfile]
    show (if (task.clauses.isEmpty && task.varBounds.isEmpty) = true then none
      else some task) = some task ↔ _
    cases hc : task.clauses with
    | nil => cases hb : task.varBounds <;> simp
    | cons c cs => simp

/-! ## Runs on small problems -/

/-- The process with the leaf `ni` converted and its file written, about to
announce it. -/
def leafConverted (s : Context K) (ni : NodeInfo) (task : K.Task) : Context K :=
  let t : TaskInfo K := ⟨ni.id, (s.node ni.id).depth, task⟩
  { displayCurrentTask { s with
      leafHeap := s.leafHeap.erase ni, ptask := some t, phase := .returned } t with
    phase := .announce }

/-- From the poll of the pipe to an announcement, with nothing to read. -/
theorem leafConverted_reachable {G : Context K → Label → Prop} (hG : ∀ s, G s .tau) {s : Context K}
    {ni : NodeInfo} {task : K.Task} (hr : ((machine K maxAlive).restrict G).Reachable s)
    (hp : s.phase = .poll) (halive : s.aliveTaskNum ≤ maxAlive) (htop : IsTop s.leafHeap ni)
    (hc : K.inconsistent (s.node ni.id).content = false)
    (hs : (s.node ni.id).state = .unconverted) (hpar : s.parentUnsat ni.id = false)
    (ht : K.convert (s.node ni.id).content = some task) :
    ((machine K maxAlive).restrict G).Reachable (leafConverted s ni task) := by
  have enter : Step K maxAlive s .tau { s with phase := .create } := .enter hp halive
  have create : Step K maxAlive { s with phase := .create } .tau
      (createNewTask { s with phase := .create } ni) := .createNewTask rfl htop
  have he : createNewTask { s with phase := .create } ni =
      { s with
        leafHeap := s.leafHeap.erase ni
        ptask := some ⟨ni.id, (s.node ni.id).depth, task⟩
        phase := .returned } := by
    have hpar' : ({ s with leafHeap := s.leafHeap.erase ni, phase := .create } :
        Context K).parentUnsat ni.id = false := hpar
    unfold createNewTask
    simp [hc, hs, ht, hpar']
  rw [he] at create
  have display : Step K maxAlive _ .tau (leafConverted s ni task) := .display rfl rfl
  exact ((hr.step ⟨hG _, enter⟩).step ⟨hG _, create⟩).step ⟨hG _, display⟩

/-- The process with the root converted and its file written, about to
announce it. -/
def rootConverted (c : K.Content) (task : K.Task) : Context K :=
  { (displayCurrentTask { (empty (K := K)).mkNode none c with ptask := some ⟨0, 0, task⟩ }
      ⟨0, 0, task⟩) with phase := .announce }

theorem rootConverted_reachable {G : Context K → Label → Prop} (hG : ∀ s, G s .tau)
    {c₀ c : K.Content} {task : K.Task} (hinit : K.init c₀) (h₀ : K.inconsistent c₀ = false)
    (hp : K.propagate c₀ c) (hc : K.inconsistent c = false) (ht : K.convert c = some task) :
    ((machine K maxAlive).restrict G).Reachable (rootConverted c task) := by
  let s₁ : Context K :=
    { (empty (K := K)).mkNode none c with leafHeap := [⟨0, 0, 0, 0⟩], phase := .poll }
  have h₁ : ((machine K maxAlive).restrict G).Reachable s₁ :=
    .step (.init rfl) ⟨hG _, .init hinit h₀ hp hc⟩
  have htop : IsTop [⟨0, 0, 0, 0⟩] ⟨0, 0, 0, 0⟩ := ⟨List.mem_singleton_self _, by decide⟩
  have h := leafConverted_reachable hG h₁ rfl (Nat.zero_le _) htop hc rfl rfl ht
  have hd : rootConverted c task = leafConverted s₁ ⟨0, 0, 0, 0⟩ task := by
    unfold rootConverted leafConverted displayCurrentTask
    simp only
    split <;> rfl
  rw [hd]
  exact h

/-- With no leaf and no task alive the process ends with `l_false`. -/
theorem done_unsat {G : Context K → Label → Prop} (hG : ∀ s, G s .tau) {s : Context K}
    (hr : ((machine K maxAlive).restrict G).Reachable s) (hp : s.phase = .create)
    (hh : s.leafHeap = []) (h0 : s.aliveTaskNum = 0) :
    ∃ s', ((machine K maxAlive).restrict G).Reachable s' ∧ s'.phase = .done .unsat ∧
      s'.size = s.size ∧ s'.node = s.node := by
  refine ⟨_, hr.step ⟨hG _, Step.heapEmpty hp hh⟩, ?_, rfl, rfl⟩
  show Phase.done _ = _
  rw [if_neg (by rw [h0]; decide)]

/-- `x` is real, the others are Boolean. `0 ≤ x` follows from the first two
clauses, and no values of `b₂` and `b₃` satisfy the others. -/
def deadEnd : Problem :=
  .ofAtoms 4 (fun _ => false) (fun x => x != 0) []
    [[.bool 1 false, .ineq 0 0 true false], [.bool 1 true, .ineq 0 0 true false],
      [.bool 2 false, .bool 3 false], [.bool 2 false, .bool 3 true],
      [.bool 2 true, .bool 3 false], [.bool 2 true, .bool 3 true]] rfl

abbrev deadKernel : Kernel := paving deadEnd defaults defaultManager stable

def deadRoot : Content := initRoot deadEnd defaults defaultManager

def deadRootTask : Task :=
  ⟨12, 6, [[.ineq 0 0 true false, .bool 1 false], [.ineq 0 0 true false, .bool 1 true],
    [.bool 2 false, .bool 3 false], [.bool 2 false, .bool 3 true],
    [.bool 2 true, .bool 3 false], [.bool 2 true, .bool 3 true]], []⟩

theorem dead_root_task : convertNodeToTask deadEnd stable deadRoot = some deadRootTask := by
  decide

/-- What a visit of the clause with this number makes of a node. -/
def deadVisit (n : Content) (i : Nat) : Content :=
  n.propagateClause deadEnd (deadEnd.clauses.getD i [])

theorem deadVisit_visit {n : Content} {i : Nat} (hi : i < 6) (hn : n.inconsistent = false) :
    Visit deadEnd defaults defaultManager n (deadVisit n i) := by
  have hmem : ∀ i < 6, deadEnd.clauses.getD i [] ∈ deadEnd.clauses := by decide
  exact .clause hn (hmem i hi)

/-- `0 ≤ x`. -/
def deadLeft : Content := childOf deadEnd deadRoot 0 0 true false

/-- `x < 0`, refuted by the first two clauses. -/
def deadRight : Content := deadVisit (deadVisit (childOf deadEnd deadRoot 0 0 false true) 0) 1

def deadTask : Task :=
  ⟨8, 4, [[.bool 2 false, .bool 3 false], [.bool 2 false, .bool 3 true],
    [.bool 2 true, .bool 3 false], [.bool 2 true, .bool 3 true]], [.ineq 0 0 true false]⟩

theorem dead_task : convertNodeToTask deadEnd stable deadLeft = some deadTask := by
  decide

/-- The root is announced and split at `0 ≤ x`. -/
def deadSplit : Context deadKernel :=
  (rootConverted (K := deadKernel) deadRoot deadRootTask).announce ⟨0, 0, deadRootTask⟩
    ([0] : List Nat) (some (deadLeft, deadRight))

/-- The left child is converted. -/
def deadConverted : Context deadKernel := leafConverted deadSplit ⟨1, 0, 6, 12⟩ deadTask

/-- It is announced and split at `x ≤ 128`. -/
def deadAnnounced : Context deadKernel :=
  deadConverted.announce ⟨1, 1, deadTask⟩ ([0] : List Nat)
    (some (childOf deadEnd deadLeft 0 128 false false, childOf deadEnd deadLeft 0 128 true true))

theorem deadRoot_reachable {G : Context deadKernel → Label → Prop} (hG : ∀ s, G s .tau) :
    ((machine deadKernel 8).restrict G).Reachable
      (rootConverted (K := deadKernel) deadRoot deadRootTask) :=
  rootConverted_reachable hG (rfl : deadKernel.init deadRoot) (by decide)
    Relation.ReflTransGen.refl (by decide) dead_root_task

theorem deadSplit_step : Step deadKernel 8
    (rootConverted (K := deadKernel) deadRoot deadRootTask) .tau deadSplit := by
  have hcut : Branch deadEnd [] deadRoot deadRootTask [0]
      (some (deadLeft, childOf deadEnd deadRoot 0 0 false true)) :=
    Branch.cut (x := 0) (by decide) (.lit (by decide))
  exact .announce rfl rfl hcut ⟨Relation.ReflTransGen.refl,
    .tail (.single (deadVisit_visit (by decide) (by decide)))
      (deadVisit_visit (by decide) (by decide +kernel))⟩

theorem deadConverted_reachable {G : Context deadKernel → Label → Prop} (hG : ∀ s, G s .tau) :
    ((machine deadKernel 8).restrict G).Reachable deadConverted :=
  leafConverted_reachable hG ((deadRoot_reachable hG).step ⟨hG _, deadSplit_step⟩) rfl
    (by decide) (by unfold IsTop; decide) (by decide) (by decide)
    (by decide) dead_task

theorem deadAnnounced_step : Step deadKernel 8 deadConverted .tau deadAnnounced :=
  .announce rfl rfl (Branch.cut (x := 0) (by decide)
    (.midpoint (by decide) (by decide +kernel)) : Branch deadEnd [0] deadLeft deadTask [0] _)
    ⟨Relation.ReflTransGen.refl, Relation.ReflTransGen.refl⟩

theorem deadAnnounced_reachable {G : Context deadKernel → Label → Prop} (hG : ∀ s, G s .tau) :
    ((machine deadKernel 8).restrict G).Reachable deadAnnounced :=
  (deadConverted_reachable hG).step ⟨hG _, deadAnnounced_step⟩

/-- The coordinator has reported node 1 unsat, and its children are taken from the
heap. -/
def deadReported : Context deadKernel :=
  (({ deadAnnounced.readLine (.unsatNode 1) with phase := .create } :
    Context deadKernel).createNewTask ⟨3, 1, 4, 8⟩).createNewTask ⟨4, 1, 4, 8⟩

theorem deadReported_reachable {G : Context deadKernel → Label → Prop} (hG : ∀ s, G s .tau)
    (hline : G deadAnnounced (.readLine (.unsatNode 1))) :
    ((machine deadKernel 8).restrict G).Reachable deadReported := by
  have hw : deadAnnounced.written =
      [.newUnknownNode 0 none, .newUnsatNode 2 (some 0), .newUnknownNode 1 (some 0)] := by
    decide
  have hann : ∀ id, C2P.unsatNode 1 = .unsatNode id ∨ C2P.unsatNode 1 = .terminateNode id →
      deadAnnounced.Announced id := by
    rintro id (he | he) <;> cases he
    exact ⟨some 0, .inl (by rw [hw]; decide)⟩
  let s₁ : Context deadKernel := deadAnnounced.readLine (.unsatNode 1)
  have line : Step deadKernel 8 deadAnnounced (.readLine (.unsatNode 1)) s₁ :=
    .readLine _ (by decide) hann
  have enter : Step deadKernel 8 s₁ .tau { s₁ with phase := .create } :=
    .enter (by decide) (by decide)
  have first : Step deadKernel 8 { s₁ with phase := .create } .tau
      (({ s₁ with phase := .create } : Context deadKernel).createNewTask ⟨3, 1, 4, 8⟩) :=
    .createNewTask rfl (by unfold IsTop; decide +kernel)
  have second : Step deadKernel 8
      (({ s₁ with phase := .create } : Context deadKernel).createNewTask ⟨3, 1, 4, 8⟩) .tau
      deadReported :=
    .createNewTask (by decide) (by unfold IsTop; decide)
  exact ((((deadAnnounced_reachable hG).step ⟨hline, line⟩).step ⟨hG _, enter⟩).step
    ⟨hG _, first⟩).step ⟨hG _, second⟩

/-- Nodes 0, 1, 3 and 4 are unsat by that line, node 2 by its bounds. -/
theorem unsat_verdict_refuted_deadEnd :
    ∃ s, ((machine deadKernel 8).restrict TerminatesSplit).Reachable s ∧
      s.phase = .done .unsat ∧ s.size = 5 ∧ ∀ n < s.size, s.childrenOf n = [] →
        (s.node n).state = .unsat ∧ ∃ a, Below s.childrenOf a n ∧ s.FoundUnsat a := by
  obtain ⟨s, hr, hd, hsize, hnode⟩ := done_unsat (fun _ => trivial)
    (deadReported_reachable (G := TerminatesSplit) (fun _ => trivial) trivial)
    (by decide) (by decide) (by decide)
  have hroot : deadKernel.inconsistent (s.node 0).content = false := by
    rw [hnode]
    decide +kernel
  have hfive : s.size = 5 := by
    rw [hsize]
    decide
  exact ⟨s, hr, hd, hfive, unsat_verdict_refuted hr hd hroot⟩

/-- The left child of `deadEnd` is announced after its parent, and its file is
there. -/
theorem announced_file_deadEnd :
    ∃ task, convertNodeToTask deadEnd stable (deadConverted.node 1).content = some task ∧
      (∀ p, some 0 = some p → ∃ q, .newUnknownNode p q ∈ deadConverted.written) ∧
      (deadConverted.files 1 = some task ↔ task.clauses ≠ [] ∨ task.varBounds ≠ []) :=
  announced_file (deadConverted_reachable (G := fun _ _ => True) fun _ => trivial).of_restrict
    deadAnnounced_step (by decide) (by decide)

/-- The only clause is `b₀ ∨ b₁`. -/
def twoBools : Problem :=
  .ofAtoms 2 (fun _ => false) (fun _ => true) []
    [[.bool 0 false, .bool 1 false]] rfl

abbrev boolsKernel : Kernel := paving twoBools defaults defaultManager stable

/-- The root before the task is announced: `b₀ ∨ b₁` is left. -/
def boolsTask : Task := ⟨2, 1, [[.bool 0 false, .bool 1 false]], []⟩

def boolsConverted : Context boolsKernel :=
  rootConverted (K := boolsKernel) (initRoot twoBools defaults defaultManager) boolsTask

theorem boolsConverted_reachable {G : Context boolsKernel → Label → Prop}
    (hG : ∀ s, G s .tau) :
    ((machine boolsKernel 8).restrict G).Reachable boolsConverted :=
  rootConverted_reachable hG (rfl : boolsKernel.init (initRoot twoBools defaults defaultManager))
    (by decide) Relation.ReflTransGen.refl (by decide) rfl

/-- The root is announced; it has no variable to split on. -/
def boolsAnnounced : Context boolsKernel :=
  boolsConverted.announce ⟨0, 0, boolsTask⟩ ([] : List Nat) none

theorem boolsAnnounced_step : Step boolsKernel 8 boolsConverted .tau boolsAnnounced :=
  .announce rfl rfl (.noVar (by decide) : Branch twoBools _ _ boolsTask _ none) trivial

theorem boolsAnnounced_reachable {G : Context boolsKernel → Label → Prop} (hG : ∀ s, G s .tau) :
    ((machine boolsKernel 8).restrict G).Reachable boolsAnnounced :=
  (boolsConverted_reachable hG).step ⟨hG _, boolsAnnounced_step⟩

/-- The run in which the solver of the root fails: the process says unsat, the
root is a leaf that was only terminated, and the problem has a model. -/
theorem unsat_verdict_terminated :
    ∃ s, (machine boolsKernel 8).Reachable s ∧ s.phase = .done .unsat ∧
      boolsKernel.inconsistent (s.node 0).content = false ∧ 0 < s.size ∧
      s.childrenOf 0 = [] ∧ (s.node 0).state = .terminated := by
  have hann : ∀ id, C2P.terminateNode 0 = .unsatNode id ∨ C2P.terminateNode 0 = .terminateNode id →
      boolsAnnounced.Announced id := by
    rintro id (he | he) <;> cases he
    exact ⟨none, .inl (List.mem_singleton_self _)⟩
  have line : Step boolsKernel 8 boolsAnnounced (.readLine (.terminateNode 0))
      (boolsAnnounced.readLine (.terminateNode 0)) := .readLine _ rfl hann
  have enter : Step boolsKernel 8 (boolsAnnounced.readLine (.terminateNode 0)) .tau
      { boolsAnnounced.readLine (.terminateNode 0) with phase := .create } :=
    .enter rfl (by decide)
  have h₀ := boolsAnnounced_reachable (G := fun _ _ => True) fun _ => trivial
  obtain ⟨s, hr, hd, hsize, hnode⟩ := done_unsat (fun _ => trivial)
    ((h₀.step ⟨trivial, line⟩).step ⟨trivial, enter⟩) rfl rfl rfl
  refine ⟨s, hr.of_restrict, hd, ?_, ?_, ?_, ?_⟩
  · rw [hnode]; rfl
  · rw [hsize]; decide
  · show (s.node 0).children = []
    rw [hnode]; rfl
  · rw [hnode]; rfl

/-- The only clause, `3 ≤ x ∨ x ≤ 5`, holds for every real `x`. -/
def tautology : Problem :=
  .ofAtoms 1 (fun _ => false) (fun _ => false) []
    [[.ineq 0 3 true false, .ineq 0 5 false false]] rfl

/-- Nothing is left of the clause, and there is no bound. -/
def tautologyTask : Task := ⟨2, 1, [], []⟩

theorem tautology_task :
    convertNodeToTask tautology stable (initRoot tautology defaults defaultManager) =
      some tautologyTask := by
  decide

/-- The root is announced although its task has no file. -/
theorem announced_no_file :
    ∃ s s' : Context (paving tautology defaults defaultManager stable), ∃ l,
      (machine (paving tautology defaults defaultManager stable) 8).Reachable s ∧
      Step (paving tautology defaults defaultManager stable) 8 s l s' ∧
      .newUnknownNode 0 none ∈ s'.written ∧ .newUnknownNode 0 none ∉ s.written ∧
      s.files 0 = none := by
  let K := paving tautology defaults defaultManager stable
  let t : TaskInfo K := ⟨0, 0, tautologyTask⟩
  let s : Context K := rootConverted (initRoot tautology defaults defaultManager) tautologyTask
  have h : ((machine K 8).restrict fun _ _ => True).Reachable s :=
    rootConverted_reachable (fun _ => trivial)
      (rfl : K.init (initRoot tautology defaults defaultManager)) (by decide)
      Relation.ReflTransGen.refl (by decide) tautology_task
  have hs : Step K 8 s .tau (s.announce t ([] : List Nat) none) :=
    .announce rfl rfl (.noVar (by decide)) trivial
  exact ⟨_, _, _, h.of_restrict, hs, List.mem_singleton_self _, List.not_mem_nil, rfl⟩

end AriParti.L2
