import Mathlib.Algebra.BigOperators.Group.Finset.Basic
import AriParti.L2Partitioner.Verdicts

/-!
# The counters of the open nodes

`select_best_var` scores a variable by how often it has been split on in the
nodes that are not UNSAT: `m_var_unsolved_split_cnt` over
`m_unsolved_task_num`. The counters are unsigned. They go up where a node
enters the leaf heap and down in `update_node_state_unsat`; everywhere else
the state of a node is assigned without them.

## Layout

* `Stats`: a context with the counters and the split variables of its nodes,
  and `wrapped`, which notes a decrement at zero. The functions of `Context`
  again, with what they do to the counters; `forget` is the context.
* `StatsStep`, `stats`: the steps of the process with its counters.

## Results

* `stats_lift`, `stats_ctx`: the counters decide nothing; the runs with them are
  the runs without them.
* `Tally`: the counters count the nodes that are not UNSAT and the nodes that
  conversion refuted.
* `split_statistics`: they are right exactly as long as conversion refutes no
  node.
* `counters_safe`: no counter is decremented at zero, and there is an open
  node whenever a split variable is chosen.
-/
namespace AriParti.L2
open AriParti.Core

variable {K : Kernel} {maxAlive : Nat}

/-- `context_t` with `m_unsolved_task_num`, `m_var_unsolved_split_cnt` and
`split_vars` of each node. -/
structure Stats (K : Kernel) where
  ctx : Context K
  unsolvedTaskNum : Nat
  varUnsolvedSplitCnt : Nat → Nat
  splitVars : Nat → List Nat
  /-- an unsigned counter has been decremented at zero -/
  wrapped : Bool

namespace Stats

def empty : Stats K := ⟨.empty, 0, fun _ => 0, fun _ => [], false⟩

/-- `--m_var_unsolved_split_cnt[v]` -/
def lowerVar (r : (Nat → Nat) × Bool) (v : Nat) : (Nat → Nat) × Bool :=
  (Function.update r.1 v (r.1 v - 1), r.2 || r.1 v == 0)

variable (s : Stats K)

/-- The loops over `split_vars` go up to the depth of the node. -/
def varsOf (n : Nat) : List Nat := (s.splitVars n).take (s.ctx.node n).depth

/-- `--m_alive_task_num` in the context, with a note if it is zero. -/
def lowerAlive (c : Context K) : Stats K :=
  { s with ctx := c, wrapped := s.wrapped || s.ctx.aliveTaskNum == 0 }

/-- mirrors subpaving_t_def.h:3406-3411 -/
def lower (n : Nat) : Stats K :=
  let r := (s.varsOf n).foldl lowerVar (s.varUnsolvedSplitCnt, s.wrapped || s.unsolvedTaskNum == 0)
  { s with unsolvedTaskNum := s.unsolvedTaskNum - 1, varUnsolvedSplitCnt := r.1, wrapped := r.2 }

/-- mirrors subpaving_t_def.h:3780-3782 and :3812-3814 -/
def raise (n : Nat) : Stats K :=
  { s with
    unsolvedTaskNum := s.unsolvedTaskNum + 1
    varUnsolvedSplitCnt :=
      (s.varsOf n).foldl (fun c v => Function.update c v (c v + 1)) s.varUnsolvedSplitCnt }

/-- mirrors subpaving_t_def.h:3388-3414, below its early return -/
def updateNodeStateUnsat (n : Nat) : Stats K :=
  let c := s.ctx.updateNodeStateUnsat n
  if (s.ctx.node n).state = .waiting then (s.lower n).lowerAlive c
  else { s.lower n with ctx := c }

/-- The partition tree, with the counters in its state. -/
def tree : MarkedTree (Stats K) where
  size s := s.ctx.size
  parent s n := (s.ctx.node n).parent
  children s n := (s.ctx.node n).children
  marked s n := (s.ctx.node n).state == .unsat
  mark n s := s.updateNodeStateUnsat n
  size_mark n s := by
    unfold updateNodeStateUnsat
    split <;> rfl
  parent_mark n s := by
    have h := Context.tree.parent_mark n s.ctx
    unfold updateNodeStateUnsat
    split <;> exact h
  children_mark n s := by
    have h := Context.tree.children_mark n s.ctx
    unfold updateNodeStateUnsat
    split <;> exact h
  marked_mark n s m := by
    have h := Context.tree.marked_mark n s.ctx m
    unfold updateNodeStateUnsat
    split <;> exact h

/-- mirrors subpaving_t_def.h:3451-3462 -/
def nodeSolvedUnsat (n : Nat) : Stats K :=
  if (s.ctx.node n).state = .unsat then s
  else tree.spread 0 (s.updateNodeStateUnsat n) n

/-- mirrors subpaving_t_def.h:3464-3489 -/
def parseLine : C2P → Stats K
  | .unsatNode id => s.nodeSolvedUnsat id
  | .terminateNode id =>
    if (s.ctx.node id).state = .waiting then s.lowerAlive (s.ctx.parseLine (.terminateNode id))
    else s

def readLine (line : C2P) : Stats K :=
  let s' := s.parseLine line
  { s' with ctx := { s'.ctx with read := s.ctx.read ++ [line] } }

/-- A child of `n` made by a split on `x`: it gets the split variables of `n`
(subpaving_t_def.h:880,3562), and is counted if it enters the heap. -/
def addChild (n : Nat) (t : TaskInfo K) (x : Nat) (c : K.Content) : Stats K :=
  let id := s.ctx.size
  let s := { s with
    ctx := s.ctx.addChild n t c
    splitVars := Function.update s.splitVars id (s.varsOf n ++ [x]) }
  if K.inconsistent c then s else s.raise id

def splitNode (n : Nat) (t : TaskInfo K) (x : Nat) : Option (K.Content × K.Content) → Stats K
  | none => s
  | some (left, right) => (s.addChild n t x left).addChild n t x right

/-- mirrors subpaving_t_def.h:3924-3941 -/
def announce (t : TaskInfo K) (candidates : K.Candidates) (x : Nat)
    (children : Option (K.Content × K.Content)) : Stats K :=
  splitNode { s with ctx := s.ctx.enlist t candidates } t.nodeId t x children

end Stats

open Stats in
/-- The steps of the process with its counters; `x` is the split variable. -/
inductive StatsStep (K : Kernel) (maxAlive : Nat) : Stats K → Label → Stats K → Prop where
  | initUnsat {c : K.Content} : K.init c → K.inconsistent c = true →
      StatsStep K maxAlive .empty .tau
        { (empty (K := K)) with ctx := { (Context.empty (K := K)).mkNode none c with
            phase := .done .unsat } }
  | propagateUnsat {c₀ c : K.Content} : K.init c₀ → K.inconsistent c₀ = false →
      K.propagate c₀ c → K.inconsistent c = true →
      StatsStep K maxAlive .empty .tau
        { (empty (K := K)) with ctx := { (Context.empty (K := K)).mkNode none c with
            phase := .done .unsat } }
  /-- the root enters the heap and is counted (subpaving_t_def.h:3919-3920) -/
  | init {c₀ c : K.Content} : K.init c₀ → K.inconsistent c₀ = false →
      K.propagate c₀ c → K.inconsistent c = false →
      StatsStep K maxAlive .empty .tau
        { (empty (K := K)) with
          ctx := { (Context.empty (K := K)).mkNode none c with
            leafHeap := [⟨0, 0, 0, 0⟩], phase := .poll }
          unsolvedTaskNum := 1 }
  | announce {s : Stats K} {t : TaskInfo K} {cs : K.Candidates}
      {ch₀ ch : Option (K.Content × K.Content)} (x : Nat) : s.ctx.phase = .announce →
      s.ctx.ptask = some t →
      K.branch s.ctx.candidates (s.ctx.node t.nodeId).content t.task cs ch₀ →
      Propagated K ch₀ ch → StatsStep K maxAlive s .tau (s.announce t cs x ch)
  | readLine {s : Stats K} (line : C2P) : s.ctx.phase = .poll →
      (∀ id, line = .unsatNode id ∨ line = .terminateNode id → s.ctx.Announced id) →
      StatsStep K maxAlive s (.readLine line) (s.readLine line)
  | enter {s : Stats K} : s.ctx.phase = .poll → s.ctx.aliveTaskNum ≤ maxAlive →
      StatsStep K maxAlive s .tau { s with ctx := { s.ctx with phase := .create } }
  /-- `create_new_task` leaves the counters alone -/
  | createNewTask {s : Stats K} {ni : NodeInfo} : s.ctx.phase = .create →
      IsTop s.ctx.leafHeap ni →
      StatsStep K maxAlive s .tau { s with ctx := s.ctx.createNewTask ni }
  | heapEmpty {s : Stats K} : s.ctx.phase = .create → s.ctx.leafHeap = [] →
      StatsStep K maxAlive s .tau { s with ctx := { s.ctx with
        phase := .done (if 0 < s.ctx.aliveTaskNum then .unknown else .unsat) } }
  | display {s : Stats K} {t : TaskInfo K} : s.ctx.phase = .returned → s.ctx.ptask = some t →
      StatsStep K maxAlive s .tau { s with ctx := { s.ctx.displayCurrentTask t with
        phase := .announce } }

def stats (K : Kernel) (maxAlive : Nat) : LTS (Stats K) Label where
  init s := s = .empty
  step := StatsStep K maxAlive

namespace Stats

variable {s s' : Stats K}

/-! ## The context of a state -/

theorem updateNodeStateUnsat_ctx (n : Nat) :
    (s.updateNodeStateUnsat n).ctx = s.ctx.updateNodeStateUnsat n := by
  unfold updateNodeStateUnsat
  split <;> rfl

theorem forget : MarkedTree.Forgets (tree (K := K)) Context.tree Stats.ctx :=
  ⟨fun _ => rfl, fun _ => rfl, fun _ => rfl, fun _ => rfl, fun _ _ => updateNodeStateUnsat_ctx _⟩

theorem nodeSolvedUnsat_ctx (n : Nat) : (s.nodeSolvedUnsat n).ctx = s.ctx.nodeSolvedUnsat n := by
  unfold nodeSolvedUnsat
  rw [Context.nodeSolvedUnsat_eq]
  split
  · rfl
  · rw [forget.spread, updateNodeStateUnsat_ctx]

theorem parseLine_ctx (line : C2P) : (s.parseLine line).ctx = s.ctx.parseLine line := by
  cases line with
  | unsatNode id => exact nodeSolvedUnsat_ctx id
  | terminateNode id =>
    show (if (s.ctx.node id).state = .waiting then _ else s : Stats K).ctx = _
    split
    · rfl
    · rename_i hw
      exact (if_neg hw).symm

theorem readLine_ctx (line : C2P) : (s.readLine line).ctx = s.ctx.readLine line := by
  unfold readLine Context.readLine
  simp only [parseLine_ctx]

theorem addChild_ctx (n : Nat) (t : TaskInfo K) (x : Nat) (c : K.Content) :
    (s.addChild n t x c).ctx = s.ctx.addChild n t c := by
  unfold addChild
  split <;> rfl

theorem announce_ctx (t : TaskInfo K) (cs : K.Candidates) (x : Nat)
    (ch : Option (K.Content × K.Content)) :
    (s.announce t cs x ch).ctx = s.ctx.announce t cs ch := by
  cases ch with
  | none => rfl
  | some lr =>
    show (((_ : Stats K).addChild _ t x lr.1).addChild _ t x lr.2).ctx = _
    rw [addChild_ctx, addChild_ctx]
    rfl

end Stats

open Stats

/-- With the counters forgotten a step is a step of the process. -/
theorem StatsStep.step {s s' : Stats K} {l : Label} (h : StatsStep K maxAlive s l s') :
    Step K maxAlive s.ctx l s'.ctx := by
  cases h with
  | initUnsat hi hc => exact .initUnsat hi hc
  | propagateUnsat hi h₀ hp hc => exact .propagateUnsat hi h₀ hp hc
  | init hi h₀ hp hc => exact .init hi h₀ hp hc
  | announce x hp ht hb hprop =>
    rw [announce_ctx]
    exact .announce hp ht hb hprop
  | readLine line hp hl =>
    rw [readLine_ctx]
    exact .readLine line hp hl
  | enter hp ha => exact .enter hp ha
  | createNewTask hp ht => exact .createNewTask hp ht
  | heapEmpty hp hh => exact .heapEmpty hp hh
  | display hp ht => exact .display hp ht

/-- Not started, or with the invariants of the process. -/
theorem stats_inv : (stats K maxAlive).Inductive fun s =>
    s = .empty ∨ s.ctx.Inv ∧ s.ctx.Lines := by
  constructor
  · exact fun _ h => .inl h
  · intro s l s' h hs
    rcases h with rfl | ⟨h, hl⟩
    · have hrun : RunInv s'.ctx :=
        (run_inv : (machine K maxAlive).Inductive RunInv).step _ _ _ (.inl rfl) hs.step
      rcases hrun with he | hrun
      · exfalso
        have hp := congrArg Context.phase he
        cases hs with
        | announce _ hph => cases hph
        | readLine _ hph => cases hph
        | enter hph => cases hph
        | createNewTask hph => cases hph
        | display hph => cases hph
        | _ => cases hp
      · exact .inr hrun
    · exact .inr ⟨step_inv h (fun id hid => hl.announced hid) hs.step, step_lines hl h hs.step⟩

theorem stats_ctx {s : Stats K} (h : (stats K maxAlive).Reachable s) :
    (machine K maxAlive).Reachable s.ctx := by
  induction h with
  | init h =>
    rw [show _ = Stats.empty from h]
    exact .init rfl
  | step _ hs ih => exact ih.step hs.step

/-- The counters decide nothing: a run of the process is one with them. -/
theorem stats_lift {c : Context K} (h : (machine K maxAlive).Reachable c) :
    ∃ s, (stats K maxAlive).Reachable s ∧ s.ctx = c := by
  induction h with
  | init h => exact ⟨.empty, .init rfl, (show _ = _ from h).symm⟩
  | @step c c' l hr hs ih =>
    obtain ⟨s, hrs, rfl⟩ := ih
    have hstart : s.ctx.phase = .start → s = .empty := by
      intro he
      rcases stats_inv.reachable hrs with h | h
      · exact h
      · exact absurd he h.1.started
    generalize hc : s.ctx = c at hs
    cases hs with
    | initUnsat hi h₀ =>
      obtain rfl := hstart (by rw [hc]; rfl)
      exact ⟨_, hrs.step (.initUnsat hi h₀), rfl⟩
    | propagateUnsat hi h₀ hp h₁ =>
      obtain rfl := hstart (by rw [hc]; rfl)
      exact ⟨_, hrs.step (.propagateUnsat hi h₀ hp h₁), rfl⟩
    | init hi h₀ hp h₁ =>
      obtain rfl := hstart (by rw [hc]; rfl)
      exact ⟨_, hrs.step (.init hi h₀ hp h₁), rfl⟩
    | announce hp ht hb hprop =>
      subst hc
      exact ⟨_, hrs.step (.announce 0 hp ht hb hprop), announce_ctx _ _ _ _⟩
    | readLine line hp hl =>
      subst hc
      exact ⟨_, hrs.step (.readLine line hp hl), readLine_ctx line⟩
    | enter hp ha =>
      subst hc
      exact ⟨_, hrs.step (.enter hp ha), rfl⟩
    | createNewTask hp ht =>
      subst hc
      exact ⟨_, hrs.step (.createNewTask hp ht), rfl⟩
    | heapEmpty hp hh =>
      subst hc
      exact ⟨_, hrs.step (.heapEmpty hp hh), rfl⟩
    | display hp ht =>
      subst hc
      exact ⟨_, hrs.step (.display hp ht), rfl⟩

/-! ## What the counters count -/

open Context (Recolored mem_waitingNodes setState_state)

/-- Refuted by its conversion: announced as unsat with consistent contents. -/
def Context.Lost (c : Context K) (n : Nat) : Prop :=
  .newUnsatNode n (c.node n).parent ∈ c.written ∧ K.inconsistent (c.node n).content = false

instance (c : Context K) (n : Nat) : Decidable (c.Lost n) := by
  unfold Context.Lost
  infer_instance

/-- The nodes the counters stand for. -/
def Context.openNodes (c : Context K) : Finset Nat :=
  (Finset.range c.size).filter fun n => (c.node n).state ≠ .unsat ∨ c.Lost n

theorem mem_openNodes {c : Context K} {n : Nat} :
    n ∈ c.openNodes ↔ n < c.size ∧ ((c.node n).state ≠ .unsat ∨ c.Lost n) := by
  simp [Context.openNodes]

/-- Each counter stands for the open nodes. -/
structure Tally (s : Stats K) : Prop where
  wrapped : s.wrapped = false
  unsolved : s.unsolvedTaskNum = s.ctx.openNodes.card
  split : ∀ v, s.varUnsolvedSplitCnt v = ∑ n ∈ s.ctx.openNodes, (s.splitVars n).count v
  length : ∀ n < s.ctx.size, (s.splitVars n).length = (s.ctx.node n).depth
  lost : ∀ n pid, .newUnsatNode n pid ∈ s.ctx.written →
    n < s.ctx.size ∧ (s.ctx.node n).state = .unsat

namespace Stats

variable {s s' : Stats K}

theorem varsOf_eq (h : Tally s) {n : Nat} (hn : n < s.ctx.size) : s.varsOf n = s.splitVars n := by
  unfold Stats.varsOf
  rw [← h.length n hn, List.take_length]

theorem foldl_lowerVar (vs : List Nat) (f : Nat → Nat) (w : Bool) (h : ∀ v, vs.count v ≤ f v) :
    vs.foldl lowerVar (f, w) = (fun v => f v - vs.count v, w) := by
  induction vs generalizing f with
  | nil => simp
  | cons a vs ih =>
    have hpos : f a ≠ 0 := by
      have := h a
      rw [List.count_cons_self] at this
      omega
    have hstep : lowerVar (f, w) a = (Function.update f a (f a - 1), w) := by
      simp [lowerVar, hpos]
    rw [List.foldl_cons, hstep, ih]
    · congr 1
      funext v
      by_cases hv : v = a
      · subst hv
        rw [Function.update_self, List.count_cons_self]
        omega
      · rw [Function.update_of_ne hv, List.count_cons_of_ne (Ne.symm hv)]
    · intro v
      have := h v
      by_cases hv : v = a
      · subst hv
        rw [List.count_cons_self] at this
        rw [Function.update_self]
        omega
      · rw [List.count_cons_of_ne (Ne.symm hv)] at this
        rwa [Function.update_of_ne hv]

theorem foldl_raise (vs : List Nat) (f : Nat → Nat) :
    vs.foldl (fun c v => Function.update c v (c v + 1)) f = fun v => f v + vs.count v := by
  induction vs generalizing f with
  | nil => simp
  | cons a vs ih =>
    rw [List.foldl_cons, ih]
    funext v
    by_cases hv : v = a
    · subst hv
      rw [Function.update_self, List.count_cons_self]
      omega
    · rw [Function.update_of_ne hv, List.count_cons_of_ne (Ne.symm hv)]

/-! ## Marking a node -/

theorem openNodes_setState {c : Context K} {n : Nat}
    (hlost : ∀ m pid, .newUnsatNode m pid ∈ c.written → (c.node m).state = .unsat)
    (hs : (c.node n).state ≠ .unsat) :
    (c.setState n .unsat).openNodes = c.openNodes.erase n := by
  have hrec := (Recolored.refl c).setState n .unsat
  ext m
  have hl : (c.setState n .unsat).Lost m ↔ c.Lost m := by
    unfold Context.Lost
    rw [hrec.parent, hrec.content, hrec.written]
  rw [Finset.mem_erase, mem_openNodes, mem_openNodes, hl, setState_state]
  show m < c.size ∧ _ ↔ _
  by_cases hm : m = n
  · subst hm
    rw [if_pos rfl]
    constructor
    · rintro ⟨-, h | h⟩
      · exact absurd rfl h
      · exact absurd (hlost m _ h.1) hs
    · exact fun h => absurd rfl h.1
  · rw [if_neg hm]
    exact ⟨fun h => ⟨hm, h⟩, fun h => h.2⟩

/-- An unmarked node is counted, and no longer once it is marked. -/
theorem lower_tally (h : Tally s) {n : Nat} (hn : n < s.ctx.size)
    (hs : (s.ctx.node n).state ≠ .unsat) (alive : Nat) :
    Tally { s.lower n with ctx := { s.ctx.setState n .unsat with aliveTaskNum := alive } } := by
  have hrec := (Recolored.refl s.ctx).setState n .unsat
  have hmem : n ∈ s.ctx.openNodes := mem_openNodes.2 ⟨hn, .inl hs⟩
  have hopen : Context.openNodes { s.ctx.setState n .unsat with aliveTaskNum := alive } =
      s.ctx.openNodes.erase n := openNodes_setState (fun m pid hm => (h.lost m pid hm).2) hs
  have hpos : 0 < s.unsolvedTaskNum := by
    rw [h.unsolved]
    exact Finset.card_pos.2 ⟨n, hmem⟩
  have hsum : ∀ v, s.varUnsolvedSplitCnt v =
      ∑ m ∈ s.ctx.openNodes.erase n, (s.splitVars m).count v + (s.splitVars n).count v := by
    intro v
    rw [h.split, Finset.sum_erase_add _ _ hmem]
  have hw : (s.wrapped || s.unsolvedTaskNum == 0) = false := by
    rw [h.wrapped, Bool.false_or, beq_eq_false_iff_ne]
    omega
  have hfold := foldl_lowerVar (s.splitVars n) s.varUnsolvedSplitCnt false fun v => by
    rw [hsum]
    exact Nat.le_add_left _ _
  have hlower : s.lower n = { s with
      unsolvedTaskNum := s.unsolvedTaskNum - 1
      varUnsolvedSplitCnt := fun v => s.varUnsolvedSplitCnt v - (s.splitVars n).count v
      wrapped := false } := by
    unfold lower
    rw [hw, varsOf_eq h hn, hfold]
  rw [hlower]
  constructor
  · rfl
  · show s.unsolvedTaskNum - 1 = _
    rw [hopen, Finset.card_erase_of_mem hmem, h.unsolved]
  · intro v
    show s.varUnsolvedSplitCnt v - (s.splitVars n).count v = _
    rw [hopen, hsum, Nat.add_sub_cancel]
  · intro m hm
    exact (h.length m hm).trans (hrec.depth m).symm
  · intro m pid hm
    refine ⟨(h.lost m pid hm).1, ?_⟩
    show ((s.ctx.setState n .unsat).node m).state = _
    rw [setState_state]
    split
    · rfl
    · exact (h.lost m pid hm).2

theorem mark_tally (h : Tally s) (hc : s.ctx.Counted) {n : Nat} (hn : n < s.ctx.size)
    (hs : (s.ctx.node n).state ≠ .unsat) : Tally (s.updateNodeStateUnsat n) := by
  have hl := lower_tally h hn hs (s.ctx.updateNodeStateUnsat n).aliveTaskNum
  unfold updateNodeStateUnsat
  split
  · rename_i hw
    have hpos : 0 < s.ctx.aliveTaskNum := by
      rw [hc.alive]
      exact Finset.card_pos.2 ⟨n, mem_waitingNodes.2 ⟨hn, hw⟩⟩
    refine ⟨?_, hl.unsolved, hl.split, hl.length, hl.lost⟩
    show ((s.lower n).wrapped || s.ctx.aliveTaskNum == 0) = false
    rw [show (s.lower n).wrapped = false from hl.wrapped, Bool.false_or, beq_eq_false_iff_ne]
    omega
  · exact hl

/-- Everything a line about an announced node marks is in the tree. -/
theorem nodeSolvedUnsat_tally (h : Tally s) (hc : s.ctx.Counted) (hg : Context.tree.Grown s.ctx)
    {n : Nat} (hn : n < s.ctx.size) : Tally (s.nodeSolvedUnsat n) := by
  unfold nodeSolvedUnsat
  split
  · exact h
  · rename_i hs
    let P : Stats K → Prop := fun s' => Tally s' ∧ s'.ctx.Counted ∧
      Recolored s.ctx s'.ctx
    have mark : ∀ m s', m < s.ctx.size → tree.marked s' m = false → P s' → P (tree.mark m s') := by
      intro m s' hm hmark ⟨ht, hct, hrec⟩
      have hms : (s'.ctx.node m).state ≠ .unsat := by
        intro he
        have hmark : ((s'.ctx.node m).state == .unsat) = false := hmark
        rw [he] at hmark
        cases hmark
      refine ⟨mark_tally ht hct (hrec.size ▸ hm) hms, ?_, ?_⟩
      · rw [show (tree.mark m s').ctx = _ from updateNodeStateUnsat_ctx m]
        exact hct.leave m (by decide)
      · rw [show (tree.mark m s').ctx = _ from updateNodeStateUnsat_ctx m]
        exact (hrec.setState m .unsat).counter _
    have hstart : P (s.updateNodeStateUnsat n) :=
      mark n s hn (by simpa [tree] using hs) ⟨h, hc, .refl _⟩
    refine (tree.spread_keeps_of (D := fun m => m < s.ctx.size) mark ?_ ?_ _ n hn hstart).1
    · intro s' p c ⟨_, _, hrec⟩ _ hch
      have hch : c ∈ (s'.ctx.node p).children := hch
      rw [hrec.children] at hch
      exact ((hg.child p c).1 hch).1
    · intro s' c p ⟨_, _, hrec⟩ hc hp
      have hp : (s'.ctx.node c).parent = some p := hp
      rw [hrec.parent] at hp
      exact (hg.parentLt c p hp).trans hc

theorem readLine_tally (h : Tally s) (hc : s.ctx.Counted) (hg : Context.tree.Grown s.ctx)
    (line : C2P) (hl : ∀ id, line = .unsatNode id → id < s.ctx.size) :
    Tally (s.readLine line) := by
  suffices hp : Tally (s.parseLine line) from
    ⟨hp.wrapped, hp.unsolved, hp.split, hp.length, hp.lost⟩
  cases line with
  | unsatNode id => exact nodeSolvedUnsat_tally h hc hg (hl id rfl)
  | terminateNode id =>
    show Tally (if (s.ctx.node id).state = .waiting then _ else s)
    split
    · rename_i hw
      have hrec := Context.parseLine_recolors (s := s.ctx) (.terminateNode id)
      have hpos : 0 < s.ctx.aliveTaskNum := by
        rw [hc.alive]
        exact Finset.card_pos.2 ⟨id, mem_waitingNodes.2 ⟨hc.made id hw, hw⟩⟩
      have hstate : ∀ m, ((s.ctx.parseLine (.terminateNode id)).node m).state = .unsat ↔
          (s.ctx.node m).state = .unsat := by
        intro m
        rw [Context.terminateNode_state]
        by_cases hm : m = id ∧ (s.ctx.node id).state = .waiting
        · obtain ⟨rfl, -⟩ := hm
          simp [hw]
        · rw [if_neg hm]
      have hopen : (s.ctx.parseLine (.terminateNode id)).openNodes = s.ctx.openNodes := by
        ext m
        rw [mem_openNodes, mem_openNodes, hrec.size, Ne, hstate]
        unfold Context.Lost
        rw [hrec.parent, hrec.content, hrec.written]
      constructor
      · show (s.wrapped || s.ctx.aliveTaskNum == 0) = false
        rw [h.wrapped, Bool.false_or, beq_eq_false_iff_ne]
        omega
      · show s.unsolvedTaskNum = (s.ctx.parseLine (.terminateNode id)).openNodes.card
        rw [hopen, h.unsolved]
      · intro v
        show s.varUnsolvedSplitCnt v = ∑ n ∈ (s.ctx.parseLine (.terminateNode id)).openNodes, _
        rw [hopen, h.split]
        rfl
      · show ∀ m < (s.ctx.parseLine (.terminateNode id)).size, _
        rw [hrec.size]
        exact fun m hm => (h.length m hm).trans (hrec.depth m).symm
      · show ∀ m pid, .newUnsatNode m pid ∈ (s.ctx.parseLine (.terminateNode id)).written →
          m < (s.ctx.parseLine (.terminateNode id)).size ∧ _
        rw [hrec.written, hrec.size]
        intro m pid hm
        have hm := h.lost m pid hm
        exact ⟨hm.1, (hstate m).2 hm.2⟩
    · exact h

/-! ## Making nodes -/

section
variable {c : Context K} {n : Nat} (t : TaskInfo K) (b : K.Content)

/-- Making a child leaves the other nodes, up to the children of `n`. -/
theorem addChild_old {m : Nat} (hm : m ≠ c.size) :
    ((c.addChild n t b).node m).state = (c.node m).state ∧
      ((c.addChild n t b).node m).parent = (c.node m).parent ∧
      ((c.addChild n t b).node m).depth = (c.node m).depth ∧
      ((c.addChild n t b).node m).content = (c.node m).content := by
  rw [Context.addChild_node, if_neg hm]
  split
  · rename_i he
    rw [he]
    exact ⟨rfl, rfl, rfl, rfl⟩
  · exact ⟨rfl, rfl, rfl, rfl⟩

theorem addChild_new : (c.addChild n t b).node c.size =
    ⟨some n, (c.node n).depth + 1, [], b, Context.childState b⟩ := by
  rw [Context.addChild_node, if_pos rfl]

theorem mem_addChild_written {y : P2C} : y ∈ (c.addChild n t b).written ↔
    y ∈ c.written ∨ (K.inconsistent b = true ∧ y = .newUnsatNode c.size (some n)) := by
  show y ∈ c.written ++ Context.childLine n b c.size ↔ _
  rw [List.mem_append, Context.mem_childLine]

variable (hlost : ∀ m pid, .newUnsatNode m pid ∈ c.written → m < c.size)
include hlost

theorem addChild_Lost (m : Nat) : (c.addChild n t b).Lost m ↔ c.Lost m := by
  unfold Context.Lost
  rw [mem_addChild_written]
  by_cases hm : m = c.size
  · -- an inconsistent child is announced, but not lost
    subst hm
    rw [addChild_new]
    constructor
    · rintro ⟨hw | ⟨hc, -⟩, hcons⟩
      · exact absurd (hlost _ _ hw) (Nat.lt_irrefl _)
      · have hcons : K.inconsistent b = false := hcons
        rw [hcons] at hc
        cases hc
    · exact fun hl => absurd (hlost _ _ hl.1) (Nat.lt_irrefl _)
  · obtain ⟨-, hpar, -, hcont⟩ := addChild_old (c := c) (n := n) t b hm
    rw [hpar, hcont]
    constructor
    · rintro ⟨hw | ⟨-, hw⟩, hcons⟩
      · exact ⟨hw, hcons⟩
      · exact absurd (P2C.newUnsatNode.inj hw).1 hm
    · exact fun hl => ⟨.inl hl.1, hl.2⟩

theorem addChild_openNodes : (c.addChild n t b).openNodes =
    if K.inconsistent b then c.openNodes else insert c.size c.openNodes := by
  have hnot : ¬ c.Lost c.size := fun hl => Nat.lt_irrefl _ (hlost _ _ hl.1)
  ext m
  have hmem : m ∈ (c.addChild n t b).openNodes ↔
      m ∈ c.openNodes ∨ (m = c.size ∧ K.inconsistent b = false) := by
    rw [mem_openNodes, mem_openNodes, addChild_Lost t b hlost]
    show m < c.size + 1 ∧ _ ↔ _
    by_cases hm : m = c.size
    · subst hm
      rw [addChild_new]
      unfold Context.childState
      cases K.inconsistent b <;> simp [hnot]
    · rw [(addChild_old t b hm).1]
      simp only [hm, false_and, or_false]
      exact and_congr_left fun _ => by omega
  rw [hmem]
  cases hb : K.inconsistent b with
  | true => simp
  | false =>
    simp only [Bool.false_eq_true, if_false, Finset.mem_insert, and_true]
    exact or_comm

end

/-- A child is counted exactly if its propagation leaves it open. -/
theorem addChild_tally (h : Tally s) {n : Nat} (hn : n < s.ctx.size) (t : TaskInfo K) (x : Nat)
    (c : K.Content) : Tally (s.addChild n t x c) := by
  have hopen := addChild_openNodes (n := n) t c fun m pid hm => (h.lost m pid hm).1
  have hfresh : s.ctx.size ∉ s.ctx.openNodes := fun hm => Nat.lt_irrefl _ (mem_openNodes.1 hm).1
  have hvars : ∀ m ∈ s.ctx.openNodes, ∀ v, (s.splitVars m).count v =
      (Function.update s.splitVars s.ctx.size (s.varsOf n ++ [x]) m).count v := by
    intro m hm v
    have := (mem_openNodes.1 hm).1
    rw [Function.update_of_ne (by omega)]
  have hlen : ∀ m < s.ctx.size + 1,
      (Function.update s.splitVars s.ctx.size (s.varsOf n ++ [x]) m).length =
        ((s.ctx.addChild n t c).node m).depth := by
    intro m hm
    by_cases hms : m = s.ctx.size
    · subst hms
      rw [Function.update_self, addChild_new, List.length_append, varsOf_eq h hn, h.length n hn]
      rfl
    · rw [Function.update_of_ne hms, (addChild_old t c hms).2.2.1]
      exact h.length m (by omega)
  have hlost : ∀ m pid, .newUnsatNode m pid ∈ (s.ctx.addChild n t c).written →
      m < s.ctx.size + 1 ∧ ((s.ctx.addChild n t c).node m).state = .unsat := by
    intro m pid hm
    rcases (mem_addChild_written t c).1 hm with hm | ⟨hc, hm⟩
    · obtain ⟨hlt, hs⟩ := h.lost m pid hm
      rw [(addChild_old t c (by omega)).1]
      exact ⟨by omega, hs⟩
    · cases hm
      rw [addChild_new]
      exact ⟨by omega, by simp [Context.childState, hc]⟩
  unfold addChild
  simp only
  split
  · rename_i hc
    rw [if_pos hc] at hopen
    refine ⟨h.wrapped, ?_, fun v => ?_, hlen, hlost⟩
    · rw [hopen]
      exact h.unsolved
    · rw [hopen, h.split]
      exact Finset.sum_congr rfl fun m hm => hvars m hm v
  · rename_i hc
    rw [if_neg hc] at hopen
    have hself : ({ s with
        ctx := s.ctx.addChild n t c
        splitVars := Function.update s.splitVars s.ctx.size (s.varsOf n ++ [x]) } :
          Stats K).varsOf s.ctx.size = s.varsOf n ++ [x] := by
      show (Function.update s.splitVars s.ctx.size (s.varsOf n ++ [x]) s.ctx.size).take
        ((s.ctx.addChild n t c).node s.ctx.size).depth = _
      rw [← hlen _ (by omega), List.take_length, Function.update_self]
    refine ⟨h.wrapped, ?_, fun v => ?_, hlen, hlost⟩
    · show s.unsolvedTaskNum + 1 = (s.ctx.addChild n t c).openNodes.card
      rw [hopen, Finset.card_insert_of_notMem hfresh, h.unsolved]
    · show ((_ : List Nat).foldl _ s.varUnsolvedSplitCnt) v =
        ∑ m ∈ (s.ctx.addChild n t c).openNodes,
          (Function.update s.splitVars s.ctx.size (s.varsOf n ++ [x]) m).count v
      rw [hself, foldl_raise, hopen, Finset.sum_insert hfresh, Function.update_self, Nat.add_comm,
        ← Finset.sum_congr rfl fun m hm => hvars m hm v]
      exact congrArg (· + _) (h.split v)

/-- Nothing but the context changes, and its open nodes stay. -/
theorem context_tally (h : Tally s) {c : Context K} (hsize : c.size = s.ctx.size)
    (hopen : c.openNodes = s.ctx.openNodes) (hdepth : ∀ m, (c.node m).depth = (s.ctx.node m).depth)
    (hlost : ∀ m pid, .newUnsatNode m pid ∈ c.written → m < c.size ∧ (c.node m).state = .unsat) :
    Tally { s with ctx := c } where
  wrapped := h.wrapped
  unsolved := h.unsolved.trans (congrArg Finset.card hopen.symm)
  split v := by
    show s.varUnsolvedSplitCnt v = ∑ n ∈ c.openNodes, (s.splitVars n).count v
    rw [hopen]
    exact h.split v
  length m hm := by
    have hm : m < c.size := hm
    rw [hsize] at hm
    exact (h.length m hm).trans (hdepth m).symm
  lost := hlost

/-- A task that is announced was open before, and is open now. -/
theorem enlist_tally (h : Tally s) {t : TaskInfo K} (hp : s.ctx.Pending t) (cs : K.Candidates) :
    Tally { s with ctx := s.ctx.enlist t cs } := by
  have hnode := fun m => Context.enlist_node (s := s.ctx) t cs m
  have hstate := fun m => Context.enlist_state (s := s.ctx) t cs m
  have hunsat : ∀ m, ((s.ctx.enlist t cs).node m).state = .unsat ↔
      (s.ctx.node m).state = .unsat := by
    intro m
    rw [hstate]
    split
    · rename_i he
      rw [he, hp.state]
      simp
    · exact Iff.rfl
  have hw : ∀ m pid, .newUnsatNode m pid ∈ (s.ctx.enlist t cs).written ↔
      .newUnsatNode m pid ∈ s.ctx.written := by
    intro m pid
    show _ ∈ s.ctx.written ++ [Context.newNode false t.nodeId (s.ctx.node t.nodeId).parent] ↔ _
    rw [List.mem_append, List.mem_singleton]
    simp [Context.newNode]
  have hopen : (s.ctx.enlist t cs).openNodes = s.ctx.openNodes := by
    ext m
    rw [mem_openNodes, mem_openNodes, Ne, hunsat]
    unfold Context.Lost
    rw [hw, (hnode m).1, (hnode m).2.2]
    exact Iff.rfl
  have hdepth : ∀ m, ((s.ctx.enlist t cs).node m).depth = (s.ctx.node m).depth := by
    intro m
    show ((s.ctx.setState t.nodeId .waiting).node m).depth = _
    rw [((Recolored.refl s.ctx).setState t.nodeId .waiting).depth]
  refine context_tally h rfl hopen hdepth fun m pid hm => ?_
  obtain ⟨hlt, hs⟩ := h.lost m pid ((hw m pid).1 hm)
  exact ⟨hlt, (hunsat m).2 hs⟩

theorem announce_tally (h : Tally s) {t : TaskInfo K} (hp : s.ctx.Pending t) (cs : K.Candidates)
    (x : Nat) (ch : Option (K.Content × K.Content)) : Tally (s.announce t cs x ch) := by
  have hen := enlist_tally h hp cs
  cases ch with
  | none => exact hen
  | some lr =>
    have hn : t.nodeId < (s.ctx.enlist t cs).size := hp.lt
    have hleft := addChild_tally hen hn t x lr.1
    refine addChild_tally hleft ?_ t x lr.2
    rw [addChild_ctx]
    exact hn.trans (Nat.lt_succ_self _)

/-- A node that its conversion refutes stays on the counters. -/
theorem createNewTask_tally (h : Tally s) (hi : s.ctx.Inv) {ni : NodeInfo}
    (hni : ni ∈ s.ctx.leafHeap) : Tally { s with ctx := s.ctx.createNewTask ni } := by
  have hleaf := hi.heap ni.id (List.mem_map.2 ⟨ni, hni, rfl⟩)
  rcases Context.createNewTask_cases hi hni with ⟨-, he⟩ | ⟨hs, -, -, he⟩ | ⟨task, -, -, -, he⟩ <;>
    rw [he]
  · exact context_tally h rfl rfl (fun _ => rfl) h.lost
  · have hrec := (Recolored.refl s.ctx).setState ni.id .unsat
    have hw : ∀ m pid, P2C.newUnsatNode m pid ∈
        s.ctx.written ++ [Context.newNode true ni.id (s.ctx.node ni.id).parent] ↔
        .newUnsatNode m pid ∈ s.ctx.written ∨ m = ni.id ∧ pid = (s.ctx.node ni.id).parent := by
      intro m pid
      rw [List.mem_append, List.mem_singleton]
      simp [Context.newNode]
    have hlost : ∀ m pid, P2C.newUnsatNode m pid ∈
        s.ctx.written ++ [Context.newNode true ni.id (s.ctx.node ni.id).parent] →
        m < s.ctx.size ∧ ((s.ctx.setState ni.id .unsat).node m).state = .unsat := by
      intro m pid hm
      rw [setState_state]
      rcases (hw m pid).1 hm with hm | ⟨rfl, -⟩
      · obtain ⟨hlt, hs⟩ := h.lost m pid hm
        refine ⟨hlt, ?_⟩
        split
        · rfl
        · exact hs
      · exact ⟨hleaf.lt, if_pos rfl⟩
    refine context_tally h rfl ?_ hrec.depth hlost
    ext m
    rw [mem_openNodes, mem_openNodes]
    show m < s.ctx.size ∧ (((s.ctx.setState ni.id .unsat).node m).state ≠ .unsat ∨
      (P2C.newUnsatNode m ((s.ctx.setState ni.id .unsat).node m).parent ∈
        s.ctx.written ++ [Context.newNode true ni.id (s.ctx.node ni.id).parent] ∧
        K.inconsistent ((s.ctx.setState ni.id .unsat).node m).content = false)) ↔ _
    rw [setState_state, hrec.parent, hrec.content, hw]
    by_cases hm : m = ni.id
    · subst hm
      simp [hs, hleaf.consistent]
    · unfold Context.Lost
      simp [hm]
  · exact context_tally h rfl rfl (fun _ => rfl) h.lost

theorem empty_tally : Tally (empty (K := K)) where
  wrapped := rfl
  unsolved := rfl
  split _ := rfl
  length _ hn := absurd hn (Nat.not_lt_zero _)
  lost _ _ hm := absurd hm List.not_mem_nil

/-- The root, counted. -/
theorem root_tally (c : K.Content) (heap : List NodeInfo) (ph : Phase) :
    Tally { (empty (K := K)) with
      ctx := { (Context.empty (K := K)).mkNode none c with leafHeap := heap, phase := ph }
      unsolvedTaskNum := 1 } := by
  have hopen : Context.openNodes
      { (Context.empty (K := K)).mkNode none c with leafHeap := heap, phase := ph } = {0} := by
    ext m
    rw [mem_openNodes, Finset.mem_singleton]
    show m < 1 ∧ ((((Context.empty (K := K)).mkNode none c).node m).state ≠ .unsat ∨ _) ↔ _
    rw [Context.root_state]
    simp
  constructor
  · rfl
  · rw [hopen]
    rfl
  · intro v
    rw [hopen]
    rfl
  · intro m hm
    have hm : m = 0 := Nat.lt_one_iff.1 hm
    subst hm
    rfl
  · exact fun _ _ hm => absurd hm List.not_mem_nil

end Stats

/-- No counter has been decremented at zero, and as long as the process runs
the counters stand for the open nodes. -/
def Audited (s : Stats K) : Prop :=
  s.wrapped = false ∧ ((∃ v, s.ctx.phase = .done v) ∨ Tally s)

theorem stats_audited : (stats K maxAlive).Inductive fun s =>
    (s = .empty ∨ s.ctx.Inv ∧ s.ctx.Lines) ∧ Audited s := by
  apply stats_inv.under
  · intro s hs
    rw [show s = .empty from hs]
    exact ⟨rfl, .inr empty_tally⟩
  · intro s l s' hi ⟨hw, h⟩ hs
    have hrun : s.ctx.phase ≠ .start → (∀ v, s.ctx.phase ≠ .done v) →
        s.ctx.Inv ∧ s.ctx.Lines ∧ Tally s := by
      intro hst hd
      rcases hi with rfl | hi
      · exact absurd rfl hst
      · rcases h with ⟨v, hv⟩ | h
        · exact absurd hv (hd v)
        · exact ⟨hi.1, hi.2, h⟩
    suffices ht : s'.wrapped = false ∧ (∃ v, s'.ctx.phase = .done v) ∨ Tally s' by
      rcases ht with ⟨hw', hd⟩ | ht
      · exact ⟨hw', .inl hd⟩
      · exact ⟨ht.wrapped, .inr ht⟩
    cases hs with
    | initUnsat => exact .inl ⟨rfl, _, rfl⟩
    | propagateUnsat => exact .inl ⟨rfl, _, rfl⟩
    | init => exact .inr (root_tally _ _ _)
    | announce x hp ht =>
      obtain ⟨hi, -, h⟩ := hrun (by rw [hp]; decide) (by rw [hp]; exact fun _ => Phase.noConfusion)
      exact .inr (announce_tally h (hi.task _ ht) _ _ _)
    | readLine line hp hl =>
      obtain ⟨hi, hlines, h⟩ :=
        hrun (by rw [hp]; decide) (by rw [hp]; exact fun _ => Phase.noConfusion)
      exact .inr (readLine_tally h hi.counted hi.grown line
        fun id hid => hlines.announced (hl id (.inl hid)))
    | enter hp =>
      obtain ⟨-, -, h⟩ := hrun (by rw [hp]; decide) (by rw [hp]; exact fun _ => Phase.noConfusion)
      exact .inr (context_tally h rfl rfl (fun _ => rfl) h.lost)
    | createNewTask hp htop =>
      obtain ⟨hi, -, h⟩ := hrun (by rw [hp]; decide) (by rw [hp]; exact fun _ => Phase.noConfusion)
      exact .inr (createNewTask_tally h hi htop.1)
    | heapEmpty => exact .inl ⟨hw, _, rfl⟩
    | @display _ t hp _ =>
      obtain ⟨-, -, h⟩ := hrun (by rw [hp]; decide) (by rw [hp]; exact fun _ => Phase.noConfusion)
      right
      unfold Context.displayCurrentTask
      split
      · exact context_tally h rfl rfl (fun _ => rfl) h.lost
      · exact context_tally h rfl rfl (fun _ => rfl) h.lost

theorem stats_tally {s : Stats K} (hr : (stats K maxAlive).Reachable s)
    (hd : ∀ v, s.ctx.phase ≠ .done v) : Tally s := by
  rcases (stats_audited.reachable hr).2.2 with ⟨v, hv⟩ | h
  · exact absurd hv (hd v)
  · exact h

/-! ## When the counters are right -/

/-- The nodes that are not UNSAT. -/
def Context.notUnsat (c : Context K) : Finset Nat :=
  (Finset.range c.size).filter fun n => (c.node n).state ≠ .unsat

/-- The counters count the nodes that are not UNSAT. -/
def CountsOpen (s : Stats K) : Prop :=
  s.unsolvedTaskNum = s.ctx.notUnsat.card ∧
    ∀ v, s.varUnsolvedSplitCnt v = ∑ n ∈ s.ctx.notUnsat, (s.splitVars n).count v

theorem countsOpen_iff {s : Stats K} (h : Tally s) : CountsOpen s ↔ ∀ n, ¬ s.ctx.Lost n := by
  have hsub : s.ctx.notUnsat ⊆ s.ctx.openNodes := by
    intro n hn
    have hn := Finset.mem_filter.1 hn
    exact mem_openNodes.2 ⟨Finset.mem_range.1 hn.1, .inl hn.2⟩
  constructor
  · intro hc n hn
    have hs := h.lost n _ hn.1
    have heq : s.ctx.notUnsat = s.ctx.openNodes :=
      Finset.eq_of_subset_of_card_le hsub (h.unsolved.symm.trans hc.1).le
    have hmem : n ∈ s.ctx.notUnsat := heq ▸ mem_openNodes.2 ⟨hs.1, .inr hn⟩
    exact (Finset.mem_filter.1 hmem).2 hs.2
  · intro hno
    have heq : s.ctx.notUnsat = s.ctx.openNodes := by
      refine Finset.Subset.antisymm hsub fun n hn => ?_
      obtain ⟨hlt, hs⟩ := mem_openNodes.1 hn
      exact Finset.mem_filter.2 ⟨Finset.mem_range.2 hlt, hs.resolve_right (hno n)⟩
    unfold CountsOpen
    rw [heq]
    exact ⟨h.unsolved, h.split⟩

/-- `create_new_task` takes no node that its conversion refutes. -/
def Converts (s : Stats K) (_ : Label) : Prop :=
  s.ctx.phase = .create → ∀ ni, IsTop s.ctx.leafHeap ni →
    (s.ctx.node ni.id).state = .unconverted → K.convert (s.ctx.node ni.id).content ≠ none

theorem IsTop.unique {heap : List NodeInfo} {a b : NodeInfo} (ha : IsTop heap a)
    (hb : IsTop heap b) : a = b := by
  have hab := ha.2 b hb.1
  have hba := hb.2 a ha.1
  obtain ⟨ai, ad, ac, al⟩ := a
  obtain ⟨bi, bd, bc, bl⟩ := b
  simp only [NodeInfo.lt] at hab hba
  have hd : ad = bd := by
    by_contra hne
    rw [if_pos hne, decide_eq_false_iff_not] at hab
    rw [if_pos (Ne.symm hne), decide_eq_false_iff_not] at hba
    omega
  subst hd
  simp only [ne_eq, not_true_eq_false, if_false] at hab hba
  have hc : ac = bc := by
    by_contra hne
    rw [if_pos hne, decide_eq_false_iff_not] at hab
    rw [if_pos (Ne.symm hne), decide_eq_false_iff_not] at hba
    omega
  subst hc
  simp only [not_true_eq_false, if_false] at hab hba
  have hl : al = bl := by
    by_contra hne
    rw [if_pos hne, decide_eq_false_iff_not] at hab
    rw [if_pos (Ne.symm hne), decide_eq_false_iff_not] at hba
    omega
  subst hl
  simp only [not_true_eq_false, if_false, decide_eq_false_iff_not] at hab hba
  have hi : ai = bi := by omega
  rw [hi]

/-- `create_new_task` takes `n`, and its conversion refutes it. -/
def Context.Refutes (c : Context K) (n : Nat) : Prop :=
  c.phase = .create ∧ ∃ ni, IsTop c.leafHeap ni ∧ ni.id = n ∧
    (c.node n).state = .unconverted ∧ K.convert (c.node n).content = none

theorem announce_Lost {c : Context K} (hl : c.Lines) (t : TaskInfo K) (cs : K.Candidates)
    (ch : Option (K.Content × K.Content)) (n : Nat) : (c.announce t cs ch).Lost n ↔ c.Lost n := by
  have hnode := fun m => Context.enlist_node (s := c) t cs m
  have hw : ∀ m pid, .newUnsatNode m pid ∈ (c.enlist t cs).written ↔
      .newUnsatNode m pid ∈ c.written := by
    intro m pid
    show _ ∈ c.written ++ [Context.newNode false t.nodeId (c.node t.nodeId).parent] ↔ _
    rw [List.mem_append, List.mem_singleton]
    simp [Context.newNode]
  have hen : (c.enlist t cs).Lost n ↔ c.Lost n := by
    unfold Context.Lost
    rw [hw, (hnode n).1, (hnode n).2.2]
  cases ch with
  | none => exact hen
  | some lr =>
    have hlost : ∀ m pid, .newUnsatNode m pid ∈ (c.enlist t cs).written →
        m < (c.enlist t cs).size := fun m pid hm => (hl.unsat m pid ((hw m pid).1 hm)).1
    have hlost₁ : ∀ m pid, .newUnsatNode m pid ∈ ((c.enlist t cs).addChild t.nodeId t lr.1).written →
        m < (c.enlist t cs).size + 1 := by
      intro m pid hm
      rcases (mem_addChild_written t lr.1).1 hm with hm | ⟨-, hm⟩
      · exact (hlost m pid hm).trans (Nat.lt_succ_self _)
      · rw [(P2C.newUnsatNode.inj hm).1]
        exact Nat.lt_succ_self _
    show (((c.enlist t cs).addChild t.nodeId t lr.1).addChild t.nodeId t lr.2).Lost n ↔ _
    rw [addChild_Lost t lr.2 hlost₁, addChild_Lost t lr.1 hlost, hen]

theorem createNewTask_Lost {c : Context K} (hi : c.Inv) (hp : c.phase = .create) {ni : NodeInfo}
    (htop : IsTop c.leafHeap ni) (n : Nat) :
    (c.createNewTask ni).Lost n ↔ c.Lost n ∨ c.Refutes n := by
  have hleaf := hi.heap ni.id (List.mem_map.2 ⟨ni, htop.1, rfl⟩)
  have htaken : c.Refutes n → n = ni.id := by
    rintro ⟨-, mi, hmi, rfl, -⟩
    rw [htop.unique hmi]
  rcases Context.createNewTask_cases hi htop.1 with ⟨hs, he⟩ | ⟨hs, -, hconv, he⟩ |
    ⟨task, -, -, hconv, he⟩ <;> rw [he]
  · have hno : ¬ c.Refutes n := by
      intro hr
      have hu := hr.2.choose_spec.2.2.1
      rw [htaken hr, hs] at hu
      cases hu
    exact (or_iff_left hno).symm
  · have hrec := (Recolored.refl c).setState ni.id .unsat
    have hw : P2C.newUnsatNode n (c.node n).parent ∈
        c.written ++ [Context.newNode true ni.id (c.node ni.id).parent] ↔
        .newUnsatNode n (c.node n).parent ∈ c.written ∨ n = ni.id := by
      rw [List.mem_append, List.mem_singleton]
      refine or_congr_right ⟨fun hm => (P2C.newUnsatNode.inj hm).1, ?_⟩
      rintro rfl
      rfl
    show P2C.newUnsatNode n ((c.setState ni.id .unsat).node n).parent ∈
        c.written ++ [Context.newNode true ni.id (c.node ni.id).parent] ∧
      K.inconsistent ((c.setState ni.id .unsat).node n).content = false ↔ _
    rw [hrec.parent, hrec.content, hw]
    constructor
    · rintro ⟨hw | rfl, hc⟩
      · exact .inl ⟨hw, hc⟩
      · exact .inr ⟨hp, ni, htop, rfl, hs, hconv⟩
    · rintro (hn | hr)
      · exact ⟨.inl hn.1, hn.2⟩
      · rw [htaken hr]
        exact ⟨.inr rfl, hleaf.consistent⟩
  · have hno : ¬ c.Refutes n := by
      intro hr
      have hu := hr.2.choose_spec.2.2.2
      rw [htaken hr, hconv] at hu
      cases hu
    exact (or_iff_left hno).symm

/-- A lost node stays lost, and conversion loses the ones it refutes. -/
theorem lost_step {s s' : Stats K} {l : Label} (hi : s = .empty ∨ s.ctx.Inv ∧ s.ctx.Lines)
    (hs : StatsStep K maxAlive s l s') (n : Nat) :
    s'.ctx.Lost n ↔ s.ctx.Lost n ∨ s.ctx.Refutes n := by
  have hother : s.ctx.phase ≠ .create → (s.ctx.Lost n ↔ s.ctx.Lost n ∨ s.ctx.Refutes n) :=
    fun hp => (or_iff_left fun hr => hp hr.1).symm
  rcases hi with rfl | ⟨hi, hl⟩
  · have hfirst : s'.ctx.written = [] := by
      cases hs with
      | announce _ hp => cases hp
      | readLine _ hp => cases hp
      | enter hp => cases hp
      | createNewTask hp => cases hp
      | heapEmpty hp => cases hp
      | display hp => cases hp
      | _ => rfl
    constructor
    · intro hn
      exact absurd (hfirst ▸ hn.1) List.not_mem_nil
    · rintro (hn | hr)
      · exact absurd hn.1 List.not_mem_nil
      · cases hr.1
  cases hs with
  | initUnsat => exact absurd rfl hi.started
  | propagateUnsat => exact absurd rfl hi.started
  | init => exact absurd rfl hi.started
  | announce x hp =>
    rw [announce_ctx, announce_Lost hl]
    exact hother (by rw [hp]; decide)
  | readLine line hp =>
    have hrec := Context.parseLine_recolors (s := s.ctx) line
    have hsame : (s.readLine line).ctx.Lost n ↔ s.ctx.Lost n := by
      rw [readLine_ctx]
      show P2C.newUnsatNode n ((s.ctx.parseLine line).node n).parent ∈
        (s.ctx.parseLine line).written ∧
        K.inconsistent ((s.ctx.parseLine line).node n).content = false ↔ _
      rw [hrec.parent, hrec.content, hrec.written]
      exact Iff.rfl
    rw [hsame]
    exact hother (by rw [hp]; decide)
  | enter hp => exact hother (by rw [hp]; decide)
  | createNewTask hp htop => exact createNewTask_Lost hi hp htop n
  | heapEmpty _ hempty =>
    have hno : ¬ s.ctx.Refutes n := by
      rintro ⟨-, ni, htop, -⟩
      rw [hempty] at htop
      exact absurd htop.1 List.not_mem_nil
    exact (or_iff_left hno).symm
  | @display _ t hp =>
    have hsame : (s.ctx.displayCurrentTask t).Lost n ↔ s.ctx.Lost n := by
      unfold Context.displayCurrentTask
      split <;> exact Iff.rfl
    exact hsame.trans (hother (by rw [hp]; decide))

/-- No conversion in the run has refuted a node exactly if none is lost. -/
theorem lost_iff_converts {s : Stats K} (hr : (stats K maxAlive).Reachable s) :
    (∀ n, ¬ s.ctx.Lost n) ↔ ((stats K maxAlive).restrict Converts).Reachable s := by
  constructor
  · intro hno
    induction hr with
    | init h => exact .init h
    | @step s s' l hr hs ih =>
      have hstep := fun n => (not_congr (lost_step (stats_inv.reachable hr) hs n)).1 (hno n)
      have hgood : Converts s l := fun hp ni htop hu hc =>
        hstep ni.id (.inr ⟨hp, ni, htop, rfl, hu, hc⟩)
      exact (ih fun n h => hstep n (.inl h)).step ⟨hgood, hs⟩
  · clear hr
    intro h
    induction h with
    | init h =>
      rw [show _ = Stats.empty from h]
      exact fun n hn => absurd hn.1 List.not_mem_nil
    | @step s s' l hr hs ih =>
      intro n hn
      rcases (lost_step (stats_inv.reachable hr.of_restrict) hs.2 n).1 hn with
        h | ⟨hp, ni, htop, rfl, hu, hc⟩
      · exact ih n h
      · exact hs.1 hp ni htop hu hc

/-- **The split statistics are right until a conversion refutes a node.** In a
state of the process the two counters count the nodes that are not UNSAT, if
and only if a run leads to it in which `create_new_task` converts every node
it takes. -/
theorem split_statistics {s : Stats K} (hr : (stats K maxAlive).Reachable s)
    (hd : ∀ v, s.ctx.phase ≠ .done v) :
    CountsOpen s ↔ ((stats K maxAlive).restrict Converts).Reachable s := by
  rw [countsOpen_iff (stats_tally hr hd)]
  exact lost_iff_converts hr

/-- `deadEnd` after its second split: node 2 is UNSAT, the others are counted. -/
theorem split_statistics_deadEnd :
    ∃ s, (stats deadKernel 8).Reachable s ∧ s.ctx = deadAnnounced ∧
      (CountsOpen s ↔ ((stats deadKernel 8).restrict Converts).Reachable s) := by
  obtain ⟨s, hr, hs⟩ :=
    stats_lift (deadAnnounced_reachable (G := fun _ _ => True) fun _ => trivial).of_restrict
  refine ⟨s, hr, hs, split_statistics hr ?_⟩
  rw [hs]
  intro v hv
  have hp : deadAnnounced.phase = .poll := by decide
  rw [hp] at hv
  cases hv

/-- `x` and `y` are real, the others Boolean. After a split on `y < 1` the two
first clauses of the left child say that `x ≤ 1` and `x ≥ 2`, once each is made
simple. With the last two clauses `y` occurs more often than `x`. -/
def twoSides : L1.Problem :=
  .ofAtoms 6 (fun _ => false) (fun x => 2 ≤ x) []
    [[.ineq 0 0 false false, .ineq 0 1 false false, .ineq 1 1 true false],
      [.ineq 0 2 true false, .ineq 0 3 true false, .ineq 1 1 true false],
      [.ineq 0 5 true false, .ineq 0 4 false false, .ineq 1 1 false true],
      [.bool 2 false, .bool 3 false, .ineq 1 1 false true],
      [.bool 4 false, .bool 5 false, .ineq 1 1 false true]] rfl

abbrev sidesKernel : Kernel := paving twoSides L1.defaults L1.defaultManager L1.stable

def sidesRoot : L1.Content := L1.initRoot twoSides L1.defaults L1.defaultManager

def sidesTask : L1.Task :=
  ⟨15, 5, [[.ineq 0 1 false false, .ineq 1 1 true false],
    [.ineq 0 2 true false, .ineq 1 1 true false],
    [.ineq 0 5 true false, .ineq 0 4 false false, .ineq 1 1 false true],
    [.ineq 1 1 false true, .bool 2 false, .bool 3 false],
    [.ineq 1 1 false true, .bool 4 false, .bool 5 false]], []⟩

theorem sides_task : L1.convertNodeToTask twoSides L1.stable sidesRoot = some sidesTask := by
  decide

def sidesLeft : L1.Content := L1.childOf twoSides sidesRoot 1 1 false true

def sidesRight : L1.Content := L1.childOf twoSides sidesRoot 1 1 true false

def sidesCandidates : List Nat := L1.splitCandidates twoSides [] sidesRoot sidesTask

/-- The root is announced and split. -/
def sidesSplit : Context sidesKernel :=
  (rootConverted (K := sidesKernel) sidesRoot sidesTask).announce ⟨0, 0, sidesTask⟩
    sidesCandidates (some (sidesLeft, sidesRight))

/-- The next call has refuted the left child and converted the right one. -/
def sidesReturned : Context sidesKernel :=
  (({ sidesSplit with phase := .create } : Context sidesKernel).createNewTask
    ⟨1, 0, 5, 15⟩).createNewTask ⟨2, 0, 5, 15⟩

theorem sidesReturned_reachable : (machine sidesKernel 8).Reachable sidesReturned := by
  have h₀ : ((machine sidesKernel 8).restrict fun _ _ => True).Reachable
      (rootConverted (K := sidesKernel) sidesRoot sidesTask) :=
    rootConverted_reachable (fun _ => trivial) (rfl : sidesKernel.init sidesRoot)
      (by decide) Relation.ReflTransGen.refl (by decide) sides_task
  have hcut : L1.Branch twoSides [] sidesRoot sidesTask sidesCandidates
      (some (sidesLeft, sidesRight)) :=
    L1.Branch.cut (x := 1) (by decide) (.lit (by decide))
  have announce : Step sidesKernel 8 (rootConverted (K := sidesKernel) sidesRoot sidesTask) .tau
      sidesSplit :=
    .announce rfl rfl hcut ⟨Relation.ReflTransGen.refl, Relation.ReflTransGen.refl⟩
  have enter : Step sidesKernel 8 sidesSplit .tau { sidesSplit with phase := .create } :=
    .enter rfl (by decide)
  have left : Step sidesKernel 8 { sidesSplit with phase := .create } .tau
      (({ sidesSplit with phase := .create } : Context sidesKernel).createNewTask
        ⟨1, 0, 5, 15⟩) :=
    .createNewTask rfl (by unfold IsTop; decide)
  have right : Step sidesKernel 8 (({ sidesSplit with phase := .create } :
      Context sidesKernel).createNewTask ⟨1, 0, 5, 15⟩) .tau sidesReturned :=
    .createNewTask (by decide) (by unfold IsTop; decide)
  exact (((h₀.of_restrict.step announce).step enter).step left).step right

/-- Between two calls the counter says three, and two nodes are not UNSAT. -/
theorem split_statistics_sides :
    ∃ s, (stats sidesKernel 8).Reachable s ∧ s.ctx.phase = .returned ∧
      s.unsolvedTaskNum = 3 ∧ s.ctx.notUnsat.card = 2 := by
  obtain ⟨s, hr, hs⟩ := stats_lift sidesReturned_reachable
  have hp : s.ctx.phase = .returned := by
    rw [hs]
    decide
  have ht := stats_tally hr fun v hv => by
    rw [hp] at hv
    cases hv
  refine ⟨s, hr, hp, ?_, ?_⟩
  · rw [ht.unsolved, hs]
    decide
  · rw [hs]
    decide

/-! ## What the counters are safe from -/

/-- No step takes a node out of UNSAT. -/
theorem unsat_step {s s' : Context K} {l : Label} (hi : s.Inv) (hs : Step K maxAlive s l s')
    {n : Nat} (hn : (s.node n).state = .unsat) : (s'.node n).state = .unsat := by
  have hlt : n < s.size := Context.refuted_lt hi.grown (hi.reasons.sound n hn)
  have hset : ∀ (c : Context K) m, (c.node n).state = .unsat →
      ((c.setState m .unsat).node n).state = .unsat := by
    intro c m hc
    rw [setState_state]
    split
    · rfl
    · exact hc
  cases hs with
  | initUnsat => exact absurd rfl hi.started
  | propagateUnsat => exact absurd rfl hi.started
  | init => exact absurd rfl hi.started
  | @announce _ t cs _ ch hp ht =>
    have hpend := hi.task t ht
    have hen : ((s.enlist t cs).node n).state = .unsat := by
      rw [Context.enlist_state, if_neg]
      · exact hn
      · rintro rfl
        rw [hpend.state] at hn
        cases hn
    cases ch with
    | none => exact hen
    | some lr =>
      have hleaf : ((s.enlist t cs).node t.nodeId).children = [] :=
        (Context.enlist_node t cs t.nodeId).2.1.trans hpend.children
      have hsp := Context.splitNode_split (s := s.enlist t cs) hpend.lt hleaf t lr.1 lr.2
      show (((s.enlist t cs).splitNode t.nodeId t (some lr)).node n).state = .unsat
      exact (hsp.state n hlt).trans hen
  | readLine line =>
    show ((s.parseLine line).node n).state = .unsat
    rcases Context.parseLine_state (s := s) line n with he | he | ⟨-, hw, -⟩
    · exact he.trans hn
    · exact he
    · rw [hn] at hw
      cases hw
  | enter => exact hn
  | createNewTask hp htop =>
    rcases Context.createNewTask_cases hi htop.1 with ⟨-, he⟩ | ⟨-, -, -, he⟩ |
      ⟨task, -, -, -, he⟩ <;> rw [he]
    · exact hn
    · exact hset s _ hn
    · exact hn
  | heapEmpty => exact hn
  | display =>
    unfold Context.displayCurrentTask
    split <;> exact hn

/-- **The counters never wrap and never divide by zero.** In every state of
the process no counter has been decremented at zero, the counter of alive
tasks counts the WAITING nodes, an UNSAT node stays UNSAT in every step and
everything below it is UNSAT, and there is an open node whenever a split
variable is chosen. -/
theorem counters_safe {s : Stats K} (hr : (stats K maxAlive).Reachable s) :
    s.wrapped = false ∧ s.ctx.aliveTaskNum = s.ctx.waitingNodes.card ∧
      (∀ n, (s.ctx.node n).state = .unsat → ∀ l s', StatsStep K maxAlive s l s' →
        (s'.ctx.node n).state = .unsat) ∧
      (∀ n, (s.ctx.node n).state = .unsat → ∀ m, Below s.ctx.childrenOf n m →
        (s.ctx.node m).state = .unsat) ∧
      (∀ t, s.ctx.phase = .announce → s.ctx.ptask = some t → 0 < s.unsolvedTaskNum) := by
  obtain ⟨hi, hw, -⟩ := stats_audited.reachable hr
  rcases hi with rfl | ⟨hi, hl⟩
  · have hno : ∀ n, ((Stats.empty (K := K)).ctx.node n).state ≠ .unsat := fun n => NodeState.noConfusion
    exact ⟨rfl, rfl, fun n hn => absurd hn (hno n), fun n hn => absurd hn (hno n), nofun⟩
  refine ⟨hw, hi.counted.alive, fun n hn l s' hs => unsat_step hi hs.step hn, ?_, ?_⟩
  · intro n hn m hm
    induction hm with
    | refl => exact hn
    | tail _ hc ih => exact hi.reasons.down _ ih _ hc
  · intro t hp ht
    -- the node of the task is not UNSAT
    have htally := stats_tally hr fun v hv => by
      rw [hp] at hv
      cases hv
    have hpend := hi.task t ht
    have hopen : (s.ctx.node t.nodeId).state ≠ .unsat := by
      rw [hpend.state]
      decide
    rw [htally.unsolved]
    exact Finset.card_pos.2 ⟨t.nodeId, mem_openNodes.2 ⟨hpend.lt, .inl hopen⟩⟩

/-- The left child of `deadEnd` is about to be announced. -/
theorem counters_safe_deadEnd :
    ∃ s, (stats deadKernel 8).Reachable s ∧ s.ctx = deadConverted ∧
      s.wrapped = false ∧ s.ctx.aliveTaskNum = s.ctx.waitingNodes.card ∧
      0 < s.unsolvedTaskNum := by
  obtain ⟨s, hr, hs⟩ :=
    stats_lift (deadConverted_reachable (G := fun _ _ => True) fun _ => trivial).of_restrict
  have h := counters_safe hr
  refine ⟨s, hr, hs, h.1, h.2.1, h.2.2.2.2 ⟨1, 1, deadTask⟩ ?_ ?_⟩
  · rw [hs]
    decide
  · rw [hs]
    rfl

end AriParti.L2
