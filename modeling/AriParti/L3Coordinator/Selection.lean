import Mathlib.Data.Set.Lattice
import Mathlib.Order.CompletePartialOrder
import AriParti.L3Coordinator.Round

/-!
# Choosing a node to hand over

`select_split_node` goes down from the root, past refuted siblings, to the
first node whose two children are both open, and takes the second one when both
have run long enough. Two of its steps are asserted: a node has two children if
it has more than one, and they are not both unsat. `need_terminate` asserts that
not both children of a node that is being solved are solved.

The assertions hold because the unsat nodes are closed under the rule for
splits in every state of a round, also after the early return of
`node_solved_unsat` at an unsat root. How the partitioner names its nodes does
not matter, nor in which order it writes of them.

## Layout

* `childProgress`: what `need_terminate` asserts.
* `Settled`: what holds of the tree of a round.

## Results

* `selectSplitNode_settled`: the walk ends, and no assertion fails.
* `setNodeSplit_status`: what handing over a node refutes.
* `select_split_safe`: both, in every state of a round.
-/
namespace AriParti.L3
open AriParti.Core AriParti.L2

namespace ParallelTree

variable (t : ParallelTree)

/-- What a child adds in `need_terminate`. -/
def progress (w : Nat) : Nat :=
  let st := (t.node w).status
  if st.isUnsolved then 0 else if st.isSolved then 2 else 1

/-- `child_progress` of `need_terminate` (src/src/coordinator.py:288-309). -/
def childProgress (v : Nat) : Nat :=
  match (t.node v).children with
  | [] => 0
  | [lc] => t.progress lc
  | lc :: rc :: _ => t.progress lc + t.progress rc

/-! ## The tree of a round -/

/-- The links are those of trees; a node with two children or more, all unsat,
is unsat, and what is below an unsat node as well until the root is unsat. -/
structure Settled (t : ParallelTree) : Prop where
  grown : tree.Grown t
  nodup : ∀ v, (t.node v).children.Nodup
  known : ∀ pid v, t.pid2node pid = some v → v < t.size
  up : tree.UpClosed 2 (fun _ => False) t
  down : t.rootUnsat = false → tree.DownClosed (fun _ => False) t
  result : t.rootUnsat = true → t.isDone = true
  root : t.size = 0 → t.rootUnsat = false

variable {t} {t' : ParallelTree} {v w : Nat}

theorem settled_empty : Settled empty := by
  have hgrown : tree.Grown empty := by
    constructor
    · intro c p hp
      cases hp
    · intro p c
      show c ∈ ([] : List Nat) ↔ c < 0 ∧ (none : Option Nat) = some p
      simp
  have hdown : empty.rootUnsat = false → tree.DownClosed (fun _ => False) empty := by
    intro _ y _ hy
    cases hy
  exact ⟨hgrown, fun _ => .nil, nofun, fun y _ hne => absurd rfl hne, hdown, nofun, fun _ => rfl⟩

theorem Settled.closed (h : Settled t) (hd : t.isDone = false) : tree.Closed 2 t := by
  refine ⟨h.down ?_, h.up⟩
  rw [← Bool.not_eq_true]
  intro hr
  rw [h.result hr] at hd
  cases hd

theorem Settled.rootOpen (h : Settled t) (hd : t.isDone = false) : t.rootUnsat = false := by
  rw [← Bool.not_eq_true]
  intro hr
  rw [h.result hr] at hd
  cases hd

/-- The same links and the same unsat nodes; a result is kept. -/
theorem Settled.congr (h : Settled t) (hs : SameShape t t')
    (hu : ∀ v, (t'.node v).status = .unsat ↔ (t.node v).status = .unsat)
    (hr : t.isDone = true → t'.isDone = true) : Settled t' := by
  have hmarked : tree.marked t' = tree.marked t := by
    funext v
    rw [Bool.eq_iff_iff, marked_iff, marked_iff]
    exact hu v
  have hchildren : tree.children t' = tree.children t := funext hs.children
  have hroot : t'.rootUnsat = t.rootUnsat := by
    rw [Bool.eq_iff_iff, rootUnsat_iff, rootUnsat_iff]
    exact hu 0
  refine ⟨hs.grown h.grown, fun v => ?_, fun pid v hv => ?_, ?_, fun hf => ?_, fun hf => ?_,
    fun hf => ?_⟩
  · rw [hs.children]
    exact h.nodup v
  · rw [hs.pid2node] at hv
    rw [hs.size]
    exact h.known pid v hv
  · have hup := h.up
    unfold MarkedTree.UpClosed MarkedTree.covered at hup ⊢
    rw [hmarked, hchildren]
    exact hup
  · rw [hroot] at hf
    have hdown := h.down hf
    unfold MarkedTree.DownClosed at hdown ⊢
    rw [hmarked, hchildren]
    exact hdown
  · rw [hroot] at hf
    exact hr (h.result hf)
  · rw [hs.size] at hf
    rw [hroot]
    exact h.root hf

theorem Settled.quiet (h : Settled t) (hq : Quiet t t') : Settled t' :=
  h.congr hq.toSameShape hq.unsat fun hd => (isDone_congr hq.result).trans hd

/-- Refuting the one node that is open settles the tree again. -/
theorem settles (hg : tree.Grown t) (hnd : ∀ v, (t.node v).children.Nodup)
    (hk : ∀ pid v, t.pid2node pid = some v → v < t.size) (hv : v < t.size)
    (hup : tree.UpClosed 2 (fun y => (t.node v).parent = some y) (t.updateNodeStatus v .unsat))
    (hdown : t.rootUnsat = false → tree.DownClosed (· = v) (t.updateNodeStatus v .unsat)) :
    Settled (t.nodeSolvedUnsat v) := by
  have hs : SameShape t (t.nodeSolvedUnsat v) := nodeSolvedUnsat_shape
  have hss : SameShape t (t.updateNodeStatus v .unsat) := updateNodeStatus_shape v .unsat
  have hgs : tree.Grown (t.updateNodeStatus v .unsat) := hss.grown hg
  have hmv : tree.marked (t.updateNodeStatus v .unsat) v = true := by
    rw [updateNodeStatus_marked, beq_self_eq_true, Bool.true_or]
  have hvs : v < tree.size (t.updateNodeStatus v .unsat) := hv
  have hup : tree.UpClosed 2 (fun y => tree.parent (t.updateNodeStatus v .unsat) v = some y)
      (t.updateNodeStatus v .unsat) := by
    rw [show tree.parent (t.updateNodeStatus v .unsat) v = _ from hss.parent v]
    exact hup
  have hclosed : tree.UpClosed 2 (fun _ => False) (t.nodeSolvedUnsat v) ∧
      ((t.nodeSolvedUnsat v).rootUnsat = false →
        tree.DownClosed (fun _ => False) (t.nodeSolvedUnsat v)) ∧
      ((t.nodeSolvedUnsat v).rootUnsat = true → (t.nodeSolvedUnsat v).isDone = true) := by
    rcases nodeSolvedUnsat_cases hg v with ⟨hr, he⟩ | ⟨ht, hr, he, -⟩
    · rw [he]
      refine ⟨MarkedTree.pushUpFrom_closed hgs hup, fun hf => ?_, fun _ => rfl⟩
      rw [show ParallelTree.rootUnsat { tree.pushUpFrom 2 (t.updateNodeStatus v .unsat) v with
        result := .unsat } = true from hr] at hf
      cases hf
    · obtain ⟨hcl, -⟩ := tree.spread_spec hgs hvs hmv (hdown ht) hup
      rw [← he] at hcl
      refine ⟨hcl.2, fun _ => hcl.1, fun hf => ?_⟩
      rw [hr] at hf
      cases hf
  refine ⟨hs.grown hg, fun v => ?_, fun pid v hv => ?_, hclosed.1, hclosed.2.1, hclosed.2.2,
    fun hf => ?_⟩
  · rw [hs.children]
    exact hnd v
  · rw [hs.pid2node] at hv
    rw [hs.size]
    exact hk pid v hv
  · rw [hs.size] at hf
    omega

theorem Settled.solvedUnsat (h : Settled t) (hv : v < t.size) : Settled (t.nodeSolvedUnsat v) := by
  have hs : SameShape t (t.updateNodeStatus v .unsat) := updateNodeStatus_shape v .unsat
  refine settles h.grown h.nodup h.known hv ?_ fun hr => ?_
  · have hup := h.up.insert h.grown (funext hs.parent) (funext hs.children) updateNodeStatus_marked
    rw [show tree.parent (t.updateNodeStatus v .unsat) v = (t.node v).parent from hs.parent v] at hup
    exact hup
  · exact (h.down hr).insert (funext hs.children) updateNodeStatus_marked

section AddNode

variable {pid : Nat} {parent : Option Nat}

theorem Settled.known_addNode (h : Settled t) (pid' w : Nat)
    (hw : (t.addNode pid parent).pid2node pid' = some w) : w < (t.addNode pid parent).size := by
  rw [addNode_pid2node, Function.update_apply] at hw
  rw [addNode_size]
  split at hw
  · rw [← Option.some.inj hw]
    exact Nat.lt_succ_self _
  · exact Nat.lt_succ_of_lt (h.known pid' w hw)

/-- The root of a new tree is not unsat, and an old one is as it was. -/
theorem Settled.addNode_root (h : Settled t) :
    (t.addNode pid parent).rootUnsat = t.rootUnsat := by
  by_cases hs : t.size = 0
  · rw [addNode_fresh hs, h.root hs]
  · exact ParallelTree.addNode_root hs

/-- A new node that nothing refutes. -/
theorem Settled.addNode (h : Settled t) (hr : ∀ p, parent = some p → p < t.size)
    (hpar : ∀ p, parent = some p → (t.node p).status ≠ .unsat) :
    Settled (t.addNode pid parent) := by
  refine ⟨grown_addNode h.grown hr, nodup_addNode h.grown h.nodup, h.known_addNode,
    addNode_upClosed hr h.up, fun hf => ?_, fun hf => ?_, fun hf => ?_⟩
  · rw [h.addNode_root] at hf
    exact addNode_downClosed h.grown hr (h.down hf) hpar
  · rw [h.addNode_root] at hf
    unfold isDone
    rw [addNode_result]
    exact h.result hf
  · rw [addNode_size] at hf
    omega

/-- A new node that is refuted at once. -/
theorem Settled.addRefuted (h : Settled t) (hr : ∀ p, parent = some p → p < t.size) :
    Settled ((t.addNode pid parent).nodeSolvedUnsat t.size) := by
  have hv : t.size < (t.addNode pid parent).size := by
    rw [addNode_size]
    exact Nat.lt_succ_self _
  refine settles (grown_addNode h.grown hr) (nodup_addNode h.grown h.nodup) h.known_addNode hv ?_
    fun hf => ?_
  · rw [addNode_parent, if_pos rfl]
    exact addRefuted_upClosed h.grown h.up
  · rw [h.addNode_root] at hf
    exact addRefuted_downClosed hr (h.down hf)

theorem Settled.makeNode (h : Settled t) {pid : Nat} {ppid : Option Nat}
    (hc : t.makeNode pid ppid = some t') :
    ∃ parent, (∀ p, parent = some p → p < t.size) ∧ t' = t.addNode pid parent := by
  cases ppid with
  | none => exact ⟨none, fun p hp => (by cases hp), (Option.some.inj hc).symm⟩
  | some q =>
    obtain ⟨p, hp, rfl⟩ := Option.map_eq_some_iff.1 hc
    refine ⟨some p, fun q' hq => ?_, rfl⟩
    rw [← Option.some.inj hq]
    exact h.known q p hp

/-- Any line about a new node whose parent is known. -/
theorem Settled.newNode (h : Settled t) {line : P2C} (hc : t.newNode line = some t') :
    Settled t' := by
  cases line with
  | newUnsatNode pid ppid =>
    obtain ⟨t₁, hmk, rfl⟩ := Option.map_eq_some_iff.1 hc
    obtain ⟨parent, hr, rfl⟩ := h.makeNode hmk
    exact h.addRefuted hr
  | newUnknownNode pid ppid =>
    obtain ⟨t₁, hmk, rfl⟩ := Option.map_eq_some_iff.1 hc
    obtain ⟨parent, hr, rfl⟩ := h.makeNode hmk
    split
    · exact h.addRefuted hr
    · rename_i hopen
      refine Settled.quiet (h.addNode hr fun p hp hu => hopen ?_) (appendWaiting_quiet _)
      have hne : p ≠ t.size := Nat.ne_of_lt (hr p hp)
      unfold parentUnsat
      rw [addNode_parent, if_pos rfl, hp]
      show ((t.addNode pid (some p)).node p).status.isUnsat = true
      rw [addNode_status, if_neg hne, hu]
      rfl

end AddNode

/-- Handing over a node of the tree. -/
theorem Settled.setNodeSplit (h : Settled t) (hv : v < t.size) : Settled (t.setNodeSplit v) := by
  have hq := terminatePath_quiet (v + 1) t v
  refine (h.quiet hq).solvedUnsat ?_
  rw [hq.toSameShape.size]
  exact hv

theorem Settled.solverUnsat (h : Settled t) (hv : v < t.size) : Settled (t.solverUnsat v) :=
  (h.quiet (unassign_quiet v)).solvedUnsat hv

/-- A model is found by a solver that runs: no unsat node becomes sat. -/
theorem Settled.solverSat (h : Settled t) (hv : (t.node v).status = .solving) :
    Settled ((t.modify v fun nd => { nd with assignTo := false }).nodeSolvedSat v) := by
  refine (h.quiet (unassign_quiet v)).congr ?_ (fun w => ?_) fun _ => rfl
  · have hs := updateNodeStatus_shape (t := t.modify v fun nd => { nd with assignTo := false }) v .sat
    exact ⟨hs.size, hs.pid2node, hs.pid, hs.parent, hs.children⟩
  · show (((t.modify v fun nd => { nd with assignTo := false }).updateNodeStatus v .sat).node
      w).status = _ ↔ _
    unfold updateNodeStatus
    rw [modify_node]
    split
    · rename_i hw
      rw [hw, modify_node, if_pos rfl, hv]
      exact iff_of_false NodeStatus.noConfusion NodeStatus.noConfusion
    · rfl

/-! ## No model -/

/-- No solver has found a model. -/
def NoModel (t : ParallelTree) : Prop := ∀ v, (t.node v).status ≠ .sat

theorem NoModel.refuting (h : NoModel t) (hr : Refuting t t') : NoModel t' := by
  intro v
  rcases hr.node v with hu | he
  · rw [hu]
    decide
  · rw [he]
    exact h v

theorem NoModel.terminate (h : NoModel t) (v : Nat) : NoModel (t.terminate v) := by
  intro w
  rw [terminate_status]
  split
  · decide
  · exact h w

theorem NoModel.terminatePath (fuel : Nat) : ∀ (t : ParallelTree) (v : Nat), NoModel t →
    NoModel (terminatePath fuel t v) := by
  induction fuel with
  | zero => exact fun _ _ h => h
  | succ fuel ih =>
    intro t v h
    unfold ParallelTree.terminatePath
    simp only
    split
    · exact h.terminate v
    · exact ih _ _ (h.terminate v)

theorem NoModel.setNodeSplit (h : NoModel t) (v : Nat) : NoModel (t.setNodeSplit v) :=
  (NoModel.terminatePath (v + 1) t v h).refuting (nodeSolvedUnsat_refuting _ v)

theorem NoModel.addNode (h : NoModel t) (pid : Nat) (parent : Option Nat) :
    NoModel (t.addNode pid parent) := by
  intro w
  rw [addNode_status]
  split
  · decide
  · exact h w

theorem NoModel.newNode (h : NoModel t) {line : P2C} (hc : t.newNode line = some t') :
    NoModel t' := by
  have made : ∀ pid ppid t₁, t.makeNode pid ppid = some t₁ → NoModel t₁ := by
    intro pid ppid t₁ hmk
    cases ppid with
    | none => exact Option.some.inj hmk ▸ h.addNode pid none
    | some q =>
      obtain ⟨p, -, rfl⟩ := Option.map_eq_some_iff.1 hmk
      exact h.addNode pid (some p)
  cases line with
  | newUnsatNode pid ppid =>
    obtain ⟨t₁, hmk, rfl⟩ := Option.map_eq_some_iff.1 hc
    exact (made pid ppid t₁ hmk).refuting (nodeSolvedUnsat_refuting t₁ t.size)
  | newUnknownNode pid ppid =>
    obtain ⟨t₁, hmk, rfl⟩ := Option.map_eq_some_iff.1 hc
    split
    · exact (made pid ppid t₁ hmk).refuting (nodeSolvedUnsat_refuting t₁ t.size)
    · exact made pid ppid t₁ hmk

theorem NoModel.runWaitingTask (h : NoModel t) : NoModel t.runWaitingTask := by
  intro w
  rcases runWaitingTask_node (t := t) w with he | ⟨-, he⟩
  · rw [he]
    exact h w
  · rw [he]
    exact NodeStatus.noConfusion

/-! ## The walk -/

variable {ready : Nat → Bool}

/-- Two unsat children would have refuted the node. -/
theorem Settled.twoOpen (h : Settled t) {lc rc : Nat} (hcs : (t.node v).children = [lc, rc])
    (hv : (t.node v).status ≠ .unsat) :
    ((t.node lc).status.isUnsat && (t.node rc).status.isUnsat) = false := by
  rw [Bool.eq_false_iff]
  intro hboth
  rw [Bool.and_eq_true] at hboth
  have hkids : tree.children t v = [lc, rc] := hcs
  apply hv
  rw [← marked_iff]
  refine h.up v (fun hf => hf) (by rw [hkids]; simp) (MarkedTree.covered_iff.2 ⟨?_, fun c hc => ?_⟩)
  · rw [hkids]
    simp
  · rw [hkids] at hc
    simp only [List.mem_cons, List.not_mem_nil, or_false] at hc
    rcases hc with rfl | rfl
    · exact hboth.1
    · exact hboth.2

theorem selectSplitLoop_mono {s : Selection} (fuel : Nat) : ∀ fuel' current, fuel ≤ fuel' →
    t.selectSplitLoop ready fuel current = some s →
      t.selectSplitLoop ready fuel' current = some s := by
  induction fuel with
  | zero =>
    intro fuel' current _ hs
    cases hs
  | succ fuel ih =>
    intro fuel' current hle hs
    obtain ⟨fuel', rfl⟩ : ∃ n, fuel' = n + 1 := ⟨fuel' - 1, by omega⟩
    unfold selectSplitLoop at hs ⊢
    split at hs
    · exact hs
    · exact hs
    · rename_i lc rc hcs
      by_cases hboth : ((t.node lc).status.isUnsat && (t.node rc).status.isUnsat) = true
      · rwa [if_pos hboth] at hs ⊢
      rw [if_neg hboth] at hs ⊢
      by_cases hl : (t.node lc).status.isUnsat = true
      · rw [if_pos hl] at hs ⊢
        exact ih fuel' rc (by omega) hs
      rw [if_neg hl] at hs ⊢
      by_cases hr : (t.node rc).status.isUnsat = true
      · rw [if_pos hr] at hs ⊢
        exact ih fuel' lc (by omega) hs
      rwa [if_neg hr] at hs ⊢
    · exact hs

/-- With two children at most and one of them open below every open node, the
walk from an open node ends before the numbers of the nodes do, and no assertion
fails. -/
theorem selectSplitLoop_settled (h : Settled t) (h2 : ∀ v, (t.node v).children.length ≤ 2)
    (fuel : Nat) : ∀ current, (t.node current).status ≠ .unsat → current < t.size →
      t.size - current ≤ fuel → t.selectSplitLoop ready fuel current = some .none ∨
        ∃ v, t.selectSplitLoop ready fuel current = some (.node v) := by
  induction fuel with
  | zero =>
    intro current _ hlt hfuel
    omega
  | succ fuel ih =>
    intro current hopen hlt hfuel
    have hchild : ∀ c ∈ (t.node current).children, current < c ∧ c < t.size := fun c hc =>
      ⟨h.grown.parentLt c current ((h.grown.child current c).1 hc).2,
        ((h.grown.child current c).1 hc).1⟩
    have htwo := h2 current
    unfold selectSplitLoop
    cases hcs : (t.node current).children with
    | nil => exact .inl rfl
    | cons lc cs =>
      cases cs with
      | nil => exact .inl rfl
      | cons rc cs =>
        cases cs with
        | cons c cs =>
          rw [hcs] at htwo
          simp at htwo
        | nil =>
          rw [hcs] at hchild
          have hlc := hchild lc (by simp)
          have hrc := hchild rc (by simp)
          have hone := h.twoOpen hcs hopen
          simp only [hone, Bool.false_eq_true, if_false]
          by_cases hl : (t.node lc).status.isUnsat = true
          · rw [if_pos hl]
            refine ih rc (fun hu => ?_) hrc.2 (by omega)
            rw [hl, hu] at hone
            cases hone
          · rw [if_neg hl]
            by_cases hr : (t.node rc).status.isUnsat = true
            · rw [if_pos hr]
              exact ih lc (fun hu => hl (NodeStatus.isUnsat_iff.2 hu)) hlc.2 (by omega)
            · rw [if_neg hr]
              split
              · exact .inr ⟨rc, rfl⟩
              · exact .inl rfl

/-- No assertion of `select_split_node` fails, and it ends. -/
theorem selectSplitNode_settled (h : Settled t) (h2 : ∀ v, (t.node v).children.length ≤ 2)
    (ready : Nat → Bool) : ∃ s, (∀ fuel, t.size ≤ fuel → t.selectSplitNode ready fuel = some s) ∧
      (s = .none ∨ ∃ v, s = .node v) := by
  by_cases hs : t.size = 0
  · exact ⟨.none, fun fuel _ => if_pos hs, .inl rfl⟩
  cases hd : t.isDone with
  | true => exact ⟨.none, fun fuel _ => (if_neg hs).trans (if_pos hd), .inl rfl⟩
  | false =>
    have hloop : ∀ fuel, t.selectSplitNode ready fuel = t.selectSplitLoop ready fuel 0 := fun fuel =>
      (if_neg hs).trans (if_neg (by rw [hd]; exact Bool.false_ne_true))
    have hopen : (t.node 0).status ≠ .unsat := by
      rw [Ne, ← rootUnsat_iff, h.rootOpen hd]
      exact Bool.false_ne_true
    have hends : t.selectSplitLoop ready t.size 0 = some .none ∨
        ∃ v, t.selectSplitLoop ready t.size 0 = some (.node v) :=
      selectSplitLoop_settled h h2 t.size 0 hopen (Nat.pos_of_ne_zero hs) (Nat.le_refl _)
    rcases hends with he | ⟨v, he⟩
    · exact ⟨.none, fun fuel hle => (hloop fuel).trans (selectSplitLoop_mono _ _ _ hle he), .inl rfl⟩
    · exact ⟨.node v, fun fuel hle => (hloop fuel).trans (selectSplitLoop_mono _ _ _ hle he),
        .inr ⟨v, rfl⟩⟩

/-- The assertion of `need_terminate`. -/
theorem Settled.childProgress_lt (h : Settled t) (hm : NoModel t)
    (h2 : (t.node v).children.length ≤ 2) (hv : (t.node v).status ≠ .unsat) :
    t.childProgress v < 4 := by
  have hle : ∀ w, t.progress w ≤ 2 := by
    intro w
    unfold progress
    simp only
    split
    · decide
    · split <;> decide
  have htwo : ∀ w, t.progress w = 2 → (t.node w).status.isUnsat = true := by
    intro w hw
    unfold progress at hw
    simp only at hw
    split at hw
    · cases hw
    · split at hw
      · rename_i hs
        rw [NodeStatus.isUnsat_iff]
        exact (NodeStatus.isSolved_iff.1 hs).resolve_left (hm w)
      · cases hw
  unfold childProgress
  cases hcs : (t.node v).children with
  | nil => exact Nat.zero_lt_succ 3
  | cons lc cs =>
    have hlc := hle lc
    cases cs with
    | nil => exact Nat.lt_of_le_of_lt hlc (by decide)
    | cons rc cs =>
      have hrc := hle rc
      cases cs with
      | cons c cs =>
        rw [hcs] at h2
        simp at h2
      | nil =>
        show t.progress lc + t.progress rc < 4
        by_contra hge
        have hone := h.twoOpen hcs hv
        rw [htwo lc (by omega), htwo rc (by omega)] at hone
        cases hone

/-! ## Handing over -/

/-- Handing over a node refutes the nodes below it and no other. -/
theorem setNodeSplit_status (h : Settled t) (hd : t.isDone = false)
    {fuel : Nat} (hsel : t.selectSplitNode ready fuel = some (.node v)) (w : Nat) :
    ((t.setNodeSplit v).node w).status = .unsat ↔ (t.node w).status = .unsat ∨ t.below v w := by
  obtain ⟨p, lc, hv, hlc, hne, hopen⟩ := selectSplitNode_sibling h.nodup hsel
  have hroot := h.rootOpen hd
  have hdone : (t.setNodeSplit v).isDone = false :=
    (isDone_congr (setNodeSplit_result h.grown h.nodup hroot hsel)).trans hd
  have hcl := (h.setNodeSplit ((h.grown.child p v).1 hv).1).closed hdone
  constructor
  · rw [setNodeSplit_down h.grown hroot hv hlc hne hopen, ← marked_iff]
    intro hw
    rcases tree.pushDownFrom_sound hw with hw | ⟨c, hc, hb⟩
    · rcases (splitPath_marked w).1 hw with rfl | hw
      · exact .inr .refl
      · exact .inl hw
    · have hs := splitPath_shape (t := t) (v := v)
      have hchildren : tree.children ((terminatePath (v + 1) t v).updateNodeStatus v .unsat) =
          fun v => (t.node v).children := funext hs.children
      rw [hchildren] at hc hb
      exact .inr (.head hc hb)
  · have hs := (terminatePath_quiet (v + 1) t v).toSameShape.trans
      (nodeSolvedUnsat_shape (t := terminatePath (v + 1) t v) (v := v))
    rintro (hw | hb)
    · refine nodeSolvedUnsat_unsat (.inr ?_)
      exact ((terminatePath_quiet (v + 1) t v).unsat w).2 hw
    · rw [← hs.below] at hb
      exact unsat_below hcl hb nodeSolvedUnsat_self

/-- The leaves that are not unsat. -/
def openLeaves (t : ParallelTree) : Set Nat :=
  {w | w < t.size ∧ (t.node w).children = [] ∧ (t.node w).status ≠ .unsat}

/-- The open leaves of a tree, without those below the node that is handed
over, are the open leaves that remain. -/
theorem setNodeSplit_openLeaves (h : Settled t) (hd : t.isDone = false)
    {fuel : Nat} (hsel : t.selectSplitNode ready fuel = some (.node v)) :
    (t.setNodeSplit v).openLeaves ∪ {w ∈ t.openLeaves | t.below v w} = t.openLeaves ∧
      Disjoint (t.setNodeSplit v).openLeaves {w ∈ t.openLeaves | t.below v w} := by
  have hs : SameShape t (t.setNodeSplit v) :=
    (terminatePath_quiet (v + 1) t v).toSameShape.trans nodeSolvedUnsat_shape
  have hmem : ∀ w, w ∈ (t.setNodeSplit v).openLeaves ↔ w ∈ t.openLeaves ∧ ¬ t.below v w := by
    intro w
    show w < (t.setNodeSplit v).size ∧ ((t.setNodeSplit v).node w).children = [] ∧ _ ↔
      (w < t.size ∧ (t.node w).children = [] ∧ _) ∧ _
    rw [hs.size, hs.children, Ne, setNodeSplit_status h hd hsel, not_or]
    simp only [and_assoc]
  constructor
  · ext w
    rw [Set.mem_union, hmem, Set.mem_ofPred_eq]
    constructor
    · rintro (hw | hw)
      · exact hw.1
      · exact hw.1
    · intro hw
      by_cases hb : t.below v w
      · exact .inr ⟨hw, hb⟩
      · exact .inl ⟨hw, hb⟩
  · rw [Set.disjoint_left]
    intro w hw hb
    exact ((hmem w).1 hw).2 hb.2

end ParallelTree

namespace Round
open ParallelTree

variable {r r' : Round} {cores : Nat}

/-! ## The invariant -/

/-- The tree of a round is settled, and a model ends the round. -/
structure Tidy (r : Round) : Prop where
  settled : Settled r.coord.tree
  model : NoModel r.coord.tree ∨ r.coord.tree.isDone = true ∧ r.point = .returned

theorem Tidy.noModel (h : r.Tidy) (hp : r.point ≠ .returned) : NoModel r.coord.tree :=
  h.model.resolve_right fun hr => hp hr.2

/-- A step that leaves the tree alone. -/
theorem Tidy.same (h : r.Tidy) (ht : r'.coord.tree = r.coord.tree)
    (hp : r'.point = r.point ∨ r.point ≠ .returned) : r'.Tidy := by
  refine ⟨?_, ?_⟩
  · rw [ht]
    exact h.settled
  · rw [ht]
    rcases hp with hp | hp
    · rw [hp]
      exact h.model
    · exact .inl (h.noModel hp)

theorem Tidy.checkNode (h : r.Tidy) {v : Nat} {todo still : List Nat}
    (hm : NoModel r.coord.tree) (hs : (r.coord.tree.node v).status = .solving)
    (hv : v < r.coord.tree.size) (o : SolverOutcome) : (r.checkNode v todo still o).Tidy := by
  have hterm : Settled (r.coord.terminateNode v).tree ∧ NoModel (r.coord.terminateNode v).tree := by
    rw [Coordinator.terminateNode_tree]
    exact ⟨h.settled.quiet (terminate_quiet v), hm.terminate v⟩
  have hunsat : Settled (r.coord.tree.solverUnsat v) ∧ NoModel (r.coord.tree.solverUnsat v) :=
    ⟨h.settled.solverUnsat hv, hm.refuting (solverUnsat_refuting v)⟩
  -- but for a model, where the round returns at once
  have hquiet : o ≠ .sat → Settled (r.coord.checkSolvingStatus v o).tree ∧
      NoModel (r.coord.checkSolvingStatus v o).tree := by
    intro ho
    unfold Coordinator.checkSolvingStatus
    rw [if_pos (NodeStatus.isSolving_iff.2 hs)]
    cases o with
    | sat => exact absurd rfl ho
    | error => exact hterm
    | running timeUp =>
      simp only
      split
      · exact hterm
      · exact ⟨h.settled, hm⟩
    | unsat =>
      simp only
      split
      · exact hunsat
      · rw [Coordinator.sendPartitionerMessage_tree]
        exact hunsat
  by_cases ho : o = .sat
  · subst ho
    have htree : (r.coord.checkSolvingStatus v .sat).tree =
        (r.coord.tree.modify v fun nd => { nd with assignTo := false }).nodeSolvedSat v := by
      unfold Coordinator.checkSolvingStatus
      rw [if_pos (NodeStatus.isSolving_iff.2 hs)]
      rfl
    have hdone : (r.coord.checkSolvingStatus v .sat).tree.isDone = true := by
      rw [htree]
      rfl
    have hret : (r.coord.checkSolvingStatus v .sat).isDone = true := by
      show (_ || (r.coord.checkSolvingStatus v .sat).tree.isDone) = true
      rw [hdone, Bool.or_true]
    unfold Round.checkNode
    simp only [stillRunning, Bool.false_eq_true, if_false]
    rw [if_pos hret]
    refine ⟨?_, .inr ⟨hdone, rfl⟩⟩
    show Settled (r.coord.checkSolvingStatus v .sat).tree
    rw [htree]
    exact h.settled.solverSat hs
  · obtain ⟨hset, hno⟩ := hquiet ho
    unfold Round.checkNode
    simp only
    split
    · exact ⟨hset, .inl hno⟩
    · split
      · exact ⟨hset, .inl hno⟩
      · exact ⟨hset, .inl hno⟩

theorem tidy_inductive (cores : Nat) :
    (coordinatorRound cores).Inductive fun r => r.Inv cores ∧ r.Tidy := by
  refine (inv_inductive cores).under (fun r hr => ?_) fun r l r' hb h hs => ?_
  · rw [show r = idle from hr]
    exact ⟨settled_empty, .inl fun v => NodeStatus.noConfusion⟩
  · have hno : ∀ {q : Point}, r.point = q → q ≠ .returned → NoModel r.coord.tree := fun hp hq =>
      h.noModel (hp ▸ hq)
    cases hs with
    | startSolving _ => exact ⟨settled_empty, .inl fun v => NodeStatus.noConfusion⟩
    | noMessage hp => exact h.same rfl (.inr (by rw [hp]; decide))
    | @split _ _ v hp hsel =>
      obtain ⟨p, lc, hv, -⟩ := selectSplitNode_sibling h.settled.nodup hsel
      have hlt := ((h.settled.grown.child p v).1 hv).1
      refine ⟨?_, .inl ?_⟩
      · show Settled (r.coord.setNodeSplit v).tree
        rw [Coordinator.setNodeSplit_tree]
        exact h.settled.setNodeSplit hlt
      · show NoModel (r.coord.setNodeSplit v).tree
        rw [Coordinator.setNodeSplit_tree]
        exact (hno hp (by decide)).setNodeSplit v
    | assertion hp _ => exact h.same rfl (.inr (by rw [hp]; decide))
    | original hp => exact ⟨h.settled, .inl (hno hp (by decide))⟩
    | line hp _ hc =>
      have hm := hno hp (by decide)
      rcases Coordinator.processPartitionerMsg_tree hc with he | ⟨line, hline⟩
      · exact h.same he (.inl rfl)
      · exact ⟨h.settled.newNode hline, .inl (hm.newNode hline)⟩
    | raise hp _ _ => exact h.same rfl (.inr (by rw [hp]; decide))
    | processDone _ _ => exact h.same rfl (.inl rfl)
    | receiveDone _ _ => exact h.same rfl (.inl rfl)
    | verdict hp _ => exact h.same rfl (.inr (by rw [hp]; decide))
    | received hp _ _ => exact h.same rfl (.inr (by rw [hp]; decide))
    | skip hp _ => exact h.same rfl (.inr (by rw [hp]; exact Point.noConfusion))
    | @check v todo still o hp hs =>
      have hlt := (hb.booked.made v (hb.booked.holder v ((hb.booked.process v).2 hs))).1
      exact h.checkNode (hno hp Point.noConfusion) hs hlt o
    | checked hp =>
      refine ⟨h.settled.quiet ⟨⟨rfl, rfl, fun _ => rfl, fun _ => rfl, fun _ => rfl⟩,
        fun _ => .rfl, rfl⟩, .inl ?_⟩
      exact hno hp Point.noConfusion
    | assign hp _ _ =>
      exact ⟨h.settled.quiet runWaitingTask_quiet, .inl (hno hp (by decide)).runWaitingTask⟩
    | noneWaiting hp _ _ =>
      exact ⟨h.settled.quiet runWaitingTask_quiet, .inl (hno hp (by decide)).runWaitingTask⟩
    | full hp _ => exact h.same rfl (.inr (by rw [hp]; decide))
    | roundDone _ => exact ⟨settled_empty, .inl fun v => NodeStatus.noConfusion⟩

/-- What handing over `v` means for the tree. -/
structure HandsOver (t t' : ParallelTree) (v : Nat) : Prop where
  pair : ∃ p lc, (t.node p).children = [lc, v] ∧ (t.node lc).status ≠ .unsat ∧
    (t.node v).status ≠ .unsat
  path : ∀ a, t.below a v → (t.node a).status ≠ .unsat
  notDone : t'.isDone = false
  leaves : t'.openLeaves ∪ {w ∈ t.openLeaves | t.below v w} = t.openLeaves
  disjoint : Disjoint t'.openLeaves {w ∈ t.openLeaves | t.below v w}

theorem Tidy.handsOver (h : r.Tidy) (hd : r.coord.tree.isDone = false)
    {ready : Nat → Bool} {fuel v : Nat}
    (hsel : r.coord.tree.selectSplitNode ready fuel = some (.node v)) :
    HandsOver r.coord.tree (r.coord.setNodeSplit v).tree v := by
  obtain ⟨p, lc, hcs, hlc, hv⟩ := selectSplitNode_pair hsel
  have hcl := h.settled.closed hd
  obtain ⟨hleaves, hdisjoint⟩ := setNodeSplit_openLeaves h.settled hd hsel
  rw [Coordinator.setNodeSplit_tree]
  refine ⟨⟨p, lc, hcs, hlc, hv⟩, fun a hb hu => hv (unsat_below hcl hb hu), ?_, hleaves,
    hdisjoint⟩
  have hroot := h.settled.rootOpen hd
  exact (isDone_congr (setNodeSplit_result h.settled.grown h.settled.nodup hroot hsel)).trans hd

/-- **Handing over a node is safe.** In every state of a round whose tree is not
done and has two children at most below every node, `select_split_node` ends
without a failed assertion; the node it returns, its sibling and the nodes above
are not unsat; handing it over does not end the round, and takes away the open
leaves below it and no other. The assertion of `need_terminate` holds for every
node that is being solved. -/
theorem select_split_safe {r : Round} (hr : (coordinatorRound cores).Reachable r)
    (hd : r.coord.tree.isDone = false) (h2 : ∀ v, (r.coord.tree.node v).children.length ≤ 2) :
    (∀ ready, ∃ s, (∀ fuel, r.coord.tree.size ≤ fuel →
        r.coord.tree.selectSplitNode ready fuel = some s) ∧
      (s = .none ∨ ∃ v, s = .node v ∧
        HandsOver r.coord.tree (r.coord.setNodeSplit v).tree v)) ∧
    ∀ v, (r.coord.tree.node v).status = .solving → r.coord.tree.childProgress v < 4 := by
  have h := ((tidy_inductive cores).reachable hr).2
  have hm : NoModel r.coord.tree := h.model.resolve_right fun hf => by
    rw [hd] at hf
    cases hf.1
  refine ⟨fun ready => ?_, fun v hv => ?_⟩
  · obtain ⟨s, hends, hs⟩ := selectSplitNode_settled h.settled h2 ready
    refine ⟨s, hends, hs.imp_right ?_⟩
    rintro ⟨v, rfl⟩
    exact ⟨v, rfl, h.handsOver hd (hends _ (Nat.le_refl _))⟩
  · refine h.settled.childProgress_lt hm (h2 v) ?_
    rw [hv]
    exact NodeStatus.noConfusion

/-- The root and its two children are being solved. -/
def childrenSolving : Round :=
  ⟨{ Coordinator.startSolving with tree :=
      (((((((empty.addNode 0 none).addNode 1 (some 0)).addNode 2 (some 0)).assignNode
        0).assignNode 1).assignNode 2)) }, .run, [0, 1, 2]⟩

theorem childrenSolving_reachable : (coordinatorRound 3).Reachable childrenSolving := by
  have start : (coordinatorRound 3).Reachable ⟨Coordinator.startSolving, .receive, []⟩ :=
    .step (.init rfl) (.startSolving rfl)
  have root : (coordinatorRound 3).Reachable _ :=
    start.step (.line (l := .node (.newUnknownNode 0 none)) rfl (by decide) rfl)
  have left : (coordinatorRound 3).Reachable _ :=
    root.step (.line (l := .node (.newUnknownNode 1 (some 0))) rfl (by decide) rfl)
  have right : (coordinatorRound 3).Reachable _ :=
    left.step (.line (l := .node (.newUnknownNode 2 (some 0))) rfl (by decide) rfl)
  have checked : (coordinatorRound 3).Reachable _ :=
    (right.step (.received rfl (by decide) (by decide))).step (.checked rfl)
  have first : (coordinatorRound 3).Reachable _ := checked.step (.assign rfl (by decide) rfl)
  have second : (coordinatorRound 3).Reachable _ := first.step (.assign rfl (by decide) rfl)
  exact second.step (.assign rfl (by decide) rfl)

/-- There the second child is handed over. -/
theorem select_split_safe_children :
    childrenSolving.coord.tree.selectSplitNode (fun _ => true) 3 = some (.node 2) ∧
      HandsOver childrenSolving.coord.tree (childrenSolving.coord.setNodeSplit 2).tree 2 ∧
      childrenSolving.coord.tree.childProgress 0 < 4 := by
  have htwo : ∀ v, (childrenSolving.coord.tree.node v).children.length ≤ 2 := by
    intro v
    match v with
    | 0 | 1 | 2 => decide
    | n + 3 => exact Nat.zero_le 2
  obtain ⟨hsel, hprogress⟩ := select_split_safe childrenSolving_reachable rfl htwo
  obtain ⟨s, hs, hcase⟩ := hsel fun _ => true
  have hnode : childrenSolving.coord.tree.selectSplitNode (fun _ => true) 3 = some (.node 2) := by
    decide
  rw [hs 3 (Nat.le_refl 3)] at hnode
  rw [hs 3 (Nat.le_refl 3)]
  obtain rfl := Option.some.inj hnode
  rcases hcase with he | ⟨v, he, hv⟩
  · cases he
  · cases he
    exact ⟨rfl, hv, hprogress 0 rfl⟩

end Round

end AriParti.L3
