import Mathlib.Logic.Function.Basic
import AriParti.L3Coordinator.Status

/-!
# The leader's tree of assigned nodes

`DistributedTree` is the leader's record of which formula was given to which
coordinator. A node is created when a formula is assigned, and its children
are the formulas its coordinator gave away. `partialStatus` is what the
coordinator reported about the part it kept; a node is unsat once that part
and every child are.

The nodes are numbered in creation order (`id = len(self.nodes)`), so the tree
is a table of `size` nodes. `file` is not a field of the source: it names the
task file whose formula the node stands for, and is only read by the proofs.

## Results

* `nodePartialSolved_shape`: a result changes statuses only.
* `nodePartialSolved_ok`: on a well-formed tree with the node still open, the
  assertion in `unsat_push_up` holds at every level and the tree stays
  well-formed (`WF`).
-/
namespace AriParti.L4
open AriParti.L3

/-- A task file by its origin: the input of the whole run, or the file
`task-pid.smt2` that coordinator `rank` wrote in its round `round` while
solving the formula of `root`. -/
inductive TaskFile where
  | input
  | sub (root : TaskFile) (rank round pid : Nat)
  deriving DecidableEq, Repr

/-- mirrors src/src/partition_tree.py:62-76,380-400 -/
structure DistributedNode where
  parent : Option Nat
  children : List Nat
  status : NodeStatus
  partialStatus : NodeStatus
  assignTo : Nat
  file : TaskFile
  deriving DecidableEq, Repr

/-- What can go wrong in the leader; each is a Python exception. -/
inductive LeaderError where
  /-- `assert(self.status.is_idle())` of `CoordinatorInfo.assign_node` -/
  | assignNotIdle
  /-- `assert(self.status.is_splitting())` of `CoordinatorInfo.split_node` -/
  | splitNotSplitting
  /-- `assert(parent != None)` of `update_split_assign_info` -/
  | parentNone
  /-- `assert(not node.status.is_unsat())` of `DistributedTree.unsat_push_up` -/
  | pushUpUnsat
  /-- `assert(False)` at the end of `DistributedTree.node_partial_solved` -/
  | notSolved
  /-- `process_notified_result` reads `node.id` of an unassigned coordinator -/
  | notifyUnassigned
  /-- `assert(False)` for an unexpected message type -/
  | unexpectedMessage
  deriving DecidableEq, Repr

/-- mirrors src/src/partition_tree.py:96-102,402-404 -/
structure DistributedTree where
  size : Nat
  node : Nat → DistributedNode
  root : Option Nat
  result : NodeStatus

namespace DistributedTree

/-- The entry of a number no node has yet. -/
def noNode : DistributedNode := ⟨none, [], .unsolved, .unsolved, 0, .input⟩

def empty : DistributedTree := ⟨0, fun _ => noNode, none, .unsolved⟩

def modify (t : DistributedTree) (v : Nat) (f : DistributedNode → DistributedNode) :
    DistributedTree :=
  { t with node := Function.update t.node v (f (t.node v)) }

def isDone (t : DistributedTree) : Bool := t.result.isSolved

/-- mirrors src/src/partition_tree.py:406-410 with the constructor's
`parent.children.append(self)` (:69-76) and the `assign_to` its callers set -/
def makeNode (t : DistributedTree) (parent : Option Nat) (assignTo : Nat) (file : TaskFile) :
    DistributedTree :=
  let t := match parent with
    | none => t
    | some p => t.modify p fun nd => { nd with children := nd.children ++ [t.size] }
  { t with
    size := t.size + 1
    node := Function.update t.node t.size ⟨parent, [], .unsolved, .unsolved, assignTo, file⟩ }

/-- mirrors src/src/partition_tree.py:449-451 -/
def assignRootNode (t : DistributedTree) (coordIsolated : Nat) (file : TaskFile) :
    DistributedTree :=
  { t.makeNode none coordIsolated file with root := some t.size }

/-- mirrors src/src/partition_tree.py:393-400 -/
def canReasonUnsat (t : DistributedTree) (v : Nat) : Bool :=
  (t.node v).partialStatus.isUnsat && (t.node v).children.all fun c => (t.node c).status.isUnsat

/-- mirrors src/src/partition_tree.py:412-419. Parents have smaller numbers
than their children, so `v + 1` steps are enough from `v` (`pushUp_ok`). -/
def unsatPushUp : Nat → DistributedTree → Nat → Except LeaderError DistributedTree
  | 0, _, _ => .error .pushUpUnsat
  | fuel + 1, t, v =>
    if (t.node v).status.isUnsat then .error .pushUpUnsat
    else if t.canReasonUnsat v then
      let t' := t.modify v fun nd => { nd with status := .unsat }
      match (t.node v).parent with
      | none => .ok t'
      | some p => unsatPushUp fuel t' p
    else .ok t

/-- `self.root.status.is_unsat()` -/
def rootUnsat (t : DistributedTree) : Bool :=
  match t.root with
  | none => false
  | some r => (t.node r).status.isUnsat

/-- mirrors src/src/partition_tree.py:421-427 -/
def nodePartialSolvedUnsat (t : DistributedTree) (v : Nat) : Except LeaderError DistributedTree :=
  match unsatPushUp (v + 1) (t.modify v fun nd => { nd with partialStatus := .unsat }) v with
  | .error e => .error e
  | .ok t' => .ok (if t'.rootUnsat then { t' with result := .unsat } else t')

/-- mirrors src/src/partition_tree.py:429-432 -/
def nodePartialSolvedSat (t : DistributedTree) (v : Nat) : DistributedTree :=
  { t.modify v fun nd => { nd with partialStatus := .sat } with result := .sat }

/-- mirrors src/src/partition_tree.py:434-442 -/
def nodePartialSolved (t : DistributedTree) (v : Nat) (status : NodeStatus) :
    Except LeaderError DistributedTree :=
  if status.isSat then .ok (t.nodePartialSolvedSat v)
  else if status.isUnsat then t.nodePartialSolvedUnsat v
  else .error .notSolved

/-- mirrors src/src/partition_tree.py:444-447 -/
def originalSolved (t : DistributedTree) (result : NodeStatus) : DistributedTree :=
  let t' := match t.root with
    | none => t
    | some r => t.modify r fun nd => { nd with status := result }
  { t' with result := result }

/-- mirrors src/src/partition_tree.py:454-457 -/
def splitNode (t : DistributedTree) (parent coordId : Nat) (file : TaskFile) : DistributedTree :=
  t.makeNode (some parent) coordId file

/-! ## What a reported result changes -/

variable {t t' : DistributedTree} {v w : Nat}

@[simp] theorem modify_size (f : DistributedNode → DistributedNode) :
    (t.modify v f).size = t.size := rfl
@[simp] theorem modify_root (f : DistributedNode → DistributedNode) :
    (t.modify v f).root = t.root := rfl
@[simp] theorem modify_result (f : DistributedNode → DistributedNode) :
    (t.modify v f).result = t.result := rfl

theorem modify_node (f : DistributedNode → DistributedNode) :
    (t.modify v f).node w = if w = v then f (t.node v) else t.node w := by
  simp [modify, Function.update_apply]

@[simp] theorem splitNode_size (p c : Nat) (f : TaskFile) :
    (t.splitNode p c f).size = t.size + 1 := rfl
@[simp] theorem splitNode_root (p c : Nat) (f : TaskFile) :
    (t.splitNode p c f).root = t.root := rfl
@[simp] theorem splitNode_result (p c : Nat) (f : TaskFile) :
    (t.splitNode p c f).result = t.result := rfl

theorem splitNode_node (p c : Nat) (f : TaskFile) (w : Nat) :
    (t.splitNode p c f).node w =
      if w = t.size then ⟨some p, [], .unsolved, .unsolved, c, f⟩
      else if w = p then { t.node p with children := (t.node p).children ++ [t.size] }
      else t.node w := by
  simp [splitNode, makeNode, modify, Function.update_apply]

/-- Everything but the statuses and the result. -/
structure SameShape (t t' : DistributedTree) : Prop where
  size : t'.size = t.size
  root : t'.root = t.root
  parent : ∀ w, (t'.node w).parent = (t.node w).parent
  children : ∀ w, (t'.node w).children = (t.node w).children
  assignTo : ∀ w, (t'.node w).assignTo = (t.node w).assignTo
  file : ∀ w, (t'.node w).file = (t.node w).file

theorem SameShape.refl (t : DistributedTree) : SameShape t t :=
  ⟨rfl, rfl, fun _ => rfl, fun _ => rfl, fun _ => rfl, fun _ => rfl⟩

theorem SameShape.trans {t₁ t₂ t₃ : DistributedTree} (h : SameShape t₁ t₂) (h' : SameShape t₂ t₃) :
    SameShape t₁ t₃ :=
  ⟨h'.size.trans h.size, h'.root.trans h.root, fun w => (h'.parent w).trans (h.parent w),
    fun w => (h'.children w).trans (h.children w), fun w => (h'.assignTo w).trans (h.assignTo w),
    fun w => (h'.file w).trans (h.file w)⟩

theorem sameShape_status (s : NodeStatus) :
    SameShape t (t.modify v fun nd => { nd with status := s }) := by
  constructor <;> (try intro w) <;> (try rw [modify_node]) <;> (try split) <;> simp_all

theorem sameShape_part (s : NodeStatus) :
    SameShape t (t.modify v fun nd => { nd with partialStatus := s }) := by
  constructor <;> (try intro w) <;> (try rw [modify_node]) <;> (try split) <;> simp_all

theorem unsatPushUp_shape {fuel : Nat} (h : unsatPushUp fuel t v = .ok t') :
    SameShape t t' ∧ (∀ w, (t'.node w).partialStatus = (t.node w).partialStatus) ∧
      t'.result = t.result := by
  induction fuel generalizing t v with
  | zero => cases h
  | succ fuel ih =>
    unfold unsatPushUp at h
    split at h
    · cases h
    · split at h
      · -- `v` becomes unsat, and its parent is tried next
        have hv : SameShape t (t.modify v fun nd => { nd with status := .unsat }) :=
          sameShape_status .unsat
        have hp : ∀ w, ((t.modify v fun nd => { nd with status := .unsat }).node w).partialStatus =
            (t.node w).partialStatus := by
          intro w
          rw [modify_node]
          split <;> simp_all
        simp only at h
        split at h
        · cases h
          exact ⟨hv, hp, rfl⟩
        · obtain ⟨hs, hq, hr⟩ := ih h
          exact ⟨hv.trans hs, fun w => (hq w).trans (hp w), hr⟩
      · cases h
        exact ⟨.refl _, fun _ => rfl, rfl⟩

/-- A result for `v` changes the partial status of `v` and of no other node,
and neither the shape of the tree nor who holds which node. -/
theorem nodePartialSolved_shape {r : NodeStatus} (h : t.nodePartialSolved v r = .ok t') :
    SameShape t t' ∧ ∀ w, w ≠ v → (t'.node w).partialStatus = (t.node w).partialStatus := by
  have hne : ∀ (s : NodeStatus) w, w ≠ v →
      ((t.modify v fun nd => { nd with partialStatus := s }).node w).partialStatus =
        (t.node w).partialStatus := by
    intro s w hw
    rw [modify_node, if_neg hw]
  unfold nodePartialSolved at h
  split at h
  · cases h
    have hs : SameShape t (t.modify v fun nd => { nd with partialStatus := .sat }) :=
      sameShape_part .sat
    exact ⟨⟨hs.size, hs.root, hs.parent, hs.children, hs.assignTo, hs.file⟩, hne .sat⟩
  · split at h
    · unfold nodePartialSolvedUnsat at h
      split at h
      · cases h
      · rename_i t₁ hup
        obtain ⟨hs, hp, -⟩ := unsatPushUp_shape hup
        have hshape := (sameShape_part (t := t) (v := v) .unsat).trans hs
        have hpart : ∀ w, w ≠ v → (t₁.node w).partialStatus = (t.node w).partialStatus :=
          fun w hw => (hp w).trans (hne .unsat w hw)
        cases h
        split
        · exact ⟨⟨hshape.size, hshape.root, hshape.parent, hshape.children, hshape.assignTo,
            hshape.file⟩, hpart⟩
        · exact ⟨hshape, hpart⟩
    · cases h

theorem originalSolved_shape (r : NodeStatus) : SameShape t (t.originalSolved r) := by
  unfold originalSolved
  split
  · exact ⟨rfl, rfl, fun _ => rfl, fun _ => rfl, fun _ => rfl, fun _ => rfl⟩
  · rename_i root _
    have hs := sameShape_status (t := t) (v := root) r
    exact ⟨hs.size, hs.root, hs.parent, hs.children, hs.assignTo, hs.file⟩

/-! ## Well-formed trees -/

/-- The shape of a tree the leader builds, and what its statuses mean: a node
is unsat only with its own part and all children unsat. -/
structure WF (t : DistributedTree) : Prop where
  root : t.root = some 0
  size : 0 < t.size
  parentLt : ∀ v p, (t.node v).parent = some p → p < v
  child : ∀ v c, c ∈ (t.node v).children ↔ c < t.size ∧ (t.node c).parent = some v
  unsat : ∀ v, (t.node v).status = .unsat →
    (t.node v).partialStatus = .unsat ∧ ∀ c ∈ (t.node v).children, (t.node c).status = .unsat

theorem canReasonUnsat_iff :
    t.canReasonUnsat v = true ↔ (t.node v).partialStatus = .unsat ∧
      ∀ c ∈ (t.node v).children, (t.node c).status = .unsat := by
  simp [canReasonUnsat]

theorem WF.congr (h : WF t) (hs : SameShape t t')
    (hu : ∀ v, (t'.node v).status = .unsat → (t'.node v).partialStatus = .unsat ∧
      ∀ c ∈ (t'.node v).children, (t'.node c).status = .unsat) : WF t' where
  root := hs.root.trans h.root
  size := by rw [hs.size]; exact h.size
  parentLt v p hp := h.parentLt v p ((hs.parent v).symm.trans hp)
  child v c := by rw [hs.children, hs.size, hs.parent]; exact h.child v c
  unsat := hu

theorem wf_assignRootNode (c : Nat) (f : TaskFile) : WF (empty.assignRootNode c f) := by
  have hnode : ∀ v, ((empty.assignRootNode c f).node v).parent = none ∧
      ((empty.assignRootNode c f).node v).children = [] ∧
      ((empty.assignRootNode c f).node v).status = .unsolved := by
    intro v
    by_cases hv : v = 0 <;>
      simp [assignRootNode, makeNode, empty, noNode, hv]
  refine ⟨rfl, Nat.one_pos, fun v p hp => ?_, fun v c => ?_, fun v hv => ?_⟩
  · rw [(hnode v).1] at hp; cases hp
  · rw [(hnode v).2.1, (hnode c).1]; simp
  · rw [(hnode v).2.2] at hv; cases hv

/-- A child may be added to any node that is not unsat. -/
theorem WF.splitNode (h : WF t) {p : Nat} (hp : p < t.size) (hn : (t.node p).status ≠ .unsat)
    (c : Nat) (f : TaskFile) : WF (t.splitNode p c f) := by
  have hpne : p ≠ t.size := by omega
  have hmem : ∀ v c, c ∈ (t.node v).children → c ≠ t.size := fun v c hc => by
    have := ((h.child v c).1 hc).1
    omega
  refine ⟨h.root, Nat.succ_pos _, fun v q hq => ?_, fun v c' => ?_, fun v hv => ?_⟩
  · rw [splitNode_node] at hq
    split at hq
    · simp only [Option.some.injEq] at hq
      omega
    · split at hq
      · rename_i hv
        exact hv ▸ h.parentLt p q hq
      · exact h.parentLt v q hq
  · have hpar : ((t.splitNode p c f).node c').parent =
        if c' = t.size then some p else (t.node c').parent := by
      rw [splitNode_node]
      split
      · rfl
      · split
        · rename_i hc; rw [hc]
        · rfl
    rw [hpar, splitNode_size, splitNode_node]
    by_cases hv : v = t.size
    · subst hv
      rw [if_pos rfl]
      refine ⟨fun hc => (List.not_mem_nil hc).elim, fun hnew => ?_⟩
      obtain ⟨hlt, hc⟩ := hnew
      split at hc
      · simp only [Option.some.injEq] at hc; omega
      · have := h.parentLt _ _ hc
        omega
    · rw [if_neg hv]
      by_cases hvp : v = p
      · subst hvp
        simp only [if_true, List.mem_append, List.mem_singleton]
        have := h.child v c'
        by_cases hc : c' = t.size
        · simp [hc]
        · rw [if_neg hc, this]
          constructor
          · rintro (⟨h1, h2⟩ | h1)
            · exact ⟨by omega, h2⟩
            · exact absurd h1 hc
          · rintro ⟨h1, h2⟩
            exact .inl ⟨by omega, h2⟩
      · rw [if_neg hvp, h.child v c']
        by_cases hc : c' = t.size
        · simp [hc, Ne.symm hvp]
        · rw [if_neg hc]
          exact and_congr_left fun _ => by omega
  · have hst : ∀ w, w ≠ t.size → ((t.splitNode p c f).node w).status = (t.node w).status := by
      intro w hw
      rw [splitNode_node, if_neg hw]
      split
      · rename_i hwp; rw [hwp]
      · rfl
    have hvs : v ≠ t.size := by
      rintro rfl
      rw [splitNode_node, if_pos rfl] at hv
      cases hv
    have hvp : v ≠ p := by
      rintro rfl
      rw [hst v hvs] at hv
      exact hn hv
    rw [hst v hvs] at hv
    obtain ⟨h1, h2⟩ := h.unsat v hv
    rw [splitNode_node, if_neg hvs, if_neg hvp]
    exact ⟨h1, fun c' hc => by rw [hst c' (hmem v c' hc)]; exact h2 c' hc⟩

/-- A node that can be unsat may become it. -/
theorem WF.markUnsat (h : WF t) (hc : t.canReasonUnsat v = true) :
    WF (t.modify v fun nd => { nd with status := .unsat }) := by
  have hc := canReasonUnsat_iff.1 hc
  refine h.congr (sameShape_status .unsat) fun w hw => ?_
  by_cases hwv : w = v
  · subst hwv
    simp only [modify_node, if_true]
    refine ⟨hc.1, fun c hcc => ?_⟩
    split
    · rfl
    · exact hc.2 c hcc
  · rw [modify_node, if_neg hwv] at hw ⊢
    obtain ⟨hw1, hw2⟩ := h.unsat w hw
    refine ⟨hw1, fun c hcc => ?_⟩
    rw [modify_node]
    split
    · rfl
    · exact hw2 c hcc

/-- Pushing up from a node that is not unsat meets no unsat node: an unsat
parent would have had only unsat children. -/
theorem unsatPushUp_ok (h : WF t) (hv : v < t.size) (hn : (t.node v).status ≠ .unsat) {fuel : Nat}
    (hf : v < fuel) : ∃ t', unsatPushUp fuel t v = .ok t' ∧ WF t' := by
  induction fuel generalizing t v with
  | zero => omega
  | succ fuel ih =>
    unfold unsatPushUp
    rw [if_neg (by simpa using hn)]
    split
    · rename_i hc
      have hwf := h.markUnsat hc
      simp only
      cases hp : (t.node v).parent with
      | none => exact ⟨_, rfl, hwf⟩
      | some p =>
        have hlt := h.parentLt v p hp
        refine ih hwf (by rw [modify_size]; omega) ?_ (by omega)
        rw [modify_node, if_neg (by omega)]
        intro hpu
        exact hn ((h.unsat p hpu).2 v ((h.child p v).2 ⟨hv, hp⟩))
    · exact ⟨t, rfl, h⟩

/-- The part of a node that is not unsat may be reported. -/
theorem WF.report (h : WF t) (hst : (t.node v).status ≠ .unsat) (s : NodeStatus) :
    WF (t.modify v fun nd => { nd with partialStatus := s }) := by
  refine h.congr (sameShape_part s) fun w hw => ?_
  have hne : w ≠ v := by
    rintro rfl
    rw [modify_node, if_pos rfl] at hw
    exact hst hw
  rw [modify_node, if_neg hne] at hw ⊢
  refine ⟨(h.unsat w hw).1, fun c hcc => ?_⟩
  have := (h.unsat w hw).2 c hcc
  rw [modify_node]
  split
  · rename_i hcv
    subst hcv
    exact this
  · exact this

/-- **The push-up assertion holds.** On a well-formed tree, a verdict for a
node whose own part is still open raises nothing. -/
theorem nodePartialSolved_ok (h : WF t) {r : NodeStatus} (hv : v < t.size)
    (hn : (t.node v).partialStatus = .unsolved) (hr : r = .sat ∨ r = .unsat) :
    ∃ t', t.nodePartialSolved v r = .ok t' ∧ WF t' := by
  have hst : (t.node v).status ≠ .unsat := fun hu => by
    have := (h.unsat v hu).1
    rw [hn] at this
    cases this
  have hwf := h.report hst
  rcases hr with rfl | rfl
  · refine ⟨t.nodePartialSolvedSat v, rfl, ?_⟩
    exact ⟨(hwf .sat).root, (hwf .sat).size, (hwf .sat).parentLt, (hwf .sat).child,
      (hwf .sat).unsat⟩
  · obtain ⟨t₁, hup, h₁⟩ := unsatPushUp_ok (v := v) (hwf .unsat) hv
      (by rw [modify_node, if_pos rfl]; exact hst) (Nat.lt_succ_self v)
    refine ⟨_, by rw [nodePartialSolved, if_neg (by decide), if_pos (by decide),
      nodePartialSolvedUnsat, hup], ?_⟩
    split
    · exact ⟨h₁.root, h₁.size, h₁.parentLt, h₁.child, h₁.unsat⟩
    · exact h₁

end DistributedTree

end AriParti.L4
