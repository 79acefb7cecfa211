import AriParti.L2Partitioner.Answers
import AriParti.L2Partitioner.Spent
import AriParti.L3Coordinator.Round
import AriParti.L3Coordinator.Session

/-!
# The coordinator's tree beside the partitioner's

A coordinator that has read a part of the lines has a part of the tree of its
partitioner, and what is known of the nodes of one tree is known of the other.
Here that is kept whatever the coordinator does, with or without a result, and
for unsat marks in one direction only: an unsat node is spent.

## Results

* `Mirror.refute`, `Mirror.newNode`: what refuting a node and a new line do.
* `Mirror.root_spent`: an unsat root.
-/
namespace AriParti.L3
open AriParti.Core AriParti.L1 AriParti.L2 Context

namespace ParallelTree
open Coordinator

variable {t t' : ParallelTree} {v w : Nat} {ls : List P2C}

/-- The tree with no answer and no mark. -/
def unmarked (t : ParallelTree) : ParallelTree :=
  { t with node := fun v => { t.node v with status := .unsolved }, result := .unsolved }

theorem unmarked_shape (t : ParallelTree) : SameShape t t.unmarked :=
  ⟨rfl, rfl, fun _ => rfl, fun _ => rfl, fun _ => rfl⟩

theorem unmarked_marks (t : ParallelTree) : Marks (fun _ => False) t.unmarked := by
  have hnone : ∀ v, tree.marked t.unmarked v = false := fun _ => rfl
  refine ⟨fun _ => ⟨fun n _ hn => ?_, fun n _ hne hcov => ?_⟩, fun _ v => ⟨fun hv => ?_, fun hd => ?_⟩,
    fun hr => ?_, fun hr => ?_, fun hr => ?_⟩
  · rw [hnone] at hn
    cases hn
  · obtain ⟨c, hc⟩ := List.exists_mem_of_ne_nil _ hne
    have := (MarkedTree.covered_iff.1 hcov).2 c hc
    rw [hnone] at this
    cases this
  · cases hv
  · refine (hd.least (M := fun _ => False) (fun _ h => h.2) (fun _ _ h _ => h) ?_).elim
    intro n hne _ hall
    obtain ⟨c, hc⟩ := List.exists_mem_of_ne_nil _ hne
    exact hall c hc
  all_goals cases hr

/-- The tree of a coordinator that has read the lines `ls`, beside the
partitioner `p`. -/
structure Mirror {P : Problem} {pr : Params} {im : IntervalManager} {so : Sorting}
    (p : Context (paving P pr im so)) (H : List Nat) (ls : List P2C) (t : ParallelTree) : Prop where
  shape : Shape t
  made : ∀ pid ppid, Announces ls pid ppid ↔ ∃ v, t.pid2node pid = some v ∧ t.parentPid v = ppid
  lt : ∀ v, v ∈ t.waitings ∨ v ∈ t.solvings → v < t.size
  spent : ∀ v < t.size, (t.node v).status = .unsat → Spent p H (t.node v).pid

variable {P : Problem} {pr : Params} {im : IntervalManager} {so : Sorting} {maxAlive : Nat}
  {p : Context (paving P pr im so)} {H : List Nat}

theorem mirror_empty : Mirror p H [] empty where
  shape := kept_empty.shape
  made pid ppid := by simp [Announces, empty]
  lt v hv := by rcases hv with hv | hv <;> cases hv
  spent v hv := absurd hv (Nat.not_lt_zero v)

/-- The shape alone, as `Kept` has it. -/
theorem Mirror.kept (h : Mirror p H ls t) : Kept (Announces ls) (fun _ => False) t.unmarked :=
  ⟨h.shape.congr t.unmarked_shape, t.unmarked_marks, fun _ hf => hf.elim, h.made⟩

theorem Mirror.announces (h : Mirror p H ls t) (hv : v < t.size) :
    Announces ls (t.node v).pid (t.parentPid v) :=
  (h.made _ _).2 ⟨v, h.shape.number hv, rfl⟩

/-- The spent nodes may be more, in a tree that has grown. -/
theorem Mirror.mono {p' : Context (paving P pr im so)} {H' : List Nat} (h : Mirror p H ls t)
    (hs : ∀ v < t.size, Spent p H (t.node v).pid → Spent p' H' (t.node v).pid) :
    Mirror p' H' ls t :=
  ⟨h.shape, h.made, h.lt, fun v hv hu => hs v hv (h.spent v hv hu)⟩

/-- No mark is new. -/
theorem Mirror.congr (h : Mirror p H ls t) (hs : SameShape t t')
    (hu : ∀ v, (t'.node v).status = .unsat → (t.node v).status = .unsat)
    (hlt : ∀ v, v ∈ t'.waitings ∨ v ∈ t'.solvings → v < t.size) : Mirror p H ls t' := by
  refine ⟨h.shape.congr hs, fun pid ppid => ?_, fun v hv => ?_, fun v hv hv' => ?_⟩
  · rw [h.made, hs.pid2node]
    simp only [hs.parentPid]
  · rw [hs.size]
    exact hlt v hv
  · rw [hs.size] at hv
    rw [hs.pid]
    exact h.spent v hv (hu v hv')

theorem Mirror.quiet (h : Mirror p H ls t) (hq : Quiet t t')
    (hlt : ∀ v, v ∈ t'.waitings ∨ v ∈ t'.solvings → v < t.size) : Mirror p H ls t' :=
  h.congr hq.toSameShape (fun v => (hq.unsat v).1) hlt

/-- The process of a node has ended. -/
theorem Mirror.unassign (h : Mirror p H ls t) (v : Nat) :
    Mirror p H ls (t.modify v fun nd => { nd with assignTo := false }) :=
  h.quiet (unassign_quiet v) h.lt

theorem Mirror.runWaitingTask (h : Mirror p H ls t) : Mirror p H ls t.runWaitingTask := by
  refine h.quiet runWaitingTask_quiet fun w hw => h.lt w ?_
  unfold ParallelTree.runWaitingTask at hw
  split at hw
  · exact hw.imp_left fun hw => by cases hw
  · rename_i v rest hnext
    obtain ⟨hv, hrest, -⟩ := getNextWaitingNode_queue hnext
    rcases hw with hw | hw
    · exact .inl (hrest w hw)
    · rcases List.mem_append.1 hw with hw | hw
      · exact .inr hw
      · rw [List.mem_singleton.1 hw]
        exact .inl hv

theorem Mirror.solvedSat (h : Mirror p H ls t) (v : Nat) : Mirror p H ls (t.nodeSolvedSat v) := by
  have hs := updateNodeStatus_shape (t := t) v .sat
  refine h.congr ⟨hs.size, hs.pid2node, hs.pid, hs.parent, hs.children⟩ (fun w hw => ?_) h.lt
  have hw : ((t.updateNodeStatus v .sat).node w).status = .unsat := hw
  unfold updateNodeStatus at hw
  rw [modify_node] at hw
  split at hw
  · cases hw
  · exact hw

section

variable (hr : (machine (paving P pr im so) maxAlive).Reachable p) (hls : ls <+: p.written)
include hr hls

/-- The lines read are true of the partitioner's tree. -/
theorem announces_lines {n : Nat} {q : Option Nat} (ha : Announces ls n q) :
    p.Announced n ∧ n < p.size ∧ (p.node n).parent = q := by
  have ha : Announces p.written n q := ha.imp (hls.subset ·) (hls.subset ·)
  refine ⟨⟨q, ha⟩, ?_⟩
  rcases run_inv.reachable hr with rfl | ⟨-, hl⟩
  · rcases ha with ha | ha <;> cases ha
  · exact announces_node hl ha

theorem Mirror.announced (h : Mirror p H ls t) (hv : v < t.size) :
    p.Announced (t.node v).pid ∧ (t.node v).pid < p.size := by
  obtain ⟨ha, hlt, -⟩ := announces_lines hr hls (h.announces hv)
  exact ⟨ha, hlt⟩

theorem Mirror.root_pid (h : Mirror p H ls t) (ht : 0 < t.size) : (t.node 0).pid = 0 := by
  obtain ⟨-, hlt, hp⟩ := announces_lines hr hls (h.announces ht)
  unfold parentPid at hp
  rw [h.shape.root_parent] at hp
  by_contra hne
  obtain ⟨q, hq⟩ := (reachable_genealogy hr (Nat.zero_lt_of_lt hlt)).2.parent _ hlt hne
  rw [hp] at hq
  cases hq

/-- Children are children on the other side. -/
theorem Mirror.child (h : Mirror p H ls t) (hw : w ∈ (t.node v).children) :
    (t.node w).pid ∈ p.childrenOf (t.node v).pid := by
  obtain ⟨hlt, hp⟩ := (h.shape.grown.child v w).1 hw
  obtain ⟨-, hwlt, hpar⟩ := announces_lines hr hls (h.announces hlt)
  unfold parentPid at hpar
  rw [show (t.node w).parent = some v from hp] at hpar
  have hi := (reachable_genealogy hr (Nat.zero_lt_of_lt hwlt)).1
  exact (hi.grown.child _ _).2 ⟨hwlt, hpar⟩

/-- Two children in the one tree are all children in the other. -/
theorem Mirror.children (h : Mirror p H ls t) (h2 : 2 ≤ (t.node v).children.length) :
    p.childrenOf (t.node v).pid ≠ [] ∧ ∀ m ∈ p.childrenOf (t.node v).pid,
      ∃ w ∈ (t.node v).children, (t.node w).pid = m := by
  obtain ⟨c, hc⟩ := List.exists_mem_of_length_pos (Nat.zero_lt_of_lt h2)
  have hne := List.ne_nil_of_mem (h.child hr hls hc)
  refine ⟨hne, fun m hm => ?_⟩
  obtain ⟨-, a, b, hab, -⟩ := split_born hr hne
  -- the numbers of the children are distinct members of a list of two
  have hsub : ((t.node v).children.map fun w => (t.node w).pid).Subperm
      (p.childrenOf (t.node v).pid) := by
    refine List.Nodup.subperm (List.Nodup.map_on (fun x hx y hy he => ?_) (h.shape.nodup v))
      fun n hn => ?_
    · exact h.shape.pid_inj (h.shape.child_lt hx).2 (h.shape.child_lt hy).2 he
    · obtain ⟨w, hw, rfl⟩ := List.mem_map.1 hn
      exact h.child hr hls hw
  have hlen : (p.childrenOf (t.node v).pid).length ≤
      ((t.node v).children.map fun w => (t.node w).pid).length := by
    rw [hab, List.length_map]
    exact h2
  obtain ⟨w, hw, he⟩ := List.mem_map.1 ((hsub.perm_of_length_le hlen).mem_iff.2 hm)
  exact ⟨w, hw, he⟩

theorem Mirror.spent_child (h : Mirror p H ls t) (hs : Spent p H (t.node v).pid)
    (hw : w ∈ (t.node v).children) : Spent p H (t.node w).pid :=
  hs.child hr (h.child hr hls hw)

theorem Mirror.spent_parent (h : Mirror p H ls t) (h2 : 2 ≤ (t.node v).children.length)
    (hall : ∀ w ∈ (t.node v).children, Spent p H (t.node w).pid) : Spent p H (t.node v).pid := by
  obtain ⟨hne, hmem⟩ := h.children hr hls h2
  refine Spent.parent hr hne fun m hm => ?_
  obtain ⟨w, hw, rfl⟩ := hmem m hm
  exact hall w hw

/-- The marks that refuting a spent node makes are on spent nodes. -/
theorem Mirror.nodeSolvedUnsat_spent (h : Mirror p H ls t) (hv : v < t.size)
    (hs : Spent p H (t.node v).pid) :
    ∀ w < t.size, ((t.nodeSolvedUnsat v).node w).status = .unsat → Spent p H (t.node w).pid := by
  let M : Nat → Prop := fun w => w < t.size → Spent p H (t.node w).pid
  have hset : SameShape t (t.updateNodeStatus v .unsat) := updateNodeStatus_shape v .unsat
  have hchildren : tree.children (t.updateNodeStatus v .unsat) = fun w => (t.node w).children :=
    funext hset.children
  have hup : ∀ n, 2 ≤ (tree.children (t.updateNodeStatus v .unsat) n).length →
      (∀ c ∈ tree.children (t.updateNodeStatus v .unsat) n, M c) → M n := by
    intro n h2 hall _
    rw [hchildren] at h2 hall
    exact h.spent_parent hr hls h2 fun c hc => hall c hc (h.shape.child_lt hc).2
  have hM : ∀ y, tree.marked (t.updateNodeStatus v .unsat) y = true → M y := by
    intro y hy hlt
    rw [updateNodeStatus_marked, Bool.or_eq_true, beq_iff_eq, marked_iff] at hy
    rcases hy with rfl | hy
    · exact hs
    · exact h.spent y hlt hy
  have hM := MarkedTree.pushUpFrom_within (n := v) hup hM
  have he := tree.pushUpFrom_extends 2 (t.updateNodeStatus v .unsat) v
  intro w hw hu
  refine (?_ : M w) hw
  unfold ParallelTree.nodeSolvedUnsat at hu
  simp only at hu
  split at hu
  · exact hM w (marked_iff.2 hu)
  · refine MarkedTree.pushDownFrom_within (fun q c hq hc hlt => ?_) (fun _ => hs) hM w
      (marked_iff.2 hu)
    rw [he.children, hchildren] at hc
    exact h.spent_child hr hls (hq ((h.shape.child_lt hc).1.trans hlt)) hc

/-- **A spent node is refuted.** -/
theorem Mirror.refute (h : Mirror p H ls t) (hv : v < t.size) (hs : Spent p H (t.node v).pid) :
    Mirror p H ls (t.nodeSolvedUnsat v) := by
  have hshape : SameShape t (t.nodeSolvedUnsat v) := nodeSolvedUnsat_shape
  have href := nodeSolvedUnsat_refuting t v
  refine ⟨h.shape.congr hshape, fun pid ppid => ?_, fun w hw => ?_, fun w hw hu => ?_⟩
  · rw [h.made, hshape.pid2node]
    simp only [hshape.parentPid]
  · rw [href.waitings, href.solvings] at hw
    rw [hshape.size]
    exact h.lt w hw
  · rw [hshape.size] at hw
    rw [hshape.pid]
    exact h.nodeSolvedUnsat_spent hr hls hv hs w hw hu

/-- An unsat root leaves no model but in the nodes of `H`. -/
theorem Mirror.root_spent (h : Mirror p H ls t) (ht : 0 < t.size)
    (hu : (t.node 0).status = .unsat) : Exhausted p H := by
  have hs := h.spent 0 ht hu
  have hlt := (h.announced hr hls ht).2
  rw [h.root_pid hr hls ht] at hs
  exact hs.root hr (Nat.zero_lt_of_lt hlt)

/-- Refuting a node sets the result when it reaches the root. -/
theorem Mirror.refute_result (h : Mirror p H ls t) (hv : v < t.size)
    (hs : Spent p H (t.node v).pid) :
    (t.nodeSolvedUnsat v).result = t.result ∨ Exhausted p H := by
  rcases nodeSolvedUnsat_cases h.shape.grown v with ⟨hroot, he⟩ | ⟨-, -, -, hres⟩
  · right
    have hm := h.refute hr hls hv hs
    have hpos : 0 < (t.nodeSolvedUnsat v).size := by
      rw [(nodeSolvedUnsat_shape (t := t) (v := v)).size]
      exact Nat.zero_lt_of_lt hv
    refine hm.root_spent hr hls hpos ?_
    rw [he]
    exact rootUnsat_iff.1 hroot
  · exact .inl hres

end

/-! ## A new line -/

theorem addNode_unmarked (pid : Nat) (parent : Option Nat) :
    SameShape (t.unmarked.addNode pid parent) (t.addNode pid parent).unmarked := by
  have hnode : ∀ w, ((t.addNode pid parent).unmarked.node w).pid =
        ((t.unmarked.addNode pid parent).node w).pid ∧
      ((t.addNode pid parent).unmarked.node w).parent =
        ((t.unmarked.addNode pid parent).node w).parent ∧
      ((t.addNode pid parent).unmarked.node w).children =
        ((t.unmarked.addNode pid parent).node w).children := by
    intro w
    show ((t.addNode pid parent).node w).pid = _ ∧ ((t.addNode pid parent).node w).parent = _ ∧
      ((t.addNode pid parent).node w).children = _
    rw [addNode_node, addNode_node]
    show _ = (if w = t.size then _ else _ : ParallelNode).pid ∧
      _ = (if w = t.size then _ else _ : ParallelNode).parent ∧
      _ = (if w = t.size then _ else _ : ParallelNode).children
    split
    · exact ⟨rfl, rfl, rfl⟩
    · split <;> exact ⟨rfl, rfl, rfl⟩
  refine ⟨?_, ?_, fun w => (hnode w).1, fun w => (hnode w).2.1, fun w => (hnode w).2.2⟩
  · show (t.addNode pid parent).size = _
    rw [addNode_size, addNode_size]
    rfl
  · show (t.addNode pid parent).pid2node = _
    rw [addNode_pid2node, addNode_pid2node]
    rfl

theorem Mirror.addNode (h : Mirror p H ls t) {pid : Nat} {ppid parent : Option Nat}
    {ls' : List P2C} (hls : Announces ls' = fun n q => Announces ls n q ∨ pid = n ∧ ppid = q)
    (hroom : Room t parent) (hpid : t.pid2node pid = none)
    (hppid : (parent.map fun q => (t.node q).pid) = ppid) :
    Mirror p H ls' (t.addNode pid parent) := by
  have hk : Kept (fun n q => Announces ls n q ∨ pid = n ∧ ppid = q) (fun _ => False)
      (t.addNode pid parent).unmarked :=
    h.kept.create (by cases parent <;> exact hroom) hpid hppid (addNode_unmarked pid parent)
      (unmarked_marks _) fun _ hf => hf.elim
  have hqueue : (t.addNode pid parent).waitings = t.waitings ∧
      (t.addNode pid parent).solvings = t.solvings := by
    cases parent <;> exact ⟨rfl, rfl⟩
  refine ⟨h.shape.addNode hroom hpid, ?_, fun v hv => ?_, fun v hv hu => ?_⟩
  · rw [hls]
    exact hk.made
  · rw [hqueue.1, hqueue.2] at hv
    rw [addNode_size]
    exact Nat.lt_succ_of_lt (h.lt v hv)
  · rw [addNode_size] at hv
    rw [addNode_status] at hu
    split at hu
    · cases hu
    · rename_i hne
      rw [addNode_old ParallelNode.pid (fun _ _ => rfl) hne]
      exact h.spent v (by omega) hu

/-- **A line about a node.** -/
theorem Mirror.newNode (h : Mirror p H ls t) (hr : (machine (paving P pr im so) maxAlive).Reachable p)
    {line : P2C} {rest : List P2C} (hw : p.written = ls ++ line :: rest)
    (hunsat : ∀ n q, line = .newUnsatNode n q → Spent p H n) (hc : t.newNode line = some t') :
    Mirror p H (ls ++ [line]) t' ∧ (t'.result = t.result ∨ Exhausted p H) := by
  have hls : ls ++ [line] <+: p.written := by
    rw [hw]
    exact (List.prefix_append_right_inj ls).2 (List.prefix_append [line] rest)
  have ha : t.Allowed (.newNode line) := by
    obtain ⟨⟨hrun, hgen⟩, htold⟩ := told_inductive.reachable hr
    have hne : p ≠ .empty := by
      rintro rfl
      exact absurd hw.symm (List.append_ne_nil_of_right_ne_nil _ (List.cons_ne_nil _ _))
    obtain ⟨hi, hl⟩ := hrun.resolve_left hne
    have := allowed_next hi hl (hgen.resolve_left hne) htold h.kept hw
    cases line <;> exact this
  -- the new node, and what refuting it at once does
  have refuted : ∀ {pid : Nat} {parent : Option Nat}, Mirror p H (ls ++ [line]) (t.addNode pid parent) →
      Spent p H pid → Mirror p H (ls ++ [line]) ((t.addNode pid parent).nodeSolvedUnsat t.size) ∧
        (((t.addNode pid parent).nodeSolvedUnsat t.size).result = t.result ∨ Exhausted p H) := by
    intro pid parent hm hs
    have hlt : t.size < (t.addNode pid parent).size := by
      rw [addNode_size]
      exact Nat.lt_succ_self _
    have hself : ((t.addNode pid parent).node t.size).pid = pid := by
      rw [addNode_node, if_pos rfl]
    rw [← hself] at hs
    have hres : (t.addNode pid parent).result = t.result := addNode_result
    refine ⟨hm.refute hr hls hlt hs, ?_⟩
    rw [← hres]
    exact hm.refute_result hr hls hlt hs
  cases line with
  | newUnsatNode pid ppid =>
    obtain ⟨hpid, hroom⟩ := ha
    obtain ⟨t₁, hmk, rfl⟩ := Option.map_eq_some_iff.1 hc
    obtain ⟨parent, rfl, hroom, hppid⟩ := makeNode_room h.shape hroom hmk
    refine refuted (h.addNode ?_ hroom hpid hppid) (hunsat pid ppid rfl)
    funext n q
    simp [Announces, or_assoc, eq_comm]
  | newUnknownNode pid ppid =>
    obtain ⟨hpid, hroom⟩ := ha
    obtain ⟨t₁, hmk, rfl⟩ := Option.map_eq_some_iff.1 hc
    obtain ⟨parent, rfl, hroom, hppid⟩ := makeNode_room h.shape hroom hmk
    have hm : Mirror p H (ls ++ [.newUnknownNode pid ppid]) (t.addNode pid parent) := by
      refine h.addNode ?_ hroom hpid hppid
      funext n q
      simp only [Announces, List.mem_append, List.mem_singleton, P2C.newUnknownNode.injEq,
        reduceCtorEq, or_false, eq_iff_iff, eq_comm (a := n), eq_comm (a := q)]
      tauto
    split
    · rename_i hu
      refine refuted hm ?_
      -- the parent is unsat, hence spent
      unfold ParallelTree.parentUnsat at hu
      rw [addNode_parent, if_pos rfl] at hu
      cases parent with
      | none => cases hu
      | some q =>
        have hq := (hroom.lt rfl).1
        have hlt : q < (t.addNode pid (some q)).size := by
          rw [addNode_size]
          omega
        have hmem : t.size ∈ ((t.addNode pid (some q)).node q).children := by
          rw [mem_addNode_children fun _ hp => (hroom.lt hp).1]
          exact .inr ⟨rfl, rfl⟩
        have hs := hm.spent_child hr hls (hm.spent q hlt (NodeStatus.isUnsat_iff.1 hu)) hmem
        rwa [addNode_node, if_pos rfl] at hs
    · have hres : (t.addNode pid parent).result = t.result := addNode_result
      refine ⟨hm.quiet (appendWaiting_quiet _) fun v hv => ?_, .inl hres⟩
      rcases hv with hv | hv
      · rcases List.mem_append.1 hv with hv | hv
        · exact hm.lt v (.inl hv)
        · rw [List.mem_singleton.1 hv, addNode_size]
          exact Nat.lt_succ_self _
      · exact hm.lt v (.inr hv)

end ParallelTree

end AriParti.L3
