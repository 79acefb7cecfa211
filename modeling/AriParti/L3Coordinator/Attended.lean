import AriParti.L3Coordinator.Solving

/-!
# Who works on the rest of the tree

A node that is not unsat has to be worked on: by its own solver, by that of an
ancestor, or by those below it. Terminating the solver of a node is safe when
it has two children, for a node with two unsat children is unsat. A terminated
node with fewer children is left to the solvers of its ancestors, and with the
last of these its part of the search space is left to nobody. Nothing in the
coordinator looks at this: the solver of a leaf is terminated when it fails and
when its time is up, also when the partitioner has nothing more to announce.

## Results

* `exists_active`: in a tree that is attended some node is active.
* `Working.line`, `Working.check`, `Working.split`: what one step keeps.
* `coordinator_attended`: as long as no step abandons a node, a coordinator
  that has not finished has an active node or a running partitioner.
* `coordinator_dry`: the solver of a root that cannot be split fails.
-/
namespace AriParti.L3
open AriParti.Core AriParti.L2

namespace ParallelTree

variable {t t' : ParallelTree} {v w : Nat}

/-- The node is being solved or will be. -/
def Active (t : ParallelTree) (v : Nat) : Prop :=
  (t.node v).status = .unsolved ∨ (t.node v).status = .solving

/-- When the nodes of `gone` are terminated, and those of `refuted` are unsat,
every terminated node with fewer than two children has an active node above
it. -/
def Attended (t : ParallelTree) (gone refuted : Nat → Prop) : Prop :=
  ∀ w < t.size, ¬ refuted w → (t.node w).status = .terminated ∨ gone w →
    (t.node w).children.length < 2 → ∃ a, t.below a w ∧ ¬ gone a ∧ t.Active a

/-- No node. -/
def nobody (_ : Nat) : Prop := False

/-- A leaf that is not unsat is active or has an active node above it. -/
theorem exists_active (h : Shape t) (hcl : tree.Closed 2 t) (hs : 0 < t.size)
    (hroot : t.rootUnsat = false)
    (hplain : ∀ v < t.size, (t.node v).status ≠ .sat ∧ (t.node v).status ≠ .error)
    (ha : t.Attended nobody nobody) : ∃ v < t.size, t.Active v := by
  have hopen : (t.node 0).status ≠ .unsat := by
    intro hu
    rw [rootUnsat_iff.2 hu] at hroot
    cases hroot
  obtain ⟨w, hw, hu, hlen⟩ := exists_open h hcl hs hopen
  cases hst : (t.node w).status with
  | unsolved => exact ⟨w, hw, .inl hst⟩
  | solving => exact ⟨w, hw, .inr hst⟩
  | unsat => exact absurd hst hu
  | sat => exact absurd hst (hplain w hw).1
  | error => exact absurd hst (hplain w hw).2
  | terminated =>
    obtain ⟨a, hb, -, hact⟩ := ha w hw (fun hf => hf) (.inl hst) hlen
    have := h.below_le hb
    exact ⟨a, by omega, hact⟩

/-! ## What a refutation leaves alone -/

/-- Nodes become unsat; the rest of the tree is as it was. -/
structure Refuting (t t' : ParallelTree) : Prop where
  node : ∀ w, (t'.node w).status = .unsat ∨ t'.node w = t.node w
  waitings : t'.waitings = t.waitings
  solvings : t'.solvings = t.solvings
  result : t'.result = .unsat ∨ t'.result = t.result

theorem Refuting.refl (t : ParallelTree) : Refuting t t := ⟨fun _ => .inr rfl, rfl, rfl, .inr rfl⟩

theorem Refuting.modify (h : Refuting t t') (v : Nat) {f : ParallelNode → ParallelNode}
    (hf : ∀ nd, (f nd).status = .unsat) : Refuting t (t'.modify v f) := by
  refine ⟨fun w => ?_, h.waitings, h.solvings, h.result⟩
  rw [modify_node]
  split
  · exact .inl (hf _)
  · exact h.node w

theorem nodeSolvedUnsat_refuting (t : ParallelTree) (v : Nat) : Refuting t (t.nodeSolvedUnsat v) := by
  have mark : ∀ n t', Refuting t t' → Refuting t (tree.mark n t') := by
    intro n t' h
    show Refuting t (t'.propagateNodeUnsat n)
    unfold propagateNodeUnsat
    exact h.modify n fun _ => rfl
  have hset : Refuting t (t.updateNodeStatus v .unsat) := by
    unfold updateNodeStatus
    exact (Refuting.refl t).modify v fun _ => rfl
  have hup := tree.pushUpFrom_keeps mark (k := 2) _ v hset
  unfold nodeSolvedUnsat
  simp only
  split
  · exact ⟨hup.node, hup.waitings, hup.solvings, .inl rfl⟩
  · exact tree.pushDownFrom_keeps mark _ v hup

/-- What was attended stays so when nodes become unsat, if the unsat nodes are
closed. -/
theorem Attended.refuting (ha : t.Attended nobody nobody) (hs : SameShape t t')
    (hr : Refuting t t') (hcl : tree.Closed 2 t') : t'.Attended nobody nobody := by
  intro w hw _ hterm hlen
  have hterm : (t'.node w).status = .terminated := hterm.resolve_right fun hf => hf
  have hold : t'.node w = t.node w := (hr.node w).resolve_left fun hu => by
    rw [hterm] at hu
    cases hu
  rw [hs.size] at hw
  rw [hold] at hterm hlen
  obtain ⟨a, hb, -, hact⟩ := ha w hw (fun hf => hf) (.inl hterm) hlen
  rw [← hs.below] at hb
  refine ⟨a, hb, fun hf => hf, ?_⟩
  rcases hr.node a with hu | he
  · have := unsat_below hcl hb hu
    rw [hold, hterm] at this
    cases this
  · unfold Active
    rw [he]
    exact hact

/-! ## Terminating -/

theorem terminate_status (v w : Nat) : ((t.terminate v).node w).status =
    if w = v ∧ (t.node v).status.isEnded = false then .terminated else (t.node w).status := by
  unfold terminate
  by_cases he : (t.node v).status.isEnded = true
  · rw [if_pos he, if_neg (by simp [he])]
  · rw [if_neg he]
    unfold terminateNode
    rw [modify_node]
    by_cases hw : w = v
    · rw [if_pos hw, if_pos ⟨hw, Bool.eq_false_iff.2 he⟩]
    · rw [if_neg hw, if_neg fun h => hw h.1]

theorem Attended.terminate (h : t.Attended (· = v) nobody) :
    (t.terminate v).Attended nobody nobody := by
  have hs := (terminate_quiet (t := t) v).toSameShape
  intro w hw _ hterm hlen
  have hterm := hterm.resolve_right fun hf => hf
  rw [terminate_status] at hterm
  rw [hs.size] at hw
  rw [hs.children] at hlen
  have hgone : (t.node w).status = .terminated ∨ w = v := by
    split at hterm
    · rename_i hwv
      exact .inr hwv.1
    · exact .inl hterm
  obtain ⟨a, hb, hne, hact⟩ := h w hw (fun hf => hf) hgone hlen
  rw [← hs.below] at hb
  refine ⟨a, hb, fun hf => hf, ?_⟩
  unfold Active
  rw [terminate_status, if_neg fun hav => hne hav.1]
  exact hact

/-- The path to the root is terminated. -/
theorem terminatePath_status (fuel : Nat) : ∀ (t : ParallelTree) (v w : Nat), Shape t → v < t.size →
    ((terminatePath fuel t v).node w).status = (t.node w).status ∨
      ((terminatePath fuel t v).node w).status = .terminated ∧ t.below w v := by
  induction fuel with
  | zero => exact fun t v w _ _ => .inl rfl
  | succ fuel ih =>
    intro t v w h hv
    have hs := (terminate_quiet (t := t) v).toSameShape
    have hone : ((t.terminate v).node w).status = (t.node w).status ∨
        ((t.terminate v).node w).status = .terminated ∧ t.below w v := by
      rw [terminate_status]
      split
      · rename_i hwv
        rw [hwv.1]
        exact .inr ⟨rfl, .refl⟩
      · exact .inl rfl
    unfold terminatePath
    simp only
    split
    · exact hone
    · rename_i p hp
      rw [hs.parent] at hp
      have hpv := h.grown.parentLt v p hp
      have hmem : v ∈ (t.node p).children := (h.grown.child p v).2 ⟨hv, hp⟩
      rcases ih (t.terminate v) p w (h.congr hs) (by rw [hs.size]; omega) with he | ⟨he, hb⟩
      · rw [he]
        exact hone
      · rw [hs.below] at hb
        exact .inr ⟨he, hb.tail hmem⟩

theorem nodeSolvedUnsat_self : ((t.nodeSolvedUnsat v).node v).status = .unsat :=
  nodeSolvedUnsat_unsat (.inl rfl)

/-- Handing over `v` terminates the path to it and refutes what is below. -/
theorem Attended.split (h : Shape t) (hv : v < t.size)
    (ha : t.Attended (fun a => t.below a v) (fun w => t.below v w))
    (hcl : tree.Closed 2 (t.setNodeSplit v)) : (t.setNodeSplit v).Attended nobody nobody := by
  have hpath := (terminatePath_quiet (v + 1) t v).toSameShape
  have hs : SameShape t (t.setNodeSplit v) := hpath.trans nodeSolvedUnsat_shape
  have hr : Refuting (terminatePath (v + 1) t v) (t.setNodeSplit v) :=
    nodeSolvedUnsat_refuting (terminatePath (v + 1) t v) v
  have hself : ((t.setNodeSplit v).node v).status = .unsat := nodeSolvedUnsat_self
  -- a node is as it was, or unsat, or terminated on the path
  have hstatus : ∀ w, ((t.setNodeSplit v).node w).status = .unsat ∨
      ((t.setNodeSplit v).node w).status = (t.node w).status ∨
      ((t.setNodeSplit v).node w).status = .terminated ∧ t.below w v := by
    intro w
    rcases hr.node w with hu | he
    · exact .inl hu
    · rw [he]
      exact .inr (terminatePath_status (v + 1) t v w h hv)
  intro w hw _ hterm hlen
  have hterm := hterm.resolve_right fun hf => hf
  rw [hs.size] at hw
  rw [hs.children] at hlen
  have hnot : ¬ t.below v w := by
    intro hb
    rw [← hs.below] at hb
    have := unsat_below hcl hb hself
    rw [hterm] at this
    cases this
  have hgone : (t.node w).status = .terminated ∨ t.below w v := by
    rcases hstatus w with hu | he | ⟨-, hb⟩
    · rw [hterm] at hu
      cases hu
    · exact .inl (he.symm.trans hterm)
    · exact .inr hb
  obtain ⟨a, hb, hne, hact⟩ := ha w hw hnot hgone hlen
  rw [← hs.below] at hb
  refine ⟨a, hb, fun hf => hf, ?_⟩
  rcases hstatus a with hu | he | ⟨-, hb'⟩
  · have := unsat_below hcl hb hu
    rw [hterm] at this
    cases this
  · unfold Active
    rw [he]
    exact hact
  · exact absurd hb' hne

/-- The node to hand over is the second child of its parent, and neither it nor
the first child is unsat. -/
theorem selectSplitLoop_pair {ready : Nat → Bool} (fuel : Nat) : ∀ current,
    t.selectSplitLoop ready fuel current = some (.node v) →
      ∃ p lc, (t.node p).children = [lc, v] ∧ (t.node lc).status ≠ .unsat ∧
        (t.node v).status ≠ .unsat := by
  induction fuel with
  | zero =>
    intro current hsel
    cases hsel
  | succ fuel ih =>
    intro current hsel
    unfold selectSplitLoop at hsel
    split at hsel
    · cases hsel
    · cases hsel
    · rename_i lc rc hcs
      split at hsel
      · cases hsel
      split at hsel
      · exact ih rc hsel
      rename_i hlc
      split at hsel
      · exact ih lc hsel
      rename_i hrc
      split at hsel
      · cases hsel
        exact ⟨current, lc, hcs, fun hu => hlc (NodeStatus.isUnsat_iff.2 hu),
          fun hu => hrc (NodeStatus.isUnsat_iff.2 hu)⟩
      · cases hsel
    · cases hsel

theorem selectSplitNode_pair {ready : Nat → Bool} {fuel : Nat}
    (hsel : t.selectSplitNode ready fuel = some (.node v)) :
    ∃ p lc, (t.node p).children = [lc, v] ∧ (t.node lc).status ≠ .unsat ∧
      (t.node v).status ≠ .unsat := by
  unfold selectSplitNode at hsel
  split at hsel
  · cases hsel
  split at hsel
  · cases hsel
  exact selectSplitLoop_pair fuel 0 hsel

/-- Handing over `v` is not what makes the root unsat: a sibling is not. -/
theorem selectSplitNode_sibling (hnd : ∀ v, (t.node v).children.Nodup) {ready : Nat → Bool}
    {fuel : Nat} (hsel : t.selectSplitNode ready fuel = some (.node v)) :
    ∃ p lc, v ∈ (t.node p).children ∧ lc ∈ (t.node p).children ∧ lc ≠ v ∧
      (t.node lc).status ≠ .unsat := by
  obtain ⟨p, lc, hcs, hopen, -⟩ := selectSplitNode_pair hsel
  refine ⟨p, lc, by simp [hcs], by simp [hcs], fun he => ?_, hopen⟩
  have hnd := hnd p
  rw [hcs, he] at hnd
  simp at hnd

theorem splitPath_marked (w : Nat) :
    tree.marked ((terminatePath (v + 1) t v).updateNodeStatus v .unsat) w = true ↔
      w = v ∨ (t.node w).status = .unsat := by
  rw [updateNodeStatus_marked, Bool.or_eq_true, beq_iff_eq, marked_iff,
    (terminatePath_quiet (v + 1) t v).unsat]

theorem splitPath_shape : SameShape t ((terminatePath (v + 1) t v).updateNodeStatus v .unsat) :=
  (terminatePath_quiet (v + 1) t v).toSameShape.trans (updateNodeStatus_shape v .unsat)

/-- A node with a sibling that is not unsat refutes nothing but the nodes below
it. -/
theorem setNodeSplit_down (hg : tree.Grown t) (hroot : t.rootUnsat = false) {p lc : Nat}
    (hv : v ∈ (t.node p).children) (hlc : lc ∈ (t.node p).children) (hne : lc ≠ v)
    (hopen : (t.node lc).status ≠ .unsat) : t.setNodeSplit v =
      tree.pushDownFrom ((terminatePath (v + 1) t v).updateNodeStatus v .unsat) v := by
  have hmarked := splitPath_marked (t := t) (v := v)
  have hs := splitPath_shape (t := t) (v := v)
  unfold setNodeSplit nodeSolvedUnsat
  generalize (terminatePath (v + 1) t v).updateNodeStatus v .unsat = s at *
  -- the way up ends at the parent
  have hup : tree.pushUpFrom 2 s v = s := by
    have hp : tree.parent s v = some p := (hs.parent v).trans ((hg.child p v).1 hv).2
    have hcov : tree.covered 2 s p = false := by
      rw [Bool.eq_false_iff]
      intro hc
      have hmem : lc ∈ tree.children s p := by
        show lc ∈ (s.node p).children
        rw [hs.children]
        exact hlc
      exact ((hmarked lc).1 ((MarkedTree.covered_iff.1 hc).2 lc hmem)).elim hne hopen
    unfold MarkedTree.pushUpFrom
    rw [hp]
    simp only [MarkedTree.pushUp, hcov, Bool.false_eq_true, if_false, ite_self]
  have hv0 : 0 ≠ v := by
    have := hg.parentLt v p ((hg.child p v).1 hv).2
    omega
  have hr : s.rootUnsat = false := by
    rw [Bool.eq_false_iff, Ne, rootUnsat_iff, ← marked_iff, hmarked]
    rintro (he | hu)
    · exact hv0 he
    · rw [rootUnsat_iff.2 hu] at hroot
      cases hroot
  rw [hup]
  simp only [hr, Bool.false_eq_true, if_false]

theorem setNodeSplit_result (hg : tree.Grown t) (hnd : ∀ v, (t.node v).children.Nodup)
    (hroot : t.rootUnsat = false) {ready : Nat → Bool} {fuel : Nat}
    (hsel : t.selectSplitNode ready fuel = some (.node v)) :
    (t.setNodeSplit v).result = t.result := by
  obtain ⟨p, lc, hv, hlc, hne, hopen⟩ := selectSplitNode_sibling hnd hsel
  have hres : ((terminatePath (v + 1) t v).updateNodeStatus v .unsat).result = t.result :=
    (terminatePath_quiet (v + 1) t v).result
  rw [setNodeSplit_down hg hroot hv hlc hne hopen]
  exact tree.pushDownFrom_keeps (P := fun t' => t'.result = t.result) (fun n t' ht' => ht') _ v hres

/-! ## The queue -/

/-- Every node that has to be solved is in the queue, and every node that is
being solved has its process. No solver has found a model. -/
structure Queued (t : ParallelTree) : Prop where
  waiting : ∀ v < t.size, (t.node v).status = .unsolved → v ∈ t.waitings
  process : ∀ v < t.size, (t.node v).status = .solving → (t.node v).assignTo = true
  plain : ∀ v < t.size, (t.node v).status ≠ .sat ∧ (t.node v).status ≠ .error
  lt : ∀ v, v ∈ t.waitings ∨ v ∈ t.solvings → v < t.size

theorem queued_empty : Queued empty :=
  ⟨fun v hv => absurd hv (Nat.not_lt_zero v), fun v hv => absurd hv (Nat.not_lt_zero v),
    fun v hv => absurd hv (Nat.not_lt_zero v), fun v hv => by
      rcases hv with hv | hv <;> cases hv⟩

/-- Nodes end, some of them as soon as they are made. -/
theorem Queued.ending (h : Queued t) (hsize : t.size ≤ t'.size) (hw : t'.waitings = t.waitings)
    (hsol : t'.solvings = t.solvings)
    (hnode : ∀ w < t'.size, (t'.node w).status = .unsat ∨ (t'.node w).status = .terminated ∨
      w < t.size ∧ (t'.node w).status = (t.node w).status ∧
        (t'.node w).assignTo = (t.node w).assignTo) : Queued t' := by
  refine ⟨fun v hv hst => ?_, fun v hv hst => ?_, fun v hv => ?_, fun v hv => ?_⟩
  · rcases hnode v hv with he | he | ⟨hlt, he, -⟩
    · rw [hst] at he
      cases he
    · rw [hst] at he
      cases he
    · rw [hw]
      exact h.waiting v hlt (he.symm.trans hst)
  · rcases hnode v hv with he | he | ⟨hlt, he, hassign⟩
    · rw [hst] at he
      cases he
    · rw [hst] at he
      cases he
    · rw [hassign]
      exact h.process v hlt (he.symm.trans hst)
  · rcases hnode v hv with he | he | ⟨hlt, he, -⟩
    · rw [he]
      decide
    · rw [he]
      decide
    · rw [he]
      exact h.plain v hlt
  · rw [hw, hsol] at hv
    exact Nat.lt_of_lt_of_le (h.lt v hv) hsize

theorem Queued.refuting (h : Queued t) (hs : SameShape t t') (hr : Refuting t t') : Queued t' := by
  refine h.ending (Nat.le_of_eq hs.size.symm) hr.waitings hr.solvings fun w hw => ?_
  rcases hr.node w with hu | he
  · exact .inl hu
  · rw [hs.size] at hw
    rw [he]
    exact .inr (.inr ⟨hw, rfl, rfl⟩)

theorem terminate_queue (v : Nat) : (t.terminate v).waitings = t.waitings ∧
    (t.terminate v).solvings = t.solvings := by
  unfold terminate
  split <;> exact ⟨rfl, rfl⟩

theorem Queued.terminate (h : Queued t) (v : Nat) : Queued (t.terminate v) := by
  have hs := (terminate_quiet (t := t) v).toSameShape
  obtain ⟨hw, hsol⟩ := terminate_queue (t := t) v
  refine h.ending (Nat.le_of_eq hs.size.symm) hw hsol fun w hlt => ?_
  rw [hs.size] at hlt
  unfold ParallelTree.terminate
  split
  · exact .inr (.inr ⟨hlt, rfl, rfl⟩)
  · unfold terminateNode
    rw [modify_node]
    split
    · exact .inr (.inl rfl)
    · exact .inr (.inr ⟨hlt, rfl, rfl⟩)

theorem Queued.terminatePath (fuel : Nat) : ∀ (t : ParallelTree) (v : Nat), Queued t →
    Queued (terminatePath fuel t v) := by
  induction fuel with
  | zero => exact fun _ _ h => h
  | succ fuel ih =>
    intro t v h
    unfold ParallelTree.terminatePath
    simp only
    split
    · exact h.terminate v
    · exact ih _ _ (h.terminate v)

/-- The solver's process is gone with its answer. -/
theorem solverUnsat_refuting (v : Nat) : Refuting t (t.solverUnsat v) := by
  have hr : Refuting (t.modify v fun nd => { nd with assignTo := false }) (t.solverUnsat v) :=
    nodeSolvedUnsat_refuting _ v
  refine ⟨fun w => ?_, hr.waitings, hr.solvings, hr.result⟩
  by_cases hw : w = v
  · rw [hw]
    exact .inl nodeSolvedUnsat_self
  · rcases hr.node w with hu | he
    · exact .inl hu
    · rw [he, modify_node, if_neg hw]
      exact .inr rfl

/-- A node is made, to be solved or unsat. -/
theorem Queued.newNode (h : Queued t) (hs : Shape t) {line : P2C} (ha : t.Allowed (.newNode line))
    (hc : t.newNode line = some t') : Queued t' := by
  obtain ⟨pid, parent, -, -, hcase⟩ := newNode_cases hs ha hc
  have hsize : (t.addNode pid parent).size = t.size + 1 := addNode_size
  have hqueue : (t.addNode pid parent).waitings = t.waitings ∧
      (t.addNode pid parent).solvings = t.solvings := by
    cases parent <;> exact ⟨rfl, rfl⟩
  have hassign : ∀ w, w ≠ t.size →
      ((t.addNode pid parent).node w).assignTo = (t.node w).assignTo := fun w hw =>
    addNode_old ParallelNode.assignTo (fun _ _ => rfl) hw
  rcases hcase with rfl | ⟨-, rfl⟩
  · have hr := nodeSolvedUnsat_refuting (t.addNode pid parent) t.size
    have hsh := nodeSolvedUnsat_shape (t := t.addNode pid parent) (v := t.size)
    refine h.ending ?_ (hr.waitings.trans hqueue.1) (hr.solvings.trans hqueue.2) fun w hlt => ?_
    · rw [hsh.size, hsize]
      exact Nat.le_succ _
    · rw [hsh.size, hsize] at hlt
      by_cases hw : w = t.size
      · rw [hw]
        exact .inl nodeSolvedUnsat_self
      · rcases hr.node w with hu | he
        · exact .inl hu
        · rw [he, addNode_status, if_neg hw, hassign w hw]
          exact .inr (.inr ⟨by omega, rfl, rfl⟩)
  · have hlt : ∀ v < t.size + 1, v ≠ t.size → v < t.size := by omega
    refine ⟨fun v hv hst => ?_, fun v hv hst => ?_, fun v hv => ?_, fun v hv => ?_⟩
    · have hv : v < (t.addNode pid parent).size := hv
      rw [hsize] at hv
      have hst : ((t.addNode pid parent).node v).status = .unsolved := hst
      rw [addNode_status] at hst
      show v ∈ (t.addNode pid parent).waitings ++ [t.size]
      rw [hqueue.1, List.mem_append, List.mem_singleton]
      split at hst
      · rename_i hvs
        exact .inr hvs
      · rename_i hvs
        exact .inl (h.waiting v (hlt v hv hvs) hst)
    · have hv : v < (t.addNode pid parent).size := hv
      rw [hsize] at hv
      have hst : ((t.addNode pid parent).node v).status = .solving := hst
      rw [addNode_status] at hst
      split at hst
      · cases hst
      · rename_i hvs
        exact (hassign v hvs).trans (h.process v (hlt v hv hvs) hst)
    · have hv : v < (t.addNode pid parent).size := hv
      rw [hsize] at hv
      show ((t.addNode pid parent).node v).status ≠ .sat ∧
        ((t.addNode pid parent).node v).status ≠ .error
      rw [addNode_status]
      split
      · decide
      · rename_i hvs
        exact h.plain v (hlt v hv hvs)
    · have hv : v ∈ (t.addNode pid parent).waitings ++ [t.size] ∨
          v ∈ (t.addNode pid parent).solvings := hv
      rw [hqueue.1, hqueue.2, List.mem_append, List.mem_singleton] at hv
      show v < (t.addNode pid parent).size
      rw [hsize]
      rcases hv with (hv | hv) | hv
      · exact Nat.lt_succ_of_lt (h.lt v (.inl hv))
      · omega
      · exact Nat.lt_succ_of_lt (h.lt v (.inr hv))

/-- The next node comes from the queue, and no node to be solved is dropped
before it. -/
theorem getNextWaitingNode_queue {ws rest : List Nat}
    (h : t.getNextWaitingNode ws = some (v, rest)) : v ∈ ws ∧ (∀ w ∈ rest, w ∈ ws) ∧
      ∀ w ∈ ws, (t.node w).status = .unsolved → w = v ∨ w ∈ rest := by
  induction ws with
  | nil => cases h
  | cons u ws ih =>
    unfold getNextWaitingNode at h
    split at h
    · cases h
      refine ⟨List.mem_cons_self, fun w hw => List.mem_cons_of_mem _ hw, fun w hw _ => ?_⟩
      exact List.mem_cons.1 hw
    · rename_i hu
      obtain ⟨hv, hrest, hall⟩ := ih h
      refine ⟨List.mem_cons_of_mem _ hv, fun w hw => List.mem_cons_of_mem _ (hrest w hw),
        fun w hw hst => ?_⟩
      rcases List.mem_cons.1 hw with rfl | hw
      · exact absurd (NodeStatus.isUnsolved_iff.2 hst) hu
      · exact hall w hw hst

theorem getNextWaitingNode_none {ws : List Nat} (h : t.getNextWaitingNode ws = none) :
    ∀ w ∈ ws, (t.node w).status ≠ .unsolved := by
  induction ws with
  | nil => exact fun w hw => by cases hw
  | cons u ws ih =>
    unfold getNextWaitingNode at h
    split at h
    · cases h
    · rename_i hu
      intro w hw hst
      rcases List.mem_cons.1 hw with rfl | hw
      · exact hu (NodeStatus.isUnsolved_iff.2 hst)
      · exact ih h w hw hst

/-- One waiting node gets its solver, or there is none. -/
theorem runWaitingTask_node (w : Nat) : (t.runWaitingTask.node w) = t.node w ∨
    (t.node w).status = .unsolved ∧
      t.runWaitingTask.node w = { t.node w with status := .solving, assignTo := true } := by
  unfold runWaitingTask
  split
  · exact .inl rfl
  · rename_i v rest hnext
    show (({ t with waitings := rest }.modify v fun nd =>
      { nd with status := .solving, assignTo := true }).node w) = t.node w ∨ _ ∧
      (({ t with waitings := rest }.modify v fun nd =>
      { nd with status := .solving, assignTo := true }).node w) = _
    rw [modify_node]
    split
    · rename_i hw
      rw [hw]
      exact .inr ⟨getNextWaitingNode_unsolved hnext, rfl⟩
    · exact .inl rfl

theorem Attended.runWaitingTask (h : t.Attended nobody nobody) :
    t.runWaitingTask.Attended nobody nobody := by
  have hs := (runWaitingTask_quiet (t := t)).toSameShape
  intro w hw _ hterm hlen
  have hterm := hterm.resolve_right fun hf => hf
  rw [hs.size] at hw
  rw [hs.children] at hlen
  have hold : (t.node w).status = .terminated := by
    rcases runWaitingTask_node (t := t) w with he | ⟨-, he⟩
    · rwa [he] at hterm
    · rw [he] at hterm
      cases hterm
  obtain ⟨a, hb, -, hact⟩ := h w hw (fun hf => hf) (.inl hold) hlen
  rw [← hs.below] at hb
  refine ⟨a, hb, fun hf => hf, ?_⟩
  unfold Active
  rcases runWaitingTask_node (t := t) a with he | ⟨-, he⟩
  · rw [he]
    exact hact
  · rw [he]
    exact .inr rfl

theorem Queued.runWaitingTask (h : Queued t) : Queued t.runWaitingTask := by
  have hs := (runWaitingTask_quiet (t := t)).toSameShape
  refine ⟨fun w hw hst => ?_, fun w hw hst => ?_, fun w hw => ?_, fun w hw => ?_⟩
  · rw [hs.size] at hw
    have hold : t.runWaitingTask.node w = t.node w := by
      rcases runWaitingTask_node (t := t) w with he | ⟨-, he⟩
      · exact he
      · rw [he] at hst
        cases hst
    rw [hold] at hst
    have hmem := h.waiting w hw hst
    unfold ParallelTree.runWaitingTask at hold ⊢
    split
    · rename_i hnone
      exact absurd hst (getNextWaitingNode_none hnone w hmem)
    · rename_i v rest hnext
      rw [hnext] at hold
      rcases (getNextWaitingNode_queue hnext).2.2 w hmem hst with rfl | hrest
      · have hnow : ((({ t with waitings := rest } : ParallelTree).assignNode w).node w).status =
            .solving := by
          show ((({ t with waitings := rest } : ParallelTree).modify w fun nd =>
            { nd with status := .solving, assignTo := true }).node w).status = .solving
          rw [modify_node, if_pos rfl]
        rw [show ((({ t with waitings := rest } : ParallelTree).assignNode w).node w) = t.node w
          from hold, hst] at hnow
        cases hnow
      · exact hrest
  · rw [hs.size] at hw
    rcases runWaitingTask_node (t := t) w with he | ⟨-, he⟩
    · rw [he] at hst ⊢
      exact h.process w hw hst
    · rw [he]
  · rw [hs.size] at hw
    rcases runWaitingTask_node (t := t) w with he | ⟨-, he⟩
    · rw [he]
      exact h.plain w hw
    · rw [he]
      exact ⟨fun hf => (by cases hf), fun hf => by cases hf⟩
  · rw [hs.size]
    unfold ParallelTree.runWaitingTask at hw
    split at hw
    · rcases hw with hw | hw
      · cases hw
      · exact h.lt w (.inr hw)
    · rename_i v rest hnext
      obtain ⟨hv, hrest, -⟩ := getNextWaitingNode_queue hnext
      rcases hw with hw | hw
      · exact h.lt w (.inl (hrest w hw))
      · rcases List.mem_append.1 hw with hw | hw
        · exact h.lt w (.inr hw)
        · rw [List.mem_singleton.1 hw]
          exact h.lt v (.inl hv)

/-! ## The result of the tree -/

theorem isDone_iff : t.isDone = true ↔ t.result = .sat ∨ t.result = .unsat := by
  unfold isDone
  exact NodeStatus.isSolved_iff

theorem isDone_congr (h : t'.result = t.result) : t'.isDone = t.isDone := by
  unfold isDone
  rw [h]

theorem root_open {E : Nat → Option Nat → Prop} {D : Nat → Prop} (h : Kept E D t)
    (hd : t.isDone = false) : t.rootUnsat = false := by
  rw [Bool.eq_false_iff, Ne, ← h.marks.result]
  intro hu
  rw [isDone_iff.2 (.inr hu)] at hd
  cases hd

theorem newNode_result {line : P2C} (hc : t.newNode line = some t') :
    t'.result = .unsat ∨ t'.result = t.result := by
  obtain ⟨pid, parent, hcase⟩ := newNode_made hc
  have hr : (t.addNode pid parent).result = t.result := addNode_result
  rcases hcase with rfl | rfl
  · rcases (nodeSolvedUnsat_refuting (t.addNode pid parent) t.size).result with hu | he
    · exact .inl hu
    · exact .inr (he.trans hr)
  · exact .inr hr

/-- A line about a node that the partitioner does not refute is no verdict. -/
theorem newUnknown_undone {E : Nat → Option Nat → Prop} {D : Nat → Prop} (h : Kept E D t)
    {pid : Nat} {ppid : Option Nat} (ha : t.Allowed (.newNode (.newUnknownNode pid ppid)))
    (hc : t.newNode (.newUnknownNode pid ppid) = some t') (hd : t.isDone = false) :
    t'.isDone = false := by
  rcases newNode_result hc with hu | he
  · have hder := (h.newUnknown ha hc).marks.result_iff.1 hu
    obtain ⟨q, parent, hr, hq, hcase⟩ := newNode_cases h.shape ha hc
    have hs : SameShape (t.addNode q parent) t' := by
      rcases hcase with rfl | ⟨-, rfl⟩
      · exact nodeSolvedUnsat_shape
      · exact (appendWaiting_quiet _).toSameShape
    have hno : ¬ D q := fun hD => by
      have := h.known q hD
      rw [hq] at this
      cases this
    rw [hs.derived, addNode_derived h.shape hr hno] at hder
    split at hder
    · rename_i hsize
      obtain ⟨p, hp, -⟩ := hder
      have := (hr.lt hp).1
      omega
    · rw [isDone_iff.2 (.inr (h.marks.result_iff.2 hder))] at hd
      cases hd
  · rw [isDone_congr he]
    exact hd

end ParallelTree

namespace Coordinator
open ParallelTree

variable {c c' : Coordinator} {v : Nat}

/-! ## What the functions of the coordinator leave alone -/

/-- Only the tree and what is sent may be different. -/
structure SameRound (c c' : Coordinator) : Prop where
  status : c'.status = c.status
  result : c'.result = c.result
  partitioner : c'.partitioner = c.partitioner

theorem SameRound.refl (c : Coordinator) : SameRound c c := ⟨rfl, rfl, rfl⟩

theorem SameRound.trans {c₁ c₂ c₃ : Coordinator} (h : SameRound c₁ c₂) (h' : SameRound c₂ c₃) :
    SameRound c₁ c₃ :=
  ⟨h'.status.trans h.status, h'.result.trans h.result, h'.partitioner.trans h.partitioner⟩

theorem sendPartitionerMessage_same (line : C2P) : SameRound c (c.sendPartitionerMessage line) := by
  unfold sendPartitionerMessage
  split <;> exact ⟨rfl, rfl, rfl⟩

theorem sendPartitionerMessage_tree (line : C2P) :
    (c.sendPartitionerMessage line).tree = c.tree := by
  unfold sendPartitionerMessage
  split <;> rfl

theorem terminateNode_same (v : Nat) : SameRound c (c.terminateNode v) := by
  unfold terminateNode
  split
  · exact .refl c
  · have hset : SameRound c { c with tree := c.tree.terminateNode v } := ⟨rfl, rfl, rfl⟩
    exact hset.trans (sendPartitionerMessage_same _)

theorem terminateNode_tree (v : Nat) : (c.terminateNode v).tree = c.tree.terminate v := by
  unfold terminateNode ParallelTree.terminate
  split
  · rfl
  · rw [sendPartitionerMessage_tree]

theorem terminatePath_same (fuel : Nat) : ∀ (c : Coordinator) (v : Nat),
    SameRound c (terminatePath fuel c v) := by
  induction fuel with
  | zero => exact fun c _ => .refl c
  | succ fuel ih =>
    intro c v
    unfold terminatePath
    simp only
    split
    · exact terminateNode_same v
    · exact (terminateNode_same v).trans (ih _ _)

theorem terminatePath_tree (fuel : Nat) : ∀ (c : Coordinator) (v : Nat),
    (terminatePath fuel c v).tree = ParallelTree.terminatePath fuel c.tree v := by
  induction fuel with
  | zero => exact fun c _ => rfl
  | succ fuel ih =>
    intro c v
    have ht := terminateNode_tree (c := c) v
    unfold terminatePath ParallelTree.terminatePath
    simp only [ht]
    cases ((c.tree.terminate v).node v).parent with
    | none => exact ht
    | some p => exact (ih _ p).trans (congrArg (ParallelTree.terminatePath fuel · p) ht)

theorem setNodeSplit_same (v : Nat) : SameRound c (c.setNodeSplit v) := by
  have hpath := terminatePath_same (v + 1) c v
  have hset : SameRound c { terminatePath (v + 1) c v with
      tree := (terminatePath (v + 1) c v).tree.nodeSolvedUnsat v } :=
    ⟨hpath.status, hpath.result, hpath.partitioner⟩
  exact hset.trans (sendPartitionerMessage_same _)

theorem setNodeSplit_tree (v : Nat) : (c.setNodeSplit v).tree = c.tree.setNodeSplit v := by
  unfold setNodeSplit ParallelTree.setNodeSplit
  rw [sendPartitionerMessage_tree]
  exact congrArg (·.nodeSolvedUnsat v) (terminatePath_tree (v + 1) c v)

/-- Nothing is decided after `is_done` only if nothing was before, and the tree
is not done. -/
theorem afterIsDone_unsolved (h : c.afterIsDone.result = .unsolved) :
    c.result = .unsolved ∧ c.tree.isDone = false := by
  have h : c.reader.afterIsDone.result = .unsolved := h
  unfold PrePartition.afterIsDone at h
  split at h
  · rename_i hs
    have hr : c.reader.result = .unsolved := h
    rw [hr] at hs
    cases hs
  split at h
  · rename_i hd
    have hr : c.reader.tree.result = .unsolved := h
    rcases isDone_iff.1 hd with he | he <;> rw [hr] at he <;> cases he
  · rename_i hd
    exact ⟨h, Bool.eq_false_iff.2 hd⟩

/-! ## A round without a result -/

/-- All lines are read, and there is no verdict. -/
def Ending (c : Coordinator) : Prop := c.partitioner = .receiveDone ∧ c.result = .unsolved

/-- The steps that abandon no node: once all lines are read, a terminated node
with fewer than two children has an active node above it. -/
def Keeps (c : Coordinator) : Action → Prop
  | .receiveDone => c.result = .unsolved → 0 < c.tree.size ∧ c.tree.Attended nobody nobody
  | .check v .error => c.Ending → (c.tree.node v).status = .solving →
      c.tree.Attended (· = v) nobody
  | .check v (.running true) => c.Ending → (c.tree.node v).status = .solving → v ≠ 0 →
      c.tree.Attended (· = v) nobody
  | .split v => c.Ending → c.tree.Attended (fun a => c.tree.below a v) (fun w => c.tree.below v w)
  | _ => True

/-- What holds while a round goes on without a result. -/
structure Working (c : Coordinator) : Prop where
  kept : ∃ E D, Kept E D c.tree
  undone : c.tree.isDone = false
  queued : Queued c.tree
  attended : c.partitioner = .receiveDone →
    0 < c.tree.size ∧ c.tree.Attended nobody nobody

theorem working_start : startSolving.Working :=
  ⟨⟨_, _, kept_empty⟩, rfl, queued_empty, fun hf => by cases hf⟩

/-- The tree is all that a step has changed, and it has the same shape. -/
theorem Working.step (h : c.Working) {E : Nat → Option Nat → Prop} {D : Nat → Prop}
    (hk : Kept E D c'.tree) (hd : c'.tree.isDone = false) (hq : Queued c'.tree)
    (hp : c'.partitioner = c.partitioner) (hsize : c'.tree.size = c.tree.size)
    (ha : c.partitioner = .receiveDone → c.tree.Attended nobody nobody →
      c'.tree.Attended nobody nobody) : c'.Working := by
  refine ⟨⟨E, D, hk⟩, hd, hq, fun hr => ?_⟩
  rw [hp] at hr
  obtain ⟨hs, hold⟩ := h.attended hr
  rw [hsize]
  exact ⟨hs, ha hr hold⟩

theorem Working.terminateNode (h : c.Working)
    (hkeep : c.partitioner = .receiveDone → c.tree.Attended (· = v) nobody) :
    (c.terminateNode v).Working := by
  obtain ⟨E, D, hk⟩ := h.kept
  have hq := terminate_quiet (t := c.tree) v
  have hsame := terminateNode_same (c := c) v
  refine h.step (E := E) (D := D) ?_ ?_ ?_ hsame.partitioner ?_ fun hr _ => ?_ <;>
    rw [terminateNode_tree]
  · exact hk.quiet hq
  · rw [isDone_congr hq.result]
    exact h.undone
  · exact h.queued.terminate v
  · exact hq.toSameShape.size
  · exact (hkeep hr).terminate

/-- **One line.** -/
theorem Working.line (h : c.Working) (hp : c.partitioner ≠ .receiveDone) {l : PrePartition.Line}
    (ha : c.reader.Allowed l) (hc : c.processPartitionerMsg l = some c')
    (hu : c'.result = .unsolved) : c'.Working := by
  obtain ⟨E, D, hk⟩ := h.kept
  obtain ⟨s, hs, rfl⟩ := Option.map_eq_some_iff.1 hc
  cases l with
  | node line =>
    have ha : c.tree.Allowed (.newNode line) := ha
    cases line with
    | newUnsatNode pid ppid =>
      obtain ⟨t, ht, rfl⟩ := Option.map_eq_some_iff.1 hs
      have ht : c.tree.newNode (.newUnsatNode pid ppid) = some t := ht
      have hafter : ({ c with tree := t } : Coordinator).afterIsDone.result = .unsolved := hu
      have htree : ({ c.reader with tree := t } : PrePartition).afterIsDone.tree = t :=
        (PrePartition.afterIsDone_eq).1
      have hk' := hk.newUnsat ha ht
      have hd' := (afterIsDone_unsolved hafter).2
      have hq' := h.queued.newNode hk.shape ha ht
      rw [← htree] at hk' hq'
      exact ⟨⟨_, _, hk'⟩, (congrArg ParallelTree.isDone htree).trans hd', hq', fun hr => absurd hr hp⟩
    | newUnknownNode pid ppid =>
      obtain ⟨t, ht, rfl⟩ := Option.map_eq_some_iff.1 hs
      have ht : c.tree.newNode (.newUnknownNode pid ppid) = some t := ht
      exact ⟨⟨_, _, hk.newUnknown ha ht⟩, newUnknown_undone hk ha ht h.undone,
        h.queued.newNode hk.shape ha ht, fun hr => absurd hr hp⟩
  | unknown =>
    simp only [PrePartition.processPartitionerMsg] at hs
    split at hs
    · cases hs
    · cases hs
      exact ⟨⟨E, D, hk⟩, h.undone, h.queued, fun hr => absurd hr hp⟩
  | sat | unsat | other =>
    cases hs
    exact ⟨⟨E, D, hk⟩, h.undone, h.queued, fun hr => absurd hr hp⟩

/-- **A solver's answer.** -/
theorem Working.solverUnsat (h : c.Working) (hv : v < c.tree.size)
    (hd : (c.tree.solverUnsat v).isDone = false) (hp : c'.partitioner = c.partitioner)
    (ht : c'.tree = c.tree.solverUnsat v) : c'.Working := by
  obtain ⟨E, D, hk⟩ := h.kept
  have hs : SameShape c.tree (c.tree.solverUnsat v) :=
    (unassign_quiet v).toSameShape.trans nodeSolvedUnsat_shape
  have hr := solverUnsat_refuting (t := c.tree) v
  have hpid := hk.shape.number hv
  have hk' : Kept E (With D (c.tree.node v).pid) (c.tree.solverUnsat v) :=
    (hk.quiet (unassign_quiet v)).solvedUnsat (by rwa [(unassign_quiet (t := c.tree) v).pid2node])
  refine h.step (E := E) (D := With D (c.tree.node v).pid) ?_ ?_ ?_ hp ?_ fun _ ha => ?_ <;> rw [ht]
  · exact hk'
  · exact hd
  · exact h.queued.refuting hs hr
  · exact hs.size
  · exact ha.refuting hs hr (hk'.marks.closed (root_open hk' hd))

theorem Working.check (h : c.Working) (hv : v < c.tree.size) {o : SolverOutcome}
    (hkeep : c.Keeps (.check v o)) (hc : c.result = .unsolved)
    (hu : (c.checkSolvingStatus v o).result = .unsolved) : (c.checkSolvingStatus v o).Working := by
  unfold checkSolvingStatus at hu ⊢
  split
  · rename_i hst
    have hst := NodeStatus.isSolving_iff.1 hst
    cases o with
    | error => exact h.terminateNode fun hr => hkeep ⟨hr, hc⟩ hst
    | running timeUp =>
      simp only
      split
      · rename_i htime
        rw [Bool.and_eq_true, bne_iff_ne] at htime
        obtain ⟨rfl, hroot⟩ := htime
        exact h.terminateNode fun hr => hkeep ⟨hr, hc⟩ hst hroot
      · exact h
    | sat =>
      -- the tree has a result then
      rw [if_pos (NodeStatus.isSolving_iff.2 hst)] at hu
      have hdone := (afterIsDone_unsolved hu).2
      cases hdone
    | unsat =>
      rw [if_pos (NodeStatus.isSolving_iff.2 hst)] at hu
      have hafter : ({ c with tree := c.tree.solverUnsat v } : Coordinator).afterIsDone.result =
          .unsolved := by
        simp only at hu
        split at hu
        · exact hu
        · rwa [(sendPartitionerMessage_same _).result] at hu
      have hd := (afterIsDone_unsolved hafter).2
      simp only
      split
      · exact h.solverUnsat hv hd rfl rfl
      · exact h.solverUnsat hv hd (sendPartitionerMessage_same _).partitioner
          (sendPartitionerMessage_tree _)
  · exact h

/-- **A node handed over.** -/
theorem Working.split (h : c.Working) {ready : Nat → Bool} {fuel : Nat}
    (hsel : c.tree.selectSplitNode ready fuel = some (.node v)) (hkeep : c.Keeps (.split v))
    (hc : c.result = .unsolved) : (c.setNodeSplit v).Working := by
  obtain ⟨E, D, hk⟩ := h.kept
  have hroot := root_open hk h.undone
  have hv : v < c.tree.size := by
    obtain ⟨p, -, hmem, -⟩ := selectSplitNode_sibling hk.shape.nodup hsel
    exact (hk.shape.child_lt hmem).2
  have hq := terminatePath_quiet (v + 1) c.tree v
  have hs : SameShape c.tree (c.tree.setNodeSplit v) := hq.toSameShape.trans nodeSolvedUnsat_shape
  have hk' : Kept E (With D (c.tree.node v).pid) (c.tree.setNodeSplit v) :=
    (hk.quiet hq).solvedUnsat (by rw [hq.pid2node]; exact hk.shape.number hv)
  have hd : (c.tree.setNodeSplit v).isDone = false :=
    (isDone_congr (setNodeSplit_result hk.shape.grown hk.shape.nodup hroot hsel)).trans h.undone
  refine h.step (E := E) (D := With D (c.tree.node v).pid) ?_ ?_ ?_
    (setNodeSplit_same v).partitioner ?_ fun hr _ => ?_ <;> rw [setNodeSplit_tree]
  · exact hk'
  · exact hd
  · exact (h.queued.terminatePath (v + 1) c.tree v).refuting nodeSolvedUnsat_shape
      (nodeSolvedUnsat_refuting _ v)
  · exact hs.size
  · exact Attended.split hk.shape hv (hkeep ⟨hr, hc⟩) (hk'.marks.closed (root_open hk' hd))

theorem Working.runWaitingTask (h : c.Working) :
    ({ c with tree := c.tree.runWaitingTask } : Coordinator).Working := by
  obtain ⟨E, D, hk⟩ := h.kept
  have hq := runWaitingTask_quiet (t := c.tree)
  exact h.step (hk.quiet hq) ((isDone_congr hq.result).trans h.undone) h.queued.runWaitingTask rfl
    hq.toSameShape.size fun _ ha => ha.runWaitingTask

theorem Working.keepSolvings (h : c.Working) {vs : List Nat} (hvs : vs.Sublist c.tree.solvings) :
    (c.keepSolvings vs).Working := by
  obtain ⟨E, D, hk⟩ := h.kept
  have hq : Quiet c.tree (c.keepSolvings vs).tree :=
    ⟨⟨rfl, rfl, fun _ => rfl, fun _ => rfl, fun _ => rfl⟩, fun _ => .rfl, rfl⟩
  refine h.step (hk.quiet hq) h.undone ⟨h.queued.waiting, h.queued.process, h.queued.plain,
    fun w hw => h.queued.lt w ?_⟩ rfl rfl fun _ ha => ha
  exact hw.imp_right fun hs => hvs.subset hs

/-! ## Runs -/

/-- A line takes no verdict back. -/
theorem processPartitionerMsg_unsolved {l : PrePartition.Line}
    (hc : c.processPartitionerMsg l = some c') (hu : c'.result = .unsolved) :
    c'.status = c.status ∧ c.result = .unsolved := by
  obtain ⟨s, hs, rfl⟩ := Option.map_eq_some_iff.1 hc
  refine ⟨rfl, ?_⟩
  have hu : s.result = .unsolved := hu
  cases l with
  | node line =>
    cases line with
    | newUnsatNode pid ppid =>
      obtain ⟨t, -, rfl⟩ := Option.map_eq_some_iff.1 hs
      have hafter : ({ c with tree := t } : Coordinator).afterIsDone.result = .unsolved := hu
      exact (afterIsDone_unsolved hafter).1
    | newUnknownNode pid ppid =>
      obtain ⟨t, -, rfl⟩ := Option.map_eq_some_iff.1 hs
      exact hu
  | unknown =>
    simp only [PrePartition.processPartitionerMsg] at hs
    split at hs
    · cases hs
    · cases hs
      exact hu
  | sat | unsat =>
    cases hs
    cases hu
  | other =>
    cases hs
    exact hu

theorem checkSolvingStatus_unsolved {o : SolverOutcome}
    (hu : (c.checkSolvingStatus v o).result = .unsolved) : c.result = .unsolved := by
  unfold checkSolvingStatus at hu
  split at hu
  · cases o with
    | error => rwa [(terminateNode_same v).result] at hu
    | running timeUp =>
      simp only at hu
      split at hu
      · rwa [(terminateNode_same v).result] at hu
      · exact hu
    | sat => exact (afterIsDone_unsolved hu).1
    | unsat =>
      simp only at hu
      split at hu
      · exact (afterIsDone_unsolved hu).1
      · rw [(sendPartitionerMessage_same _).result] at hu
        exact (afterIsDone_unsolved hu).1
  · exact hu

theorem working_inductive (cores : Nat) : ((distCoordinator cores).restrict Keeps).Inductive
    fun c => c.status = .solving → c.result = .unsolved → c.Working := by
  constructor
  · intro c hc hs
    rw [show c = idle from hc] at hs
    cases hs
  · rintro c a c' hI ⟨hkeep, hstep⟩ hs hu
    cases hstep with
    | startSolving _ => exact working_start
    | line hst hp ha hc =>
      exact (hI hst (processPartitionerMsg_unsolved hc hu).2).line hp ha hc hu
    | processDone hst hp =>
      obtain ⟨hk, hd, hq, -⟩ := hI hst hu
      exact ⟨hk, hd, hq, fun hf => by cases hf⟩
    | receiveDone hst hp =>
      obtain ⟨hk, hd, hq, -⟩ := hI hst hu
      exact ⟨hk, hd, hq, fun _ => hkeep hu⟩
    | @check v o hst hv =>
      have hu' := checkSolvingStatus_unsolved hu
      have h := hI hst hu'
      exact h.check (h.queued.lt v (.inr hv)) hkeep hu' hu
    | keepSolvings hst hvs _ => exact (hI hst hu).keepSolvings hvs
    | runWaitingTask hst _ => exact (hI hst hu).runWaitingTask
    | split hst hsel =>
      rw [(setNodeSplit_same _).result] at hu
      exact (hI hst hu).split hsel hkeep hu
    | roundDone _ _ => cases hs

/-- **A coordinator that abandons no node does not run dry.** Whatever the
partitioner writes, the solvers answer and the leader asks for: while the
round has no result, the partitioner may still write, or some node is being
solved by a process, or some node is in the queue to be solved. This holds in
every run in which, once all lines are read, each terminated node with fewer
than two children keeps an active node above it. -/
theorem coordinator_attended {cores : Nat} {c : Coordinator}
    (hr : ((distCoordinator cores).restrict Keeps).Reachable c) (hs : c.status = .solving)
    (hu : c.result = .unsolved) : c.partitioner ≠ .receiveDone ∨
      (∃ v < c.tree.size, (c.tree.node v).status = .solving ∧ (c.tree.node v).assignTo = true) ∨
      ∃ v < c.tree.size, (c.tree.node v).status = .unsolved ∧ v ∈ c.tree.waitings := by
  have h := (working_inductive cores).reachable hr hs hu
  by_cases hp : c.partitioner = .receiveDone
  · right
    obtain ⟨E, D, hk⟩ := h.kept
    obtain ⟨hsize, ha⟩ := h.attended hp
    have hroot := root_open hk h.undone
    obtain ⟨v, hv, hact⟩ := exists_active hk.shape (hk.marks.closed hroot) hsize hroot
      h.queued.plain ha
    rcases hact with hun | hso
    · exact .inr ⟨v, hv, hun, h.queued.waiting v hv hun⟩
    · exact .inl ⟨v, hv, hso, h.queued.process v hv hso⟩
  · exact .inl hp

/-- A root, its children 1 and 2 and the children 3 and 4 of node 1. -/
def fiveNodes : ParallelTree :=
  ((((empty.addNode 0 none).addNode 1 (some 0)).addNode 2 (some 0)).addNode 3 (some 1)).addNode 4
    (some 1)

/-- The processes of the nodes of `fiveNodes`. -/
def fiveAssigned : ParallelTree :=
  ((((fiveNodes.assignNode 0).assignNode 1).assignNode 2).assignNode 3).assignNode 4

theorem fiveAssigned_reachable : ((distCoordinator 5).restrict Keeps).Reachable
    { startSolving with tree := fiveAssigned } := by
  let M := (distCoordinator 5).restrict Keeps
  have h₀ : M.Reachable startSolving :=
    LTS.Reachable.step (l := .startSolving) (.init rfl) ⟨trivial, .startSolving rfl⟩
  -- the five lines
  have h₁ : M.Reachable
      { startSolving with tree := { empty.addNode 0 none with waitings := [0] } } :=
    h₀.step (l := .line (.node (.newUnknownNode 0 none)))
      ⟨trivial, .line rfl (by decide) ⟨rfl, rfl⟩ rfl⟩
  have h₂ : M.Reachable { startSolving with
      tree := { (empty.addNode 0 none).addNode 1 (some 0) with waitings := [0, 1] } } :=
    h₁.step (l := .line (.node (.newUnknownNode 1 (some 0))))
      ⟨trivial, .line rfl (by decide) ⟨rfl, 0, rfl, by decide⟩ rfl⟩
  have h₃ : M.Reachable { startSolving with
      tree := { ((empty.addNode 0 none).addNode 1 (some 0)).addNode 2 (some 0) with
        waitings := [0, 1, 2] } } :=
    h₂.step (l := .line (.node (.newUnknownNode 2 (some 0))))
      ⟨trivial, .line rfl (by decide) ⟨rfl, 0, rfl, by decide⟩ rfl⟩
  have h₄ : M.Reachable { startSolving with
      tree := { (((empty.addNode 0 none).addNode 1 (some 0)).addNode 2 (some 0)).addNode 3
        (some 1) with waitings := [0, 1, 2, 3] } } :=
    h₃.step (l := .line (.node (.newUnknownNode 3 (some 1))))
      ⟨trivial, .line rfl (by decide) ⟨rfl, 1, rfl, by decide⟩ rfl⟩
  have h₅ : M.Reachable
      { startSolving with tree := { fiveNodes with waitings := [0, 1, 2, 3, 4] } } :=
    h₄.step (l := .line (.node (.newUnknownNode 4 (some 1))))
      ⟨trivial, .line rfl (by decide) ⟨rfl, 1, rfl, by decide⟩ rfl⟩
  -- a process for each node
  have h₆ : M.Reachable
      { startSolving with tree := { fiveNodes.assignNode 0 with waitings := [1, 2, 3, 4] } } :=
    h₅.step (l := .runWaitingTask) ⟨trivial, .runWaitingTask rfl (by decide)⟩
  have h₇ : M.Reachable { startSolving with
      tree := { (fiveNodes.assignNode 0).assignNode 1 with waitings := [2, 3, 4] } } :=
    h₆.step (l := .runWaitingTask) ⟨trivial, .runWaitingTask rfl (by decide)⟩
  have h₈ : M.Reachable { startSolving with
      tree := { ((fiveNodes.assignNode 0).assignNode 1).assignNode 2 with
        waitings := [3, 4] } } :=
    h₇.step (l := .runWaitingTask) ⟨trivial, .runWaitingTask rfl (by decide)⟩
  have h₉ : M.Reachable { startSolving with
      tree := { (((fiveNodes.assignNode 0).assignNode 1).assignNode 2).assignNode 3 with
        waitings := [4] } } :=
    h₈.step (l := .runWaitingTask) ⟨trivial, .runWaitingTask rfl (by decide)⟩
  exact h₉.step (l := .runWaitingTask) ⟨trivial, .runWaitingTask rfl (by decide)⟩

theorem fiveAssigned_status {w : Nat} (hw : w < 5) :
    (fiveAssigned.node w).status = .solving := by
  match w with
  | 0 | 1 | 2 | 3 | 4 => rfl

/-- The solver of the root fails when all lines are read, then that of node 3,
which node 1 attends. -/
theorem coordinator_attended_five : ∃ c, ((distCoordinator 5).restrict Keeps).Reachable c ∧
    (c.tree.node 0).status = .terminated ∧ (c.tree.node 3).status = .terminated ∧
      (c.partitioner ≠ .receiveDone ∨
        (∃ v < c.tree.size, (c.tree.node v).status = .solving ∧
          (c.tree.node v).assignTo = true) ∨
        ∃ v < c.tree.size, (c.tree.node v).status = .unsolved ∧ v ∈ c.tree.waitings) := by
  let M := (distCoordinator 5).restrict Keeps
  have hdone : M.Reachable
      { startSolving with tree := fiveAssigned, partitioner := .processDone } :=
    fiveAssigned_reachable.step (l := .processDone) ⟨trivial, .processDone rfl rfl⟩
  have hread : M.Reachable
      { startSolving with tree := fiveAssigned, partitioner := .receiveDone } := by
    refine hdone.step (l := .receiveDone) ⟨fun _ => ⟨by decide, ?_⟩, .receiveDone rfl rfl⟩
    intro w hw _ hterm _
    rcases hterm with hf | hf
    · rw [show (_ : NodeStatus) = .solving from fiveAssigned_status hw] at hf
      cases hf
    · exact hf.elim
  have hroot : M.Reachable { startSolving with
      tree := fiveAssigned.terminateNode 0, partitioner := .receiveDone } := by
    refine hread.step (l := .check 0 .error) ⟨fun _ _ => ?_, .check .error rfl (by decide)⟩
    intro w hw _ hterm hlen
    rcases hterm with hf | rfl
    · rw [show (_ : NodeStatus) = .solving from fiveAssigned_status hw] at hf
      cases hf
    · -- the root has two children
      exact absurd hlen (by decide)
  have hleaf : M.Reachable { startSolving with
      tree := (fiveAssigned.terminateNode 0).terminateNode 3, partitioner := .receiveDone } := by
    refine hroot.step (l := .check 3 .error) ⟨fun _ _ => ?_, .check .error rfl (by decide)⟩
    intro w hw _ hterm hlen
    -- node 3 is the only such leaf
    have hw3 : w = 3 := by
      match w with
      | 0 => exact absurd hlen (by decide)
      | 1 | 2 | 4 => rcases hterm with hf | hf <;> cases hf
      | 3 => rfl
    rw [hw3]
    exact ⟨1, .head (List.mem_cons_self ..) .refl, by decide, .inr rfl⟩
  exact ⟨_, hleaf, rfl, rfl, coordinator_attended hleaf rfl rfl⟩

/-- The partitioner finds nothing to split, and the solver of the root fails:
the root is terminated, and nothing is left to do. -/
theorem coordinator_dry : ∃ c, (distCoordinator 1).Reachable c ∧ c.status = .solving ∧
    c.result = .unsolved ∧ ¬ (c.partitioner ≠ .receiveDone ∨
      (∃ v < c.tree.size, (c.tree.node v).status = .solving ∧ (c.tree.node v).assignTo = true) ∨
      ∃ v < c.tree.size, (c.tree.node v).status = .unsolved ∧ v ∈ c.tree.waitings) := by
  have start : Step 1 idle .startSolving _ := .startSolving rfl
  have root : Step 1 startSolving (.line (.node (.newUnknownNode 0 none))) _ :=
    .line rfl (by decide) ⟨rfl, rfl⟩ rfl
  refine ⟨_, .step (.step (.step (.step (.step (.step (.step (.init rfl) start) root)
    (.runWaitingTask rfl Nat.zero_lt_one))
    (show Step 1 _ (.line .unknown) _ from .line rfl (by decide) trivial rfl))
    (.processDone rfl rfl)) (.receiveDone rfl rfl))
    (show Step 1 _ (.check 0 .error) _ from .check .error rfl (by decide)), rfl, rfl, ?_⟩
  rintro (hp | ⟨v, hv, hst, -⟩ | ⟨v, hv, hst, -⟩)
  · exact hp rfl
  all_goals
    obtain rfl := Nat.lt_one_iff.1 hv
    cases hst

end Coordinator

end AriParti.L3
