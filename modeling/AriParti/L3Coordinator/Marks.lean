import AriParti.L3Coordinator.ParallelTree

/-!
# What the coordinator's tree calls unsat

The statuses of `ParallelTree` are kept up to date node by node: up from a
refuted node while both children are unsat, and down to everything below it.
A node is made below a refuted one as well, and is then refuted at once.

## Results

* `Shape.addNode`: the links stay those of a tree when a node is made.
* `solvedUnsat_marks`: one refutation closes the unsat nodes again.
* `Marks.addNode`, `Marks.addRefuted`: so does a new node, refuted or not.
-/
namespace AriParti.L3
open AriParti.Core AriParti.L2

namespace ParallelTree

variable {t t' : ParallelTree} {v w : Nat} {D D' : Nat → Prop}

/-! ## The shape of the tree -/

/-- Children know their parent, and only the root has none; a node has two
children at most, and one number of the partitioner. -/
structure Shape (t : ParallelTree) : Prop where
  grown : tree.Grown t
  parent : ∀ v < t.size, (t.node v).parent = none → v = 0
  two : ∀ v, (t.node v).children.length ≤ 2
  nodup : ∀ v, (t.node v).children.Nodup
  pids : ∀ pid v, t.pid2node pid = some v ↔ v < t.size ∧ (t.node v).pid = pid

/-- Another tree of the same shape. -/
structure SameShape (t t' : ParallelTree) : Prop where
  size : t'.size = t.size
  pid2node : t'.pid2node = t.pid2node
  pid : ∀ v, (t'.node v).pid = (t.node v).pid
  parent : ∀ v, (t'.node v).parent = (t.node v).parent
  children : ∀ v, (t'.node v).children = (t.node v).children

theorem SameShape.refl (t : ParallelTree) : SameShape t t :=
  ⟨rfl, rfl, fun _ => rfl, fun _ => rfl, fun _ => rfl⟩

theorem SameShape.trans {t₁ t₂ t₃ : ParallelTree} (h : SameShape t₁ t₂) (h' : SameShape t₂ t₃) :
    SameShape t₁ t₃ :=
  ⟨h'.size.trans h.size, h'.pid2node.trans h.pid2node, fun v => (h'.pid v).trans (h.pid v),
    fun v => (h'.parent v).trans (h.parent v), fun v => (h'.children v).trans (h.children v)⟩

theorem modify_node (f : ParallelNode → ParallelNode) :
    (t.modify v f).node w = if w = v then f (t.node v) else t.node w := by
  simp [modify, Function.update_apply]

/-- An update that leaves the numbers and the links of the node alone. -/
theorem sameShape_modify {f : ParallelNode → ParallelNode}
    (hf : ∀ nd, (f nd).pid = nd.pid ∧ (f nd).parent = nd.parent ∧ (f nd).children = nd.children) :
    SameShape t (t.modify v f) := by
  refine ⟨rfl, rfl, fun w => ?_, fun w => ?_, fun w => ?_⟩ <;> rw [modify_node] <;> split <;>
    simp_all

theorem SameShape.grown (hs : SameShape t t') (hg : tree.Grown t) : tree.Grown t' := by
  refine ⟨fun c p hp => hg.parentLt c p ((hs.parent c).symm.trans hp), fun p c => ?_⟩
  show c ∈ (t'.node p).children ↔ c < t'.size ∧ (t'.node c).parent = some p
  rw [hs.children, hs.size, hs.parent]
  exact hg.child p c

theorem Shape.congr (h : Shape t) (hs : SameShape t t') : Shape t' := by
  refine ⟨hs.grown h.grown, fun v hv hp => ?_, fun v => ?_, fun v => ?_, fun pid v => ?_⟩
  · rw [hs.size] at hv
    rw [hs.parent] at hp
    exact h.parent v hv hp
  · rw [hs.children]
    exact h.two v
  · rw [hs.children]
    exact h.nodup v
  · rw [hs.pid2node, hs.size, hs.pid]
    exact h.pids pid v

theorem updateNodeStatus_shape (v : Nat) (st : NodeStatus) :
    SameShape t (t.updateNodeStatus v st) :=
  sameShape_modify fun _ => ⟨rfl, rfl, rfl⟩

theorem sameShape_mark (n : Nat) (t' : ParallelTree) (h : SameShape t t') :
    SameShape t (tree.mark n t') := by
  show SameShape t (t'.propagateNodeUnsat n)
  exact h.trans (sameShape_modify fun _ => ⟨rfl, rfl, rfl⟩)

theorem nodeSolvedUnsat_shape : SameShape t (t.nodeSolvedUnsat v) := by
  have hup : SameShape t (tree.pushUpFrom 2 (t.updateNodeStatus v .unsat) v) :=
    tree.pushUpFrom_keeps sameShape_mark _ v (updateNodeStatus_shape v .unsat)
  unfold nodeSolvedUnsat
  simp only
  split
  · exact ⟨hup.size, hup.pid2node, hup.pid, hup.parent, hup.children⟩
  · exact tree.pushDownFrom_keeps sameShape_mark _ v hup

/-- The tree below a node. -/
def below (t : ParallelTree) : Nat → Nat → Prop := Below fun v => (t.node v).children

theorem Shape.below_root (h : Shape t) (hv : v < t.size) : t.below 0 v := by
  induction v using Nat.strongRecOn with
  | ind v ih =>
    cases hp : (t.node v).parent with
    | none =>
      rw [h.parent v hv hp]
      exact .refl
    | some p =>
      have hlt : p < v := h.grown.parentLt v p hp
      exact .tail (ih p hlt (by omega)) ((h.grown.child p v).2 ⟨hv, hp⟩)

theorem Shape.root_parent (h : Shape t) : (t.node 0).parent = none := by
  cases hp : (t.node 0).parent with
  | none => rfl
  | some p => exact absurd (h.grown.parentLt 0 p hp) (Nat.not_lt_zero p)

/-- Nothing stands above the root. -/
theorem Shape.eq_of_below_root (h : Shape t) (hb : t.below v 0) : v = 0 := by
  rcases Relation.ReflTransGen.cases_tail hb with he | ⟨p, -, hp⟩
  · exact he.symm
  · have := ((h.grown.child p 0).1 hp).2
    rw [show tree.parent t 0 = none from h.root_parent] at this
    cases this

theorem Shape.child_lt (h : Shape t) (hw : w ∈ (t.node v).children) : v < w ∧ w < t.size := by
  obtain ⟨hlt, hp⟩ := (h.grown.child v w).1 hw
  exact ⟨h.grown.parentLt w v hp, hlt⟩

theorem Shape.number (h : Shape t) (hv : v < t.size) : t.pid2node (t.node v).pid = some v :=
  (h.pids _ v).2 ⟨hv, rfl⟩

theorem Shape.pid_inj (h : Shape t) (hv : v < t.size) (hw : w < t.size)
    (he : (t.node v).pid = (t.node w).pid) : v = w := by
  have hn := h.number hv
  rw [he] at hn
  exact Option.some.inj (hn.symm.trans (h.number hw))

/-! ## The unsat nodes -/

/-- What the refutations of the nodes numbered in `D` derive. -/
def Derived (D : Nat → Prop) (t : ParallelTree) : Nat → Prop :=
  Refuted 2 (fun v => (t.node v).children) fun v => v < t.size ∧ D (t.node v).pid

/-- Until the root is unsat the unsat nodes are closed, and are what the
refutations derive. From then on the result says so. -/
structure Marks (D : Nat → Prop) (t : ParallelTree) : Prop where
  closed : t.rootUnsat = false → tree.Closed 2 t
  derived : t.rootUnsat = false → ∀ v, (t.node v).status = .unsat ↔ Derived D t v
  root : t.rootUnsat = true → Derived D t 0
  result : t.result = .unsat ↔ t.rootUnsat = true

theorem marked_iff : tree.marked t v = true ↔ (t.node v).status = .unsat := by
  show (t.node v).status.isUnsat = true ↔ _
  simp

theorem rootUnsat_iff : t.rootUnsat = true ↔ (t.node 0).status = .unsat := by
  unfold rootUnsat
  simp

theorem Derived.lt (h : Shape t) (hd : Derived D t v) : v < t.size :=
  hd.least (fun _ hb => hb.1) (fun _ _ _ hc => (h.child_lt hc).2) fun n hne _ _ => by
    obtain ⟨c, hc⟩ := List.exists_mem_of_ne_nil _ hne
    have := h.child_lt hc
    omega

theorem SameShape.derived (h : SameShape t t') : Derived D t' = Derived D t := by
  unfold Derived
  simp only [h.children, h.size, h.pid]

theorem Derived.mono (hD : ∀ pid, D pid → D' pid) (h : Derived D t v) : Derived D' t v :=
  Refuted.mono (fun _ hw => ⟨hw.1, hD _ hw.2⟩) h

/-- What a marked node makes derivable from the marks is derivable from `D`, if
every mark is. -/
theorem derived_of_marks {s : ParallelTree} (hs : SameShape t s)
    (hsound : ∀ w, (s.node w).status = .unsat → Derived D t w)
    (hw : Refuted 2 (tree.children s) (tree.marked s · = true) w) : Derived D t w := by
  have hchildren : tree.children s = fun v => (t.node v).children := funext hs.children
  rw [hchildren] at hw
  exact (hw.mono fun y hy => hsound y (marked_iff.1 hy)).idem

theorem updateNodeStatus_marked (w : Nat) :
    tree.marked (t.updateNodeStatus v .unsat) w = (w == v || tree.marked t w) := by
  show ((t.updateNodeStatus v .unsat).node w).status.isUnsat = (w == v || (t.node w).status.isUnsat)
  unfold updateNodeStatus
  rw [modify_node]
  by_cases hw : w = v <;> simp [hw]

/-- Refuting a node ends at an unsat root, or spreads over a tree whose root
stays as it is. -/
theorem nodeSolvedUnsat_cases (hg : tree.Grown t) (v : Nat) :
    ((tree.pushUpFrom 2 (t.updateNodeStatus v .unsat) v).rootUnsat = true ∧
      t.nodeSolvedUnsat v =
        { tree.pushUpFrom 2 (t.updateNodeStatus v .unsat) v with result := .unsat }) ∨
    (t.rootUnsat = false ∧ (t.nodeSolvedUnsat v).rootUnsat = false ∧
      t.nodeSolvedUnsat v = tree.spread 2 (t.updateNodeStatus v .unsat) v ∧
      (t.nodeSolvedUnsat v).result = t.result) := by
  have hkeep : t.rootUnsat = true → tree.marked (t.updateNodeStatus v .unsat) 0 = true := by
    rw [rootUnsat_iff, updateNodeStatus_marked, Bool.or_eq_true, marked_iff]
    exact .inr
  have hresult : (t.updateNodeStatus v .unsat).result = t.result := rfl
  have hshape : SameShape t (t.updateNodeStatus v .unsat) := updateNodeStatus_shape v .unsat
  unfold nodeSolvedUnsat
  generalize t.updateNodeStatus v .unsat = s at *
  have hup := tree.pushUpFrom_extends 2 s v
  have hgs : tree.Grown (tree.pushUpFrom 2 s v) := hup.grown (hshape.grown hg)
  have hupres : (tree.pushUpFrom 2 s v).result = t.result :=
    tree.pushUpFrom_keeps (P := fun t' => t'.result = t.result) (fun n t' ht' => ht') s v hresult
  simp only
  cases hr : (tree.pushUpFrom 2 s v).rootUnsat
  · right
    rw [if_neg (by decide)]
    refine ⟨?_, ?_, rfl, ?_⟩
    · rw [← Bool.not_eq_true]
      intro ht
      have := rootUnsat_iff.2 (marked_iff.1 (hup.marked 0 (hkeep ht)))
      rw [hr] at this
      cases this
    · -- the way down does not come back to the root
      rw [← Bool.not_eq_true, rootUnsat_iff, ← marked_iff]
      intro hm
      rcases tree.pushDownFrom_sound hm with hm | ⟨c, hc, hb⟩
      · have := rootUnsat_iff.2 (marked_iff.1 hm)
        rw [hr] at this
        cases this
      · have := hgs.below_le hb
        have := hgs.parentLt c v ((hgs.child v c).1 hc).2
        omega
    · exact tree.pushDownFrom_keeps (P := fun t' => t'.result = t.result) (fun n t' ht' => ht') _ v
        hupres
  · left
    rw [if_pos rfl]
    exact ⟨rfl, rfl⟩

/-- **One refutation.** When the unsat nodes are closed but for the node `v`,
and come from `D`, refuting `v` closes them again. -/
theorem solvedUnsat_marks (h : Shape t) (hv : v < t.size)
    (hopen : t.rootUnsat = false →
      tree.DownClosed (· = v) (t.updateNodeStatus v .unsat) ∧
      tree.UpClosed 2 (fun y => (t.node v).parent = some y) (t.updateNodeStatus v .unsat) ∧
      (∀ w, ((t.updateNodeStatus v .unsat).node w).status = .unsat → Derived D t w) ∧
      ∀ w < t.size, D (t.node w).pid → ((t.updateNodeStatus v .unsat).node w).status = .unsat)
    (hroot : t.rootUnsat = true → Derived D t 0)
    (hres : t.result = .unsat ↔ t.rootUnsat = true) : Marks D (t.nodeSolvedUnsat v) := by
  have hshape : SameShape t (t.updateNodeStatus v .unsat) := updateNodeStatus_shape v .unsat
  have hmv : tree.marked (t.updateNodeStatus v .unsat) v = true := by
    rw [updateNodeStatus_marked, beq_self_eq_true, Bool.true_or]
  have hder := (nodeSolvedUnsat_shape (t := t) (v := v)).derived (D := D)
  have hcases := nodeSolvedUnsat_cases h.grown v
  generalize t.nodeSolvedUnsat v = t' at *
  generalize t.updateNodeStatus v .unsat = s at *
  have hg : tree.Grown s := (h.congr hshape).grown
  have hvs : v < tree.size s := by
    show v < s.size
    rwa [hshape.size]
  have hparent : tree.parent s v = (t.node v).parent := hshape.parent v
  have hchildren : tree.children s = fun v => (t.node v).children := funext hshape.children
  rcases hcases with ⟨hr, rfl⟩ | ⟨ht, hr, rfl, hres'⟩
  · -- the root became unsat, or was it before
    have hru : ({ tree.pushUpFrom 2 s v with result := .unsat } : ParallelTree).rootUnsat = true := hr
    refine ⟨fun hf => ?_, fun hf => ?_, fun _ => ?_, iff_of_true rfl hru⟩
    · rw [hru] at hf
      cases hf
    · rw [hru] at hf
      cases hf
    · rw [hder]
      cases ht : t.rootUnsat
      · obtain ⟨hdown, -, hsound, -⟩ := hopen ht
        exact derived_of_marks hshape hsound
          ((tree.pushUpFrom_sound hg hvs hdown).2 0 (marked_iff.2 (rootUnsat_iff.1 hr)))
      · exact hroot ht
  · obtain ⟨hdown, hupc, hsound, hcomplete⟩ := hopen ht
    rw [← hparent] at hupc
    obtain ⟨hclosed, hmarks⟩ := tree.spread_spec hg hvs hmv hdown hupc
    refine ⟨fun _ => hclosed, fun _ w => ?_, fun hf => ?_, ?_⟩
    · rw [hder, ← marked_iff, hmarks]
      constructor
      · exact derived_of_marks hshape hsound
      · intro hd
        rw [hchildren]
        exact Refuted.mono (fun y hy => marked_iff.2 (hcomplete y hy.1 hy.2)) hd
    · rw [hr] at hf
      cases hf
    · rw [hres', hres, ht, hr]

/-- `D` and the number `pid`. -/
def With (D : Nat → Prop) (pid : Nat) : Nat → Prop := fun p => D p ∨ pid = p

/-- Refuting a node of the tree. -/
theorem Marks.solvedUnsat (hm : Marks D t) (h : Shape t) (hv : v < t.size) :
    Marks (With D (t.node v).pid) (t.nodeSolvedUnsat v) := by
  have hmono : ∀ {w}, Derived D t w → Derived (With D (t.node v).pid) t w :=
    fun hd => hd.mono fun _ => .inl
  refine solvedUnsat_marks h hv (fun hr => ?_) (fun hr => hmono (hm.root hr)) hm.result
  have hshape : SameShape t (t.updateNodeStatus v .unsat) := updateNodeStatus_shape v .unsat
  obtain ⟨hdown, hup⟩ := (hm.closed hr).insert h.grown (funext hshape.parent)
    (funext hshape.children) updateNodeStatus_marked
  rw [show tree.parent (t.updateNodeStatus v .unsat) v = (t.node v).parent from
    hshape.parent v] at hup
  refine ⟨hdown, hup, fun w hw => ?_, fun w hw hD => ?_⟩
  · rw [← marked_iff, updateNodeStatus_marked, Bool.or_eq_true, beq_iff_eq, marked_iff] at hw
    rcases hw with rfl | hw
    · exact .base ⟨hv, .inr rfl⟩
    · exact hmono ((hm.derived hr w).1 hw)
  · rw [← marked_iff, updateNodeStatus_marked, Bool.or_eq_true, beq_iff_eq, marked_iff]
    rcases hD with hD | hD
    · exact .inr ((hm.derived hr w).2 (.base ⟨hw, hD⟩))
    · left
      exact h.pid_inj hw hv hD.symm

/-- No link, no unsat node and no result is different. -/
structure Quiet (t t' : ParallelTree) : Prop extends SameShape t t' where
  unsat : ∀ v, (t'.node v).status = .unsat ↔ (t.node v).status = .unsat
  result : t'.result = t.result

theorem Quiet.refl (t : ParallelTree) : Quiet t t := ⟨.refl t, fun _ => .rfl, rfl⟩

theorem Quiet.trans {t₁ t₂ t₃ : ParallelTree} (h : Quiet t₁ t₂) (h' : Quiet t₂ t₃) : Quiet t₁ t₃ :=
  ⟨h.toSameShape.trans h'.toSameShape, fun v => (h'.unsat v).trans (h.unsat v),
    h'.result.trans h.result⟩

theorem Marks.congr (hm : Marks D t) (h : Quiet t t') : Marks D t' := by
  obtain ⟨hs, hu, hr⟩ := h
  have hroot : t'.rootUnsat = t.rootUnsat := by
    rw [Bool.eq_iff_iff, rootUnsat_iff, rootUnsat_iff]
    exact hu 0
  have hmarked : tree.marked t' = tree.marked t := by
    funext v
    rw [Bool.eq_iff_iff, marked_iff, marked_iff]
    exact hu v
  have hchildren : tree.children t' = tree.children t := funext hs.children
  refine ⟨fun hf => ?_, fun hf v => ?_, fun hf => ?_, ?_⟩
  · rw [hroot] at hf
    obtain ⟨hdown, hup⟩ := hm.closed hf
    unfold MarkedTree.Closed MarkedTree.DownClosed MarkedTree.UpClosed MarkedTree.covered at *
    rw [hmarked, hchildren]
    exact ⟨hdown, hup⟩
  · rw [hroot] at hf
    rw [hu, hs.derived]
    exact hm.derived hf v
  · rw [hroot] at hf
    rw [hs.derived]
    exact hm.root hf
  · rw [hr, hroot]
    exact hm.result

/-! ## New nodes -/

theorem addNode_node (pid : Nat) (parent : Option Nat) (w : Nat) :
    (t.addNode pid parent).node w =
      if w = t.size then ⟨pid, parent, [], .unsolved, false⟩
      else if parent = some w then { t.node w with children := (t.node w).children ++ [t.size] }
      else t.node w := by
  cases parent with
  | none => simp [addNode, Function.update_apply]
  | some p =>
    by_cases hw : w = p <;> simp [addNode, modify, Function.update_apply, hw, eq_comm]

theorem addNode_children {pid : Nat} {parent : Option Nat} {w : Nat} (hw : w ≠ t.size) :
    ((t.addNode pid parent).node w).children =
      if parent = some w then (t.node w).children ++ [t.size] else (t.node w).children := by
  rw [addNode_node, if_neg hw]
  split <;> rfl

/-- Any other field of an old node. -/
theorem addNode_old {α : Type} (g : ParallelNode → α)
    (hg : ∀ nd cs, g { nd with children := cs } = g nd) {pid : Nat} {parent : Option Nat} {w : Nat}
    (hw : w ≠ t.size) : g ((t.addNode pid parent).node w) = g (t.node w) := by
  rw [addNode_node, if_neg hw]
  split
  · exact hg _ _
  · rfl

/-- A parent at which a child may be made. -/
def Room (t : ParallelTree) : Option Nat → Prop
  | none => t.size = 0
  | some p => p < t.size ∧ (t.node p).children.length < 2

theorem Room.lt {parent : Option Nat} (h : Room t parent) {p : Nat} (hp : parent = some p) :
    p < t.size ∧ (t.node p).children.length < 2 := by
  rw [hp] at h
  exact h

section AddNode

variable {pid : Nat} {parent : Option Nat}

theorem addNode_size : (t.addNode pid parent).size = t.size + 1 := by cases parent <;> rfl

theorem addNode_pid2node :
    (t.addNode pid parent).pid2node = Function.update t.pid2node pid (some t.size) := by
  cases parent <;> rfl

theorem addNode_result : (t.addNode pid parent).result = t.result := by cases parent <;> rfl

theorem addNode_parent (w : Nat) : ((t.addNode pid parent).node w).parent =
    if w = t.size then parent else (t.node w).parent := by
  split
  · rename_i hw
    rw [addNode_node, if_pos hw]
  · rename_i hw
    exact addNode_old ParallelNode.parent (fun _ _ => rfl) hw

theorem mem_addNode_children {v w : Nat} (hr : ∀ p, parent = some p → p < t.size) :
    w ∈ ((t.addNode pid parent).node v).children ↔
      w ∈ (t.node v).children ∧ v ≠ t.size ∨ w = t.size ∧ parent = some v := by
  by_cases hv : v = t.size
  · have hpar : parent ≠ some v := fun hp => by
      have := hr v hp
      omega
    rw [addNode_node, if_pos hv]
    simp [hv, hv ▸ hpar]
  · rw [addNode_children hv]
    split
    · rename_i hp
      simp [hv, hp]
    · rename_i hp
      simp [hv, hp]

theorem addNode_mem {v w : Nat} (hr : Room t parent) :
    w ∈ ((t.addNode pid parent).node v).children ↔
      w ∈ (t.node v).children ∧ v ≠ t.size ∨ w = t.size ∧ parent = some v :=
  mem_addNode_children fun _ hp => (hr.lt hp).1

theorem grown_addNode (hg : tree.Grown t) (hr : ∀ p, parent = some p → p < t.size) :
    tree.Grown (t.addNode pid parent) := by
  refine ⟨fun c p hp => ?_, fun p c => ?_⟩
  · have hp : ((t.addNode pid parent).node c).parent = some p := hp
    rw [addNode_parent] at hp
    split at hp
    · rename_i hc
      rw [hc]
      exact hr p hp
    · exact hg.parentLt c p hp
  · show c ∈ ((t.addNode pid parent).node p).children ↔
      c < (t.addNode pid parent).size ∧ ((t.addNode pid parent).node c).parent = some p
    rw [mem_addNode_children hr, addNode_parent, addNode_size]
    have hold := hg.child p c
    by_cases hc : c = t.size
    · rw [if_pos hc]
      have hno : c ∉ (t.node p).children := fun hm => by
        have : c < t.size := (hold.1 hm).1
        omega
      simp [hc, hc ▸ hno]
    · rw [if_neg hc]
      constructor
      · rintro (⟨hm, -⟩ | ⟨he, -⟩)
        · obtain ⟨hlt, hp⟩ := hold.1 hm
          exact ⟨Nat.lt_succ_of_lt hlt, hp⟩
        · exact absurd he hc
      · rintro ⟨hlt, hp⟩
        have hlt : c < t.size := by omega
        have hpc := hg.parentLt c p hp
        exact .inl ⟨hold.2 ⟨hlt, hp⟩, by omega⟩

theorem nodup_addNode (hg : tree.Grown t) (hnd : ∀ v, (t.node v).children.Nodup) (v : Nat) :
    ((t.addNode pid parent).node v).children.Nodup := by
  by_cases hv : v = t.size
  · rw [addNode_node, if_pos hv]
    exact List.nodup_nil
  · rw [addNode_children hv]
    split
    · refine List.nodup_append.2 ⟨hnd v, by simp, fun c hc n hn => ?_⟩
      rw [List.mem_singleton.1 hn]
      exact Nat.ne_of_lt ((hg.child v c).1 hc).1
    · exact hnd v

theorem Shape.addNode (h : Shape t) (hr : Room t parent) (hpid : t.pid2node pid = none) :
    Shape (t.addNode pid parent) := by
  have hsize : (t.addNode pid parent).size = t.size + 1 := addNode_size
  refine ⟨grown_addNode h.grown fun _ hp => (hr.lt hp).1, fun v hv hp => ?_, fun v => ?_,
    nodup_addNode h.grown h.nodup, fun q v => ?_⟩
  · rw [addNode_parent] at hp
    rw [hsize] at hv
    split at hp
    · rename_i hv'
      rw [hp] at hr
      rw [hv']
      exact hr
    · exact h.parent v (by omega) hp
  · by_cases hv : v = t.size
    · rw [addNode_node, if_pos hv]
      exact Nat.zero_le 2
    · rw [addNode_children hv]
      split
      · rename_i hp
        have := (hr.lt hp).2
        simp
        omega
      · exact h.two v
  · rw [addNode_pid2node, hsize, Function.update_apply]
    have hnew : ((t.addNode pid parent).node t.size).pid = pid := by rw [addNode_node, if_pos rfl]
    have hold : ∀ v, v ≠ t.size → ((t.addNode pid parent).node v).pid = (t.node v).pid :=
      fun v hv => addNode_old ParallelNode.pid (fun _ _ => rfl) hv
    by_cases hv : v = t.size
    · rw [hv, hnew]
      have hno : t.pid2node q ≠ some t.size := fun hq => by
        have := ((h.pids q t.size).1 hq).1
        omega
      by_cases hq : q = pid
      · simp [hq]
      · simp [hq, hno, Ne.symm hq]
    · rw [hold v hv]
      by_cases hq : q = pid
      · have hno : ¬ (v < t.size ∧ (t.node v).pid = pid) := fun hvp => by
          rw [(h.pids pid v).2 hvp] at hpid
          cases hpid
        rw [if_pos hq, hq]
        refine iff_of_false (fun he => hv (Option.some.inj he).symm) fun hvp => hno ⟨?_, hvp.2⟩
        omega
      · rw [if_neg hq, h.pids]
        exact and_congr_left fun _ => by omega

theorem addNode_status (w : Nat) : ((t.addNode pid parent).node w).status =
    if w = t.size then .unsolved else (t.node w).status := by
  split
  · rename_i hw
    rw [addNode_node, if_pos hw]
  · rename_i hw
    exact addNode_old ParallelNode.status (fun _ _ => rfl) hw

/-- What was derived stays derived: a complete split has no room. -/
theorem Derived.addNode (h : Shape t) (hr : Room t parent) (hv : Derived D t v) :
    Derived D (t.addNode pid parent) v := by
  refine hv.least (fun v hb => ?_) (fun p c hp hc => ?_) fun n hne hk hc => ?_
  · refine .base ⟨?_, ?_⟩
    · rw [addNode_size]
      exact Nat.lt_succ_of_lt hb.1
    · rw [addNode_old ParallelNode.pid (fun _ _ => rfl) (Nat.ne_of_lt hb.1)]
      exact hb.2
  · have := h.child_lt hc
    exact .down hp ((addNode_mem hr).2 (.inl ⟨hc, by omega⟩))
  · obtain ⟨c, hcn⟩ := List.exists_mem_of_ne_nil _ hne
    have hn : n ≠ t.size := by
      have := h.child_lt hcn
      omega
    have hpn : parent ≠ some n := fun hp => by
      have := (hr.lt hp).2
      omega
    have hcs : ((t.addNode pid parent).node n).children = (t.node n).children := by
      rw [addNode_children hn, if_neg hpn]
    exact .up (by rwa [hcs]) (by rwa [hcs]) (by rwa [hcs])

/-- A new node without a refutation of its own is refuted with its parent. -/
theorem addNode_derived (h : Shape t) (hr : Room t parent) (hpid : ¬ D pid) (w : Nat) :
    Derived D (t.addNode pid parent) w ↔
      if w = t.size then ∃ p, parent = some p ∧ Derived D t p else Derived D t w := by
  constructor
  · intro hd
    refine hd.least
      (M := fun w => if w = t.size then ∃ p, parent = some p ∧ Derived D t p else Derived D t w)
      (fun v hb => ?_) (fun q c hq hc => ?_) fun n hne hk hc => ?_
    · have hv : v ≠ t.size := fun hv => by
        rw [hv, addNode_node, if_pos rfl] at hb
        exact hpid hb.2
      rw [if_neg hv]
      refine .base ⟨?_, ?_⟩
      · have := hb.1
        rw [addNode_size] at this
        omega
      · have := hb.2
        rwa [addNode_old ParallelNode.pid (fun _ _ => rfl) hv] at this
    · rcases (addNode_mem hr).1 hc with ⟨hold, hq'⟩ | ⟨hnew, hp⟩
      · rw [if_neg hq'] at hq
        rw [if_neg (Nat.ne_of_lt (h.child_lt hold).2)]
        exact .down hq hold
      · have hlt := (hr.lt hp).1
        rw [if_neg (Nat.ne_of_lt hlt)] at hq
        rw [if_pos hnew]
        exact ⟨q, hp, hq⟩
    · obtain ⟨c, hcn⟩ := List.exists_mem_of_ne_nil _ hne
      have hn : n ≠ t.size := by
        rcases (addNode_mem hr).1 hcn with ⟨-, hn⟩ | ⟨-, hp⟩
        · exact hn
        · have := (hr.lt hp).1
          omega
      rw [if_neg hn]
      by_cases hp : parent = some n
      · -- the new child is refuted with its parent only
        have hnew := hc t.size ((addNode_mem hr).2 (.inr ⟨rfl, hp⟩))
        rw [if_pos rfl] at hnew
        obtain ⟨q, hq, hd⟩ := hnew
        rw [hp] at hq
        rwa [Option.some.inj hq]
      · rw [addNode_children hn, if_neg hp] at hne hk hc
        refine .up hne hk fun c hcm => ?_
        have := hc c hcm
        rwa [if_neg (Nat.ne_of_lt (h.child_lt hcm).2)] at this
  · split
    · rename_i hw
      rintro ⟨p, hp, hd⟩
      exact .down (hd.addNode h hr) ((addNode_mem hr).2 (.inr ⟨hw, hp⟩))
    · exact fun hd => hd.addNode h hr

theorem addNode_root (hs : t.size ≠ 0) : (t.addNode pid parent).rootUnsat = t.rootUnsat := by
  unfold rootUnsat
  rw [addNode_status, if_neg (Ne.symm hs)]

theorem addNode_fresh (hs : t.size = 0) : (t.addNode pid parent).rootUnsat = false := by
  unfold rootUnsat
  rw [addNode_status, if_pos hs.symm]
  rfl

theorem Marks.size_ne (hm : Marks D t) (h : Shape t) (hr : t.rootUnsat = true) : t.size ≠ 0 := by
  have := (hm.root hr).lt h
  omega

/-- The result of a new tree is that of the old one. -/
theorem Marks.addNode_result (hm : Marks D t) (h : Shape t) :
    (t.addNode pid parent).result = .unsat ↔ (t.addNode pid parent).rootUnsat = true := by
  rw [ParallelTree.addNode_result, hm.result]
  by_cases hs : t.size = 0
  · rw [addNode_fresh hs]
    exact iff_of_false (fun hr => hm.size_ne h hr hs) (by decide)
  · rw [addNode_root hs]

theorem Marks.addNode_derives (hm : Marks D t) (h : Shape t) (hr : Room t parent)
    (hroot : (t.addNode pid parent).rootUnsat = true) : Derived D (t.addNode pid parent) 0 := by
  by_cases hs : t.size = 0
  · rw [addNode_fresh hs] at hroot
    cases hroot
  · rw [addNode_root hs] at hroot
    exact (hm.root hroot).addNode h hr

theorem Marks.old_root (hm : Marks D t) (h : Shape t)
    (hroot : (t.addNode pid parent).rootUnsat = false) : t.rootUnsat = false := by
  by_cases hs : t.size = 0
  · rw [← Bool.not_eq_true]
    exact fun hr => hm.size_ne h hr hs
  · rwa [addNode_root hs] at hroot

theorem addNode_marked (w : Nat) : tree.marked (t.addNode pid parent) w = true ↔
    w ≠ t.size ∧ tree.marked t w = true := by
  rw [marked_iff, marked_iff, addNode_status]
  split
  · rename_i hw
    exact iff_of_false (by decide) fun hf => hf.1 hw
  · rename_i hw
    exact (and_iff_right hw).symm

/-- A new node covers nothing. -/
theorem addNode_upClosed (hr : ∀ p, parent = some p → p < t.size)
    (hup : tree.UpClosed 2 (fun _ => False) t) :
    tree.UpClosed 2 (fun _ => False) (t.addNode pid parent) := by
  intro y _ hne hcov
  rw [MarkedTree.covered_iff] at hcov
  have hnew : parent ≠ some y := fun hp =>
    ((addNode_marked t.size).1 (hcov.2 t.size ((mem_addNode_children hr).2 (.inr ⟨rfl, hp⟩)))).1 rfl
  have hy : y ≠ t.size := by
    obtain ⟨c, hc⟩ := List.exists_mem_of_ne_nil _ hne
    rcases (mem_addNode_children hr).1 hc with ⟨-, hy⟩ | ⟨-, hp⟩
    · exact hy
    · exact absurd hp hnew
  have hcs : tree.children (t.addNode pid parent) y = tree.children t y := by
    show ((t.addNode pid parent).node y).children = (t.node y).children
    rw [addNode_children hy, if_neg hnew]
  rw [hcs] at hne hcov
  refine (addNode_marked y).2
    ⟨hy, hup y (fun hf => hf) hne (MarkedTree.covered_iff.2 ⟨hcov.1, fun c hc => ?_⟩)⟩
  exact ((addNode_marked c).1 (hcov.2 c hc)).2

/-- A new node is below no unsat node, if its parent is not. -/
theorem addNode_downClosed (hg : tree.Grown t) (hr : ∀ p, parent = some p → p < t.size)
    (hdown : tree.DownClosed (fun _ => False) t)
    (hpar : ∀ p, parent = some p → (t.node p).status ≠ .unsat) :
    tree.DownClosed (fun _ => False) (t.addNode pid parent) := by
  intro y _ hy c hc
  obtain ⟨-, hy⟩ := (addNode_marked y).1 hy
  rcases (mem_addNode_children hr).1 hc with ⟨hc, -⟩ | ⟨-, hp⟩
  · exact (addNode_marked c).2
      ⟨Nat.ne_of_lt ((hg.child y c).1 hc).1, hdown y (fun hf => hf) hy c hc⟩
  · exact absurd (marked_iff.1 hy) (hpar y hp)

theorem addRefuted_marked (w : Nat) :
    tree.marked ((t.addNode pid parent).updateNodeStatus t.size .unsat) w = true ↔
      w = t.size ∨ tree.marked t w = true := by
  rw [updateNodeStatus_marked, Bool.or_eq_true, beq_iff_eq, addNode_marked]
  by_cases hw : w = t.size <;> simp [hw]

/-- A new node that is refuted leaves its parent open. -/
theorem addRefuted_upClosed (hg : tree.Grown t) (hup : tree.UpClosed 2 (fun _ => False) t) :
    tree.UpClosed 2 (fun y => parent = some y)
      ((t.addNode pid parent).updateNodeStatus t.size .unsat) := by
  have hs := updateNodeStatus_shape (t := t.addNode pid parent) t.size .unsat
  intro y hy hne hcov
  rw [addRefuted_marked]
  rw [MarkedTree.covered_iff] at hcov
  have hcs : tree.children ((t.addNode pid parent).updateNodeStatus t.size .unsat) y =
      ((t.addNode pid parent).node y).children := hs.children y
  rw [hcs] at hne hcov
  by_cases hys : y = t.size
  · exact .inl hys
  · rw [addNode_children hys, if_neg hy] at hne hcov
    refine .inr (hup y (fun hf => hf) hne (MarkedTree.covered_iff.2 ⟨hcov.1, fun c hc => ?_⟩))
    have hlt : c < t.size := ((hg.child y c).1 hc).1
    exact ((addRefuted_marked c).1 (hcov.2 c hc)).resolve_left (Nat.ne_of_lt hlt)

theorem addRefuted_downClosed (hr : ∀ p, parent = some p → p < t.size)
    (hdown : tree.DownClosed (fun _ => False) t) :
    tree.DownClosed (· = t.size) ((t.addNode pid parent).updateNodeStatus t.size .unsat) := by
  have hs := updateNodeStatus_shape (t := t.addNode pid parent) t.size .unsat
  intro y hy hmy c hc
  rw [addRefuted_marked] at hmy ⊢
  have hc : c ∈ (((t.addNode pid parent).updateNodeStatus t.size .unsat).node y).children := hc
  rw [hs.children] at hc
  rcases (mem_addNode_children hr).1 hc with ⟨hc, -⟩ | ⟨hc, -⟩
  · exact .inr (hdown y (fun hf => hf) (hmy.resolve_left hy) c hc)
  · exact .inl hc

/-- A new node that nothing refutes. -/
theorem Marks.addNode (hm : Marks D t) (h : Shape t) (hr : Room t parent) (hpid : ¬ D pid)
    (hpar : ∀ p, parent = some p → (t.node p).status ≠ .unsat) :
    Marks D (t.addNode pid parent) := by
  have hlt : ∀ p, parent = some p → p < t.size := fun _ hp => (hr.lt hp).1
  refine ⟨fun hf => ?_, fun hf w => ?_, hm.addNode_derives h hr, hm.addNode_result h⟩
  · obtain ⟨hdown, hup⟩ := hm.closed (hm.old_root h hf)
    exact ⟨addNode_downClosed h.grown hlt hdown hpar, addNode_upClosed hlt hup⟩
  · have hold := hm.old_root h hf
    rw [addNode_derived h hr hpid, addNode_status]
    split
    · refine iff_of_false (by decide) ?_
      rintro ⟨p, hp, hd⟩
      exact hpar p hp ((hm.derived hold p).2 hd)
    · exact hm.derived hold w

/-- A new node that is refuted at once. -/
theorem Marks.addRefuted (hm : Marks D t) (h : Shape t) (hr : Room t parent)
    (hpid : t.pid2node pid = none) (hsub : ∀ p, D p → D' p) (hsup : ∀ p, D' p → With D pid p)
    (hnew : t.rootUnsat = false → Derived D' (t.addNode pid parent) t.size) :
    Marks D' ((t.addNode pid parent).nodeSolvedUnsat t.size) := by
  have hlt : ∀ p, parent = some p → p < t.size := fun _ hp => (hr.lt hp).1
  have hv : t.size < (t.addNode pid parent).size := by
    rw [addNode_size]
    exact Nat.lt_succ_self _
  have hmarked : ∀ w, (((t.addNode pid parent).updateNodeStatus t.size .unsat).node w).status =
      .unsat ↔ w = t.size ∨ (t.node w).status = .unsat := by
    intro w
    rw [← marked_iff, addRefuted_marked, marked_iff]
  refine solvedUnsat_marks (h.addNode hr hpid) hv (fun hf => ?_)
    (fun hf => (hm.addNode_derives h hr hf).mono hsub) (hm.addNode_result h)
  have hold := hm.old_root h hf
  obtain ⟨hdown, hup⟩ := hm.closed hold
  have hopen : (fun y => ((t.addNode pid parent).node t.size).parent = some y) =
      fun y => parent = some y := by
    rw [addNode_parent, if_pos rfl]
  refine ⟨addRefuted_downClosed hlt hdown, hopen ▸ addRefuted_upClosed h.grown hup,
    fun w hw => ?_, fun w hw hD => ?_⟩
  · rcases (hmarked w).1 hw with rfl | hw
    · exact hnew hold
    · exact (((hm.derived hold w).1 hw).addNode h hr).mono hsub
  · rw [hmarked]
    by_cases hws : w = t.size
    · exact .inl hws
    · rw [addNode_size] at hw
      rw [addNode_old ParallelNode.pid (fun _ _ => rfl) hws] at hD
      have hlt : w < t.size := by omega
      rcases hsup _ hD with hD | hD
      · exact .inr ((hm.derived hold w).2 (.base ⟨hlt, hD⟩))
      · rw [(h.pids pid w).2 ⟨hlt, hD.symm⟩] at hpid
        cases hpid

end AddNode

end ParallelTree

end AriParti.L3
