import AriParti.Core.LTS
import AriParti.L3Coordinator.Marks

/-!
# The unsat nodes along a run

What the coordinator does to its tree as a transition system, with the nodes
named as in the lines of the partitioner. `Kept` goes with a run: the tree is
the one the creations of the trace make, and its unsat nodes are what the
refutations of the trace derive.

## Results

* `unsat_closure`: along every run, until the root is unsat, the unsat nodes
  are those below a node that the refutations and the splits derive; the
  result says whether that reaches the root; and the order of the calls does
  not matter.
-/
namespace AriParti.L3
open AriParti.Core AriParti.L2

/-- What the coordinator does to its tree. Nodes are named as in the lines of
the partitioner. -/
inductive Call where
  | newNode (line : P2C)
  | solved (pid : Nat)
  | split (pid : Nat)
  | terminate (pid : Nat)
  | assign
  deriving DecidableEq, Repr

namespace ParallelTree

/-- The call refutes the node `pid` by itself. -/
def Refutes (pid : Nat) : Call → Prop
  | .newNode (.newUnsatNode p _) => p = pid
  | .solved p => p = pid
  | .split p => p = pid
  | _ => False

/-- A node of `t` at which a child may still be made. -/
def HasRoom (t : ParallelTree) : Option Nat → Prop
  | none => t.size = 0
  | some q => ∃ p, t.pid2node q = some p ∧ (t.node p).children.length < 2

/-- What a call may be about: a node is made once, below a node that was made
and has at most one child, and the root has no parent. -/
def Allowed (t : ParallelTree) : Call → Prop
  | .newNode (.newUnknownNode pid ppid) => t.pid2node pid = none ∧ t.HasRoom ppid
  | .newNode (.newUnsatNode pid ppid) => t.pid2node pid = none ∧ t.HasRoom ppid
  | .solved pid => (t.pid2node pid).isSome
  | .split pid => (t.pid2node pid).isSome
  | .terminate pid => (t.pid2node pid).isSome
  | .assign => True

def call (t : ParallelTree) : Call → Option ParallelTree
  | .newNode line => t.newNode line
  | .solved pid => (t.pid2node pid).map t.solverUnsat
  | .split pid => (t.pid2node pid).map t.setNodeSplit
  | .terminate pid => (t.pid2node pid).map t.terminate
  | .assign => some t.runWaitingTask

def calls : LTS ParallelTree Call where
  init t := t = empty
  step t c t' := t.Allowed c ∧ t.call c = some t'

variable {t t' : ParallelTree} {v w : Nat} {D D' : Nat → Prop}

/-! ## One call -/

theorem terminate_quiet (v : Nat) : Quiet t (t.terminate v) := by
  unfold terminate
  split
  · exact .refl t
  · rename_i hend
    refine ⟨sameShape_modify fun _ => ⟨rfl, rfl, rfl⟩, fun w => ?_, rfl⟩
    unfold terminateNode
    rw [modify_node]
    split
    · rename_i hw
      rw [hw]
      refine iff_of_false (fun hf => by cases hf) fun hu => hend ?_
      simp [hu]
    · rfl

theorem terminatePath_quiet (fuel : Nat) : ∀ (t : ParallelTree) (v : Nat),
    Quiet t (terminatePath fuel t v) := by
  induction fuel with
  | zero => exact fun t _ => .refl t
  | succ fuel ih =>
    intro t v
    unfold terminatePath
    simp only
    split
    · exact terminate_quiet v
    · exact (terminate_quiet v).trans (ih _ _)

theorem getNextWaitingNode_unsolved {ws rest : List Nat}
    (h : t.getNextWaitingNode ws = some (v, rest)) : (t.node v).status = .unsolved := by
  induction ws with
  | nil => cases h
  | cons w ws ih =>
    unfold getNextWaitingNode at h
    split at h
    · rename_i hu
      cases h
      exact NodeStatus.isUnsolved_iff.1 hu
    · exact ih h

theorem runWaitingTask_quiet : Quiet t t.runWaitingTask := by
  unfold runWaitingTask
  split
  · exact ⟨⟨rfl, rfl, fun _ => rfl, fun _ => rfl, fun _ => rfl⟩, fun _ => .rfl, rfl⟩
  · rename_i v rest hnext
    have hu := getNextWaitingNode_unsolved hnext
    have hnode : ∀ w, (({ t with waitings := rest }.assignNode v).node w) =
        if w = v then { t.node v with status := .solving, assignTo := true } else t.node w := by
      intro w
      simp only [assignNode, modify, Function.update_apply]
    refine ⟨⟨rfl, rfl, fun w => ?_, fun w => ?_, fun w => ?_⟩, fun w => ?_, rfl⟩ <;>
      rw [hnode] <;> split <;> simp_all

theorem appendWaiting_quiet (ws : List Nat) : Quiet t { t with waitings := ws } :=
  ⟨⟨rfl, rfl, fun _ => rfl, fun _ => rfl, fun _ => rfl⟩, fun _ => .rfl, rfl⟩

/-- The process of a node is gone. -/
theorem unassign_quiet (v : Nat) :
    Quiet t (t.modify v fun nd => { nd with assignTo := false }) := by
  refine ⟨sameShape_modify fun _ => ⟨rfl, rfl, rfl⟩, fun w => ?_, rfl⟩
  rw [modify_node]
  split
  · rename_i hw
    rw [hw]
  · rfl

/-- The parent of a node, by its number. -/
def parentPid (t : ParallelTree) (v : Nat) : Option Nat :=
  (t.node v).parent.map fun p => (t.node p).pid

/-- The call makes the node `pid` below `ppid`. -/
def Creates (pid : Nat) (ppid : Option Nat) : Call → Prop
  | .newNode (.newUnknownNode p q) => p = pid ∧ q = ppid
  | .newNode (.newUnsatNode p q) => p = pid ∧ q = ppid
  | _ => False

/-- The tree after the creations of `E` and the refutations of `D`. -/
structure Kept (E : Nat → Option Nat → Prop) (D : Nat → Prop) (t : ParallelTree) : Prop where
  shape : Shape t
  marks : Marks D t
  known : ∀ pid, D pid → (t.pid2node pid).isSome
  made : ∀ pid ppid, E pid ppid ↔ ∃ v, t.pid2node pid = some v ∧ t.parentPid v = ppid

variable {E E' : Nat → Option Nat → Prop}

theorem SameShape.parentPid (h : SameShape t t') (v : Nat) : t'.parentPid v = t.parentPid v := by
  unfold ParallelTree.parentPid
  rw [h.parent, funext h.pid]

theorem Kept.quiet (h : Kept E D t) (hq : Quiet t t') : Kept E D t' := by
  refine ⟨h.shape.congr hq.toSameShape, h.marks.congr hq, fun pid hD => ?_, fun pid ppid => ?_⟩
  · rw [hq.pid2node]
    exact h.known pid hD
  · rw [hq.pid2node, h.made]
    simp only [hq.toSameShape.parentPid]

/-- A node that was made is refuted. -/
theorem Kept.solvedUnsat (h : Kept E D t) {pid : Nat} (hv : t.pid2node pid = some v) :
    Kept E (With D pid) (t.nodeSolvedUnsat v) := by
  obtain ⟨hlt, hpid⟩ := (h.shape.pids pid v).1 hv
  have hs : SameShape t (t.nodeSolvedUnsat v) := nodeSolvedUnsat_shape
  refine ⟨h.shape.congr hs, ?_, fun q hq => ?_, fun q qpid => ?_⟩
  · rw [← hpid]
    exact h.marks.solvedUnsat h.shape hlt
  · rw [hs.pid2node]
    rcases hq with hq | rfl
    · exact h.known q hq
    · rw [hv]
      rfl
  · rw [hs.pid2node, h.made]
    simp only [hs.parentPid]

/-- A node is made. -/
theorem Kept.create (h : Kept E D t) {pid : Nat} {ppid parent : Option Nat} (hr : Room t parent)
    (hpid : t.pid2node pid = none) (hppid : (parent.map fun p => (t.node p).pid) = ppid)
    (hs : SameShape (t.addNode pid parent) t') (hm : Marks D' t')
    (hsup : ∀ p, D' p → With D pid p) :
    Kept (fun p q => E p q ∨ pid = p ∧ ppid = q) D' t' := by
  have hpar : ∀ v < t.size, (t.addNode pid parent).parentPid v = t.parentPid v := by
    intro v hv
    unfold parentPid
    rw [addNode_parent, if_neg (Nat.ne_of_lt hv)]
    cases hp : (t.node v).parent with
    | none => rfl
    | some p =>
      have := h.shape.grown.parentLt v p hp
      exact congrArg some (addNode_old ParallelNode.pid (fun _ _ => rfl) (by omega))
  have hnew : (t.addNode pid parent).parentPid t.size = ppid := by
    unfold parentPid
    rw [addNode_parent, if_pos rfl, ← hppid]
    cases parent with
    | none => rfl
    | some p =>
      exact congrArg some (addNode_old ParallelNode.pid (fun _ _ => rfl) (Nat.ne_of_lt hr.1))
  refine ⟨(h.shape.addNode hr hpid).congr hs, hm, fun q hq => ?_, fun q qpid => ?_⟩
  · rw [hs.pid2node, addNode_pid2node, Function.update_apply]
    split
    · rfl
    · rename_i hne
      exact h.known q ((hsup q hq).resolve_right fun he => hne he.symm)
  · rw [hs.pid2node, addNode_pid2node]
    simp only [hs.parentPid, Function.update_apply]
    by_cases hq : q = pid
    · have hno : ¬ E pid qpid := fun hE => by
        obtain ⟨v, hv, -⟩ := (h.made pid qpid).1 hE
        rw [hpid] at hv
        cases hv
      simp [hq, hno, hnew]
    · have hold : ∀ v, t.pid2node q = some v →
          ((t.addNode pid parent).parentPid v = qpid ↔ t.parentPid v = qpid) :=
        fun v hv => by rw [hpar v ((h.shape.pids q v).1 hv).1]
      simp only [if_neg hq, Ne.symm hq, false_and, or_false, h.made]
      exact exists_congr fun v => and_congr_right fun hv => (hold v hv).symm

/-- Where the parent that a line names has room. -/
theorem makeNode_room (h : Shape t) {pid : Nat} {ppid : Option Nat} (hroom : t.HasRoom ppid)
    (hmk : t.makeNode pid ppid = some t') : ∃ parent, t' = t.addNode pid parent ∧ Room t parent ∧
      (parent.map fun p => (t.node p).pid) = ppid := by
  cases ppid with
  | none => exact ⟨none, (Option.some.inj hmk).symm, hroom, rfl⟩
  | some q =>
    obtain ⟨p, hp, hlen⟩ := hroom
    obtain ⟨hlt, hpid⟩ := (h.pids q p).1 hp
    simp only [makeNode, hp, Option.map_some] at hmk
    exact ⟨some p, (Option.some.inj hmk).symm, ⟨hlt, hlen⟩, congrArg some hpid⟩

/-- A line about a node that is not refuted by it. -/
theorem Kept.newUnknown (h : Kept E D t) {pid : Nat} {ppid : Option Nat}
    (ha : t.Allowed (.newNode (.newUnknownNode pid ppid)))
    (hc : t.newNode (.newUnknownNode pid ppid) = some t') :
    Kept (fun p q => E p q ∨ pid = p ∧ ppid = q) D t' := by
  obtain ⟨hpid, hroom⟩ := ha
  have hno : ¬ D pid := fun hD => by
    have := h.known pid hD
    rw [hpid] at this
    cases this
  unfold newNode at hc
  obtain ⟨t₁, hmk, rfl⟩ := Option.map_eq_some_iff.1 hc
  obtain ⟨parent, rfl, hr, hppid⟩ := makeNode_room h.shape hroom hmk
  have hpar : (t.addNode pid parent).parentUnsat t.size = true ↔
      ∃ p, parent = some p ∧ (t.node p).status = .unsat := by
    unfold parentUnsat
    rw [addNode_parent, if_pos rfl]
    cases parent with
    | none => simp
    | some p => simp [addNode_status, Nat.ne_of_lt hr.1]
  split
  · rename_i hu
    obtain ⟨p, rfl, hup⟩ := hpar.1 hu
    refine h.create hr hpid hppid nodeSolvedUnsat_shape
      (h.marks.addRefuted h.shape hr hpid (fun _ hD => hD) (fun _ hD => .inl hD) fun hf => ?_)
      fun _ hD => .inl hD
    exact (addNode_derived h.shape hr hno t.size).2
      (by rw [if_pos rfl]; exact ⟨p, rfl, (h.marks.derived hf p).1 hup⟩)
  · rename_i hu
    have hm := h.marks.addNode h.shape hr hno fun p hp hup => hu (hpar.2 ⟨p, hp, hup⟩)
    have hq := appendWaiting_quiet (t := t.addNode pid parent)
      ((t.addNode pid parent).waitings ++ [t.size])
    exact h.create hr hpid hppid hq.toSameShape (hm.congr hq) fun _ hD => .inl hD

/-- A line about a node that the partitioner has refuted. -/
theorem Kept.newUnsat (h : Kept E D t) {pid : Nat} {ppid : Option Nat}
    (ha : t.Allowed (.newNode (.newUnsatNode pid ppid)))
    (hc : t.newNode (.newUnsatNode pid ppid) = some t') :
    Kept (fun p q => E p q ∨ pid = p ∧ ppid = q) (With D pid) t' := by
  obtain ⟨hpid, hroom⟩ := ha
  unfold newNode at hc
  obtain ⟨t₁, hmk, rfl⟩ := Option.map_eq_some_iff.1 hc
  obtain ⟨parent, rfl, hr, hppid⟩ := makeNode_room h.shape hroom hmk
  refine h.create hr hpid hppid nodeSolvedUnsat_shape
    (h.marks.addRefuted h.shape hr hpid (fun _ hD => .inl hD) (fun _ hD => hD) fun _ => ?_)
    fun _ hD => hD
  refine .base ⟨?_, .inr ?_⟩
  · rw [addNode_size]
    exact Nat.lt_succ_self _
  · rw [addNode_node, if_pos rfl]

/-- **One call.** -/
theorem Kept.call (h : Kept E D t) {c : Call} (ha : t.Allowed c) (hc : t.call c = some t') :
    Kept (fun p q => E p q ∨ Creates p q c) (fun p => D p ∨ Refutes p c) t' := by
  have hnoE : (fun p q => E p q ∨ False) = E := by simp
  have hnoD : (fun p => D p ∨ False) = D := by simp
  cases c with
  | newNode line =>
    cases line with
    | newUnknownNode pid ppid =>
      show Kept _ (fun p => D p ∨ False) t'
      rw [hnoD]
      exact h.newUnknown ha hc
    | newUnsatNode pid ppid => exact h.newUnsat ha hc
  | solved pid =>
    show Kept (fun p q => E p q ∨ False) _ t'
    rw [hnoE]
    obtain ⟨v, hv, rfl⟩ := Option.map_eq_some_iff.1 hc
    have hq := unassign_quiet (t := t) v
    exact (h.quiet hq).solvedUnsat (by rwa [hq.pid2node])
  | split pid =>
    show Kept (fun p q => E p q ∨ False) _ t'
    rw [hnoE]
    obtain ⟨v, hv, rfl⟩ := Option.map_eq_some_iff.1 hc
    have hq := terminatePath_quiet (v + 1) t v
    exact (h.quiet hq).solvedUnsat (by rwa [hq.pid2node])
  | terminate pid =>
    show Kept (fun p q => E p q ∨ False) (fun p => D p ∨ False) t'
    rw [hnoE, hnoD]
    obtain ⟨v, -, rfl⟩ := Option.map_eq_some_iff.1 hc
    exact h.quiet (terminate_quiet v)
  | assign =>
    show Kept (fun p q => E p q ∨ False) (fun p => D p ∨ False) t'
    rw [hnoE, hnoD]
    cases hc
    exact h.quiet runWaitingTask_quiet

/-! ## Runs -/

/-- The calls of a trace that make the node `pid` below `ppid`. -/
def Made (cs : List Call) (pid : Nat) (ppid : Option Nat) : Prop := ∃ c ∈ cs, Creates pid ppid c

/-- The nodes a trace refutes directly. -/
def RefutedBy (cs : List Call) (pid : Nat) : Prop := ∃ c ∈ cs, Refutes pid c

theorem Kept.run {cs : List Call} (hrun : calls.Run t cs t') (h : Kept E D t) :
    Kept (fun p q => E p q ∨ Made cs p q) (fun p => D p ∨ RefutedBy cs p) t' := by
  induction hrun generalizing E D with
  | nil s => simpa [Made, RefutedBy] using h
  | cons hstep _ ih =>
    have := ih (h.call hstep.1 hstep.2)
    simpa [Made, RefutedBy, or_assoc] using this

theorem shape_empty : Shape empty where
  grown := ⟨fun _ _ hp => (by cases hp), fun _ c => iff_of_false (fun hf => by cases hf)
    fun hf => Nat.not_lt_zero c hf.1⟩
  parent v hv _ := absurd hv (Nat.not_lt_zero v)
  two _ := Nat.zero_le 2
  nodup _ := List.nodup_nil
  pids _ v := iff_of_false (fun hf => by cases hf) fun hf => Nat.not_lt_zero v hf.1

theorem marks_empty : Marks (fun _ => False) empty := by
  have hno : ∀ v, ¬ Derived (fun _ => False) empty v := fun v hd => Nat.not_lt_zero v (hd.lt shape_empty)
  refine ⟨fun _ => ⟨fun v _ hv => ?_, fun v _ hne => absurd rfl hne⟩, fun _ v => ?_, fun hf => ?_, ?_⟩
  · cases hv
  · exact iff_of_false (fun hf => by cases hf) (hno v)
  · cases hf
  · exact iff_of_false (fun hf => by cases hf) fun hf => by cases hf

theorem kept_empty : Kept (fun _ _ => False) (fun _ => False) empty :=
  ⟨shape_empty, marks_empty, fun _ hf => hf.elim,
    fun _ _ => iff_of_false (fun hf => hf) fun ⟨_, hv, _⟩ => by cases hv⟩

/-- What a run from the empty tree leads to. -/
theorem kept_of_run {cs : List Call} (hrun : calls.Run empty cs t) :
    Kept (Made cs) (RefutedBy cs) t := by
  have h := kept_empty.run hrun
  simpa using h

/-- The node a trace refutes directly. -/
def Direct (cs : List Call) (t : ParallelTree) (v : Nat) : Prop :=
  v < t.size ∧ RefutedBy cs (t.node v).pid

/-- The least set with the nodes refuted directly, and with every node whose
two children are in it. -/
def Closure (cs : List Call) (t : ParallelTree) : Nat → Prop :=
  Raised 2 (fun v => (t.node v).children) (Direct cs t)

theorem Shape.derived_iff (h : Shape t) {cs : List Call} :
    Derived (RefutedBy cs) t v ↔ ∃ a, t.below a v ∧ Closure cs t a :=
  refuted_iff_raised fun p q c hp hq =>
    Option.some.inj (((h.grown.child p c).1 hp).2.symm.trans ((h.grown.child q c).1 hq).2)

theorem Marks.result_iff (hm : Marks D t) : t.result = .unsat ↔ Derived D t 0 := by
  rw [hm.result]
  refine ⟨hm.root, fun hd => ?_⟩
  cases hr : t.rootUnsat
  · have := rootUnsat_iff.2 ((hm.derived hr 0).2 hd)
    rw [hr] at this
    cases this
  · rfl

/-! ## The order of the calls -/

theorem two_le_of_mem {l : List Nat} {a b : Nat} (ha : a ∈ l) (hb : b ∈ l) (hab : a ≠ b) :
    2 ≤ l.length := by
  match l, ha, hb with
  | [c], ha, hb => exact absurd ((List.mem_singleton.1 ha).trans (List.mem_singleton.1 hb).symm) hab
  | _ :: _ :: _, _, _ => simp

/-- Two trees with the same creations have the same children, by number. -/
theorem Kept.child {t₁ t₂ : ParallelTree} (h₁ : Kept E D t₁) (h₂ : Kept E D t₂) {p₁ c₁ c₂ : Nat}
    (hc : c₁ ∈ (t₁.node p₁).children) (hc₂ : t₂.pid2node (t₁.node c₁).pid = some c₂) :
    ∃ p₂, t₂.pid2node (t₁.node p₁).pid = some p₂ ∧ c₂ ∈ (t₂.node p₂).children := by
  obtain ⟨hlt, hp⟩ := (h₁.shape.grown.child p₁ c₁).1 hc
  have hp : (t₁.node c₁).parent = some p₁ := hp
  have hE : E (t₁.node c₁).pid (some (t₁.node p₁).pid) := by
    refine (h₁.made _ _).2 ⟨c₁, h₁.shape.number hlt, ?_⟩
    unfold parentPid
    rw [hp]
    rfl
  obtain ⟨c, hv, hpar⟩ := (h₂.made _ _).1 hE
  cases hc₂.symm.trans hv
  obtain ⟨hlt₂, -⟩ := (h₂.shape.pids _ _).1 hv
  obtain ⟨p₂, hp₂, hpid₂⟩ := Option.map_eq_some_iff.1 hpar
  have hpc := h₂.shape.grown.parentLt c₂ p₂ hp₂
  exact ⟨p₂, (h₂.shape.pids _ _).2 ⟨by omega, hpid₂⟩, (h₂.shape.grown.child p₂ c₂).2 ⟨hlt₂, hp₂⟩⟩

theorem Kept.exists_node {t₁ t₂ : ParallelTree} (h₁ : Kept E D t₁) (h₂ : Kept E D t₂) {v₁ : Nat}
    (hv : v₁ < t₁.size) : ∃ v₂, t₂.pid2node (t₁.node v₁).pid = some v₂ := by
  have hE := (h₁.made (t₁.node v₁).pid _).2 ⟨v₁, h₁.shape.number hv, rfl⟩
  obtain ⟨v₂, hv₂, -⟩ := (h₂.made _ _).1 hE
  exact ⟨v₂, hv₂⟩

/-- What is derived depends on the creations and the refutations only. -/
theorem Kept.derived_of {t₁ t₂ : ParallelTree} (h₁ : Kept E D t₁) (h₂ : Kept E D t₂) {v₁ : Nat}
    (hd : Derived D t₁ v₁) : ∀ v₂, t₂.pid2node (t₁.node v₁).pid = some v₂ → Derived D t₂ v₂ := by
  refine hd.least (M := fun v => ∀ v₂, t₂.pid2node (t₁.node v).pid = some v₂ → Derived D t₂ v₂)
    (fun v hb v₂ hv₂ => ?_) (fun p c ih hc v₂ hv₂ => ?_) fun n hne hk ih v₂ hv₂ => ?_
  · obtain ⟨hlt, hpid⟩ := (h₂.shape.pids _ _).1 hv₂
    exact .base ⟨hlt, by rw [hpid]; exact hb.2⟩
  · obtain ⟨p₂, hp₂, hc₂⟩ := h₁.child h₂ hc hv₂
    exact .down (ih p₂ hp₂) hc₂
  · -- the two children of `n` are the two children of its counterpart
    have hfwd : ∀ c ∈ (t₁.node n).children,
        ∃ c₂ ∈ (t₂.node v₂).children, t₂.pid2node (t₁.node c).pid = some c₂ := by
      intro c hc
      obtain ⟨c₂, hc₂⟩ := h₁.exists_node h₂ (h₁.shape.child_lt hc).2
      obtain ⟨p₂, hp₂, hm⟩ := h₁.child h₂ hc hc₂
      cases hv₂.symm.trans hp₂
      exact ⟨c₂, hm, hc₂⟩
    have hnd := h₁.shape.nodup n
    match hcs : (t₁.node n).children with
    | [] => exact absurd hcs hne
    | [a] =>
      rw [hcs] at hk
      exact absurd hk (by simp)
    | a :: b :: _ =>
      have hma : a ∈ (t₁.node n).children := by rw [hcs]; simp
      have hmb : b ∈ (t₁.node n).children := by rw [hcs]; simp
      obtain ⟨hna, hsa⟩ := h₁.shape.child_lt hma
      obtain ⟨-, hsb⟩ := h₁.shape.child_lt hmb
      obtain ⟨a₂, ha₂, ha⟩ := hfwd a hma
      obtain ⟨b₂, hb₂, hb⟩ := hfwd b hmb
      have hab : a₂ ≠ b₂ := by
        rintro rfl
        have hpid := ((h₂.shape.pids _ _).1 ha).2.symm.trans ((h₂.shape.pids _ _).1 hb).2
        have he := h₁.shape.pid_inj hsa hsb hpid
        rw [hcs, he] at hnd
        simp at hnd
      refine .up (List.ne_nil_of_mem ha₂) (two_le_of_mem ha₂ hb₂ hab) fun c₂ hc₂ => ?_
      have hsc := (h₂.shape.child_lt hc₂).2
      obtain ⟨c, hc⟩ := h₂.exists_node h₁ hsc
      obtain ⟨p, hp, hm⟩ := h₂.child h₁ hc₂ hc
      rw [((h₂.shape.pids _ _).1 hv₂).2, h₁.shape.number (by omega : n < t₁.size)] at hp
      rw [← Option.some.inj hp] at hm
      refine ih c hm c₂ ?_
      rw [((h₁.shape.pids _ _).1 hc).2]
      exact h₂.shape.number hsc

/-- The root, whose number is that of its counterpart, for it has no parent. -/
theorem Kept.derived_root_of {t₁ t₂ : ParallelTree} (h₁ : Kept E D t₁) (h₂ : Kept E D t₂)
    (hd : Derived D t₁ 0) : Derived D t₂ 0 := by
  have hlt := hd.lt h₁.shape
  have hE : E (t₁.node 0).pid none := by
    refine (h₁.made _ _).2 ⟨0, h₁.shape.number hlt, ?_⟩
    unfold parentPid
    rw [h₁.shape.root_parent]
    rfl
  obtain ⟨v, hv, hpar⟩ := (h₂.made _ _).1 hE
  have h0 := h₂.shape.parent v ((h₂.shape.pids _ _).1 hv).1 (Option.map_eq_none_iff.1 hpar)
  rw [h0] at hv
  exact h₁.derived_of h₂ hd 0 hv

/-- **The coordinator's tree is the closure.** After any run, the result is
unsat just when the closure of the direct refutations has the root. Until then
a node is unsat just when it is in the closure or below a node of it. Runs
with the same creations and the same direct refutations, in whatever order,
have the same result and, until it is unsat, the same unsat nodes. -/
theorem unsat_closure {cs : List Call} {t : ParallelTree} (hrun : calls.Run empty cs t) :
    (t.rootUnsat = false →
      ∀ v, (t.node v).status = .unsat ↔ ∃ a, t.below a v ∧ Closure cs t a) ∧
    (t.result = .unsat ↔ Closure cs t 0) ∧
    ∀ cs' t', calls.Run empty cs' t' →
      (∀ pid ppid, Made cs pid ppid ↔ Made cs' pid ppid) →
      (∀ pid, RefutedBy cs pid ↔ RefutedBy cs' pid) →
      (t.result = .unsat ↔ t'.result = .unsat) ∧
      (t.rootUnsat = false → ∀ pid v v', t.pid2node pid = some v → t'.pid2node pid = some v' →
        ((t.node v).status = .unsat ↔ (t'.node v').status = .unsat)) := by
  have h := kept_of_run hrun
  refine ⟨fun hr v => ?_, ?_, fun cs' t' hrun' hmade hrefuted => ?_⟩
  · rw [h.marks.derived hr, h.shape.derived_iff]
  · rw [h.marks.result_iff, h.shape.derived_iff]
    constructor
    · rintro ⟨a, ha, hc⟩
      rwa [h.shape.eq_of_below_root ha] at hc
    · exact fun hc => ⟨0, .refl, hc⟩
  · have h' := kept_of_run hrun'
    rw [← funext fun pid => propext (hrefuted pid),
      ← funext fun pid => funext fun ppid => propext (hmade pid ppid)] at h'
    have hroot : Derived (RefutedBy cs) t 0 ↔ Derived (RefutedBy cs) t' 0 :=
      ⟨h.derived_root_of h', h'.derived_root_of h⟩
    have hres : t.result = .unsat ↔ t'.result = .unsat := by
      rw [h.marks.result_iff, h'.marks.result_iff, hroot]
    refine ⟨hres, fun hr pid v v' hv hv' => ?_⟩
    have hr' : t'.rootUnsat = false := by
      rw [← Bool.not_eq_true, ← h'.marks.result, ← hres, h.marks.result, hr]
      decide
    rw [h.marks.derived hr, h'.marks.derived hr']
    obtain ⟨-, hpid⟩ := (h.shape.pids _ _).1 hv
    obtain ⟨-, hpid'⟩ := (h'.shape.pids _ _).1 hv'
    exact ⟨fun hd => h.derived_of h' hd v' (by rwa [hpid]),
      fun hd => h'.derived_of h hd v (by rwa [hpid'])⟩

theorem unsat_closure_split : ∃ t, calls.Run empty
      [.newNode (.newUnknownNode 0 none), .newNode (.newUnknownNode 1 (some 0)), .assign,
        .newNode (.newUnsatNode 2 (some 0)), .split 1] t ∧
    Closure [.newNode (.newUnknownNode 0 none), .newNode (.newUnknownNode 1 (some 0)), .assign,
      .newNode (.newUnsatNode 2 (some 0)), .split 1] t 0 := by
  have h : ∃ t, calls.Run empty
      [.newNode (.newUnknownNode 0 none), .newNode (.newUnknownNode 1 (some 0)), .assign,
        .newNode (.newUnsatNode 2 (some 0)), .split 1] t ∧ t.result = .unsat := by
    refine ⟨_, .cons ⟨⟨rfl, rfl⟩, rfl⟩ (.cons ⟨⟨rfl, 0, rfl, Nat.zero_lt_two⟩, rfl⟩
      (.cons ⟨trivial, rfl⟩ (.cons ⟨⟨rfl, 0, rfl, Nat.one_lt_two⟩, rfl⟩
        (.cons ⟨rfl, rfl⟩ (.nil _))))), ?_⟩
    decide
  obtain ⟨t, hrun, hres⟩ := h
  exact ⟨t, hrun, (unsat_closure hrun).2.1.1 hres⟩

end ParallelTree

end AriParti.L3
