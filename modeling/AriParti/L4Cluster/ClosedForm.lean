import AriParti.Core.LTS
import AriParti.Core.Refutation
import AriParti.L4Cluster.Tree

/-!
# The leader's tree in closed form

The statuses of `DistributedTree` are kept up by a push-up from the node just
reported. Whatever the order of the reports, the tree comes out the same: a
node is unsat when every part below it is.

## Results

* `unsatPushUp_settles`: a push-up leaves no node that could be unsat and is
  not.
* `tree_closed_form`: statuses and result in terms of the parts reported, in
  every reachable tree; no assertion fails; the order of the reports does not
  matter.
-/
namespace AriParti.L4
open AriParti.L3 AriParti.Core

/-- What the leader does to its tree while a round runs. -/
inductive TreeCall where
  | splitNode (parent coordId : Nat) (file : TaskFile)
  | solvedUnsat (v : Nat)
  deriving DecidableEq, Repr

def TreeCall.isSplit : TreeCall → Bool
  | .splitNode _ _ _ => true
  | .solvedUnsat _ => false

namespace DistributedTree

/-- Children are added to a node that is still being worked on, and such a
node is reported once. -/
def Allowed (t : DistributedTree) : TreeCall → Prop
  | .splitNode p _ _ => p < t.size ∧ (t.node p).partialStatus = .unsolved
  | .solvedUnsat v => v < t.size ∧ (t.node v).partialStatus = .unsolved

def call (t : DistributedTree) : TreeCall → Except LeaderError DistributedTree
  | .splitNode p c file => .ok (t.splitNode p c file)
  | .solvedUnsat v => t.nodePartialSolved v .unsat

/-- The tree from `assign_root_node` on. -/
def calls (coordIsolated : Nat) (file : TaskFile) : LTS DistributedTree TreeCall where
  init t := t = empty.assignRootNode coordIsolated file
  step t c t' := t.Allowed c ∧ t.call c = .ok t'

variable {t t' : DistributedTree} {v w : Nat}

/-! ## Pushing up -/

/-- A node that could be unsat is, but for the nodes of `E`. -/
def Settled (E : Nat → Prop) (t : DistributedTree) : Prop :=
  ∀ w, ¬ E w → w < t.size → t.canReasonUnsat w = true → (t.node w).status = .unsat

/-- A node that becomes unsat can only let its parent become it too. -/
theorem Settled.markUnsat (h : WF t) (hv : v < t.size) (hs : t.Settled (· = v)) :
    (t.modify v fun nd => { nd with status := .unsat }).Settled
      fun w => (t.node v).parent = some w := by
  intro w hp hw hc
  rw [modify_node]
  split
  · rfl
  · rename_i hwv
    apply hs w hwv hw
    obtain ⟨hpart, hch⟩ := canReasonUnsat_iff.1 hc
    rw [modify_node, if_neg hwv] at hpart hch
    refine canReasonUnsat_iff.2 ⟨hpart, fun c hcc => ?_⟩
    have hcv : c ≠ v := by
      rintro rfl
      exact hp ((h.child w c).1 hcc).2
    have := hch c hcc
    rwa [modify_node, if_neg hcv] at this

theorem unsatPushUp_settles (h : WF t) (hv : v < t.size) {fuel : Nat}
    (hs : t.Settled (· = v)) (hup : unsatPushUp fuel t v = .ok t') :
    t'.Settled fun _ => False := by
  induction fuel generalizing t v with
  | zero => cases hup
  | succ fuel ih =>
    unfold unsatPushUp at hup
    split at hup
    · cases hup
    · split at hup
      · rename_i hcan
        have hmark := Settled.markUnsat h hv hs
        simp only at hup
        split at hup
        · rename_i hp
          cases hup
          exact fun w _ => hmark w (by simp [hp])
        · rename_i p hp
          have hlt := h.parentLt v p hp
          have hpv : p < (t.modify v fun nd => { nd with status := .unsat }).size := by
            show p < t.size
            omega
          refine ih (h.markUnsat hcan) hpv (fun w hw => hmark w fun he => hw ?_) hup
          exact (Option.some.inj (hp.symm.trans he)).symm
      · rename_i hcan
        cases hup
        intro w _ hw hc
        exact hs w (fun he => hcan (he ▸ hc)) hw hc

/-! ## What a round keeps -/

/-- The tree in a round: parts are open or unsat, the root is the only node
without a parent, and no status is behind. -/
structure Kept (t : DistributedTree) : Prop where
  wf : WF t
  settled : t.Settled fun _ => False
  statuses : ∀ v, (t.node v).status = .unsolved ∨ (t.node v).status = .unsat
  parts : ∀ v, (t.node v).partialStatus = .unsolved ∨ (t.node v).partialStatus = .unsat
  parent : ∀ v, 0 < v → v < t.size → ∃ p, (t.node v).parent = some p
  result : t.result = if (t.node 0).status = .unsat then .unsat else .unsolved
  fresh : ∀ v, t.size ≤ v → (t.node v).partialStatus = .unsolved

theorem Kept.init (c : Nat) (f : TaskFile) : Kept (empty.assignRootNode c f) := by
  have hnode : ∀ v, (empty.assignRootNode c f).node v =
      if v = 0 then ⟨none, [], .unsolved, .unsolved, c, f⟩ else noNode := by
    intro v
    simp [assignRootNode, makeNode, empty, Function.update_apply]
  refine ⟨wf_assignRootNode c f, fun w _ _ hc => ?_, fun v => ?_, fun v => ?_, fun v hv hlt => ?_,
    ?_, fun v _ => ?_⟩
  · have := (canReasonUnsat_iff.1 hc).1
    rw [hnode] at this
    split at this <;> cases this
  · rw [hnode]
    split <;> exact .inl rfl
  · rw [hnode]
    split <;> exact .inl rfl
  · have hlt : v < 1 := hlt
    omega
  · rw [hnode]
    rfl
  · rw [hnode]
    split <;> rfl

theorem Kept.open_status (h : Kept t) (hn : (t.node v).partialStatus = .unsolved) :
    (t.node v).status ≠ .unsat := by
  intro hu
  have := (h.wf.unsat v hu).1
  rw [hn] at this
  cases this

theorem Kept.splitNode (h : Kept t) {p : Nat} (hp : p < t.size)
    (hn : (t.node p).partialStatus = .unsolved) (c : Nat) (f : TaskFile) :
    Kept (t.splitNode p c f) := by
  have hstatus : ∀ w, ((t.splitNode p c f).node w).status =
      if w = t.size then .unsolved else (t.node w).status := by
    intro w
    rw [splitNode_node]
    split
    · rfl
    · split <;> simp_all
  have hpart : ∀ w, ((t.splitNode p c f).node w).partialStatus =
      if w = t.size then .unsolved else (t.node w).partialStatus := by
    intro w
    rw [splitNode_node]
    split
    · rfl
    · split <;> simp_all
  refine ⟨h.wf.splitNode hp (h.open_status hn) c f, fun w _ hw hc => ?_, fun v => ?_, fun v => ?_,
    fun v hv hlt => ?_, ?_, fun v hv => ?_⟩
  · obtain ⟨hcp, hch⟩ := canReasonUnsat_iff.1 hc
    rw [hpart] at hcp
    split at hcp
    · cases hcp
    · rename_i hwn
      have hwp : w ≠ p := by
        rintro rfl
        rw [hn] at hcp
        cases hcp
      rw [hstatus, if_neg hwn]
      have hwlt : w < t.size := by
        rw [splitNode_size] at hw
        omega
      rw [splitNode_node, if_neg hwn, if_neg hwp] at hch
      refine h.settled w id hwlt (canReasonUnsat_iff.2 ⟨hcp, fun d hd => ?_⟩)
      have hdlt := ((h.wf.child w d).1 hd).1
      have := hch d hd
      rwa [hstatus, if_neg (by omega)] at this
  · rw [hstatus]
    split
    · exact .inl rfl
    · exact h.statuses v
  · rw [hpart]
    split
    · exact .inl rfl
    · exact h.parts v
  · rw [splitNode_node]
    split
    · exact ⟨p, rfl⟩
    · rw [splitNode_size] at hlt
      obtain ⟨q, hq⟩ := h.parent v hv (by omega)
      split
      · rename_i hvp
        exact ⟨q, hvp ▸ hq⟩
      · exact ⟨q, hq⟩
  · have hsize := h.wf.size
    have hroot : ((t.splitNode p c f).node 0).status = (t.node 0).status := by
      rw [hstatus, if_neg (by omega)]
    rw [splitNode_result, hroot, h.result]
  · rw [splitNode_size] at hv
    rw [hpart, if_neg (by omega)]
    exact h.fresh v (by omega)

/-- What a push-up changes: it makes nodes unsat. -/
theorem unsatPushUp_status {fuel : Nat} (h : unsatPushUp fuel t v = .ok t') (w : Nat) :
    (t'.node w).status = (t.node w).status ∨ (t'.node w).status = .unsat := by
  induction fuel generalizing t v with
  | zero => cases h
  | succ fuel ih =>
    unfold unsatPushUp at h
    split at h
    · cases h
    · split at h
      · have hmark : ((t.modify v fun nd => { nd with status := .unsat }).node w).status =
            (t.node w).status ∨
            ((t.modify v fun nd => { nd with status := .unsat }).node w).status = .unsat := by
          rw [modify_node]
          split
          · exact .inr rfl
          · exact .inl rfl
        simp only at h
        split at h
        · cases h
          exact hmark
        · rcases ih h with he | he
          · rwa [he]
          · exact .inr he
      · cases h
        exact .inl rfl

theorem Kept.solvedUnsat (h : Kept t) (hv : v < t.size)
    (hn : (t.node v).partialStatus = .unsolved) (hc : t.nodePartialSolved v .unsat = .ok t') :
    Kept t' ∧ SameShape t t' ∧ ∀ w, (t'.node w).partialStatus =
      if w = v then .unsat else (t.node w).partialStatus := by
  obtain ⟨t'', hok, hwf⟩ := nodePartialSolved_ok h.wf hv hn (.inr rfl)
  cases hok.symm.trans hc
  have hshape := (nodePartialSolved_shape hc).1
  unfold nodePartialSolved at hc
  rw [if_neg (by decide), if_pos (by decide), nodePartialSolvedUnsat] at hc
  split at hc
  · cases hc
  · rename_i t₁ hup
    cases hc
    obtain ⟨hs₁, hp₁, hr₁⟩ := unsatPushUp_shape hup
    have hpart : ∀ w, (t₁.node w).partialStatus =
        if w = v then .unsat else (t.node w).partialStatus := by
      intro w
      rw [hp₁, modify_node]
      split <;> rfl
    have hnode : ∀ w, ((if t₁.rootUnsat then { t₁ with result := .unsat } else t₁).node w) =
        t₁.node w := by
      intro w
      split <;> rfl
    have hstart : (t.modify v fun nd => { nd with partialStatus := .unsat }).Settled (· = v) := by
      intro w hwv hw hcan
      obtain ⟨hwp, hch⟩ := canReasonUnsat_iff.1 hcan
      rw [modify_node, if_neg hwv] at hwp hch ⊢
      refine h.settled w id hw (canReasonUnsat_iff.2 ⟨hwp, fun c hcc => ?_⟩)
      have := hch c hcc
      rw [modify_node] at this
      split at this
      · rename_i hcv
        rwa [hcv]
      · exact this
    have hset := unsatPushUp_settles (h.wf.report (h.open_status hn) .unsat) hv hstart hup
    have hstat : ∀ w, (t₁.node w).status = (t.node w).status ∨ (t₁.node w).status = .unsat := by
      intro w
      have := unsatPushUp_status hup w
      rw [modify_node] at this
      split at this
      · rename_i hwv
        subst hwv
        exact this
      · exact this
    have hroot : t₁.root = some 0 := hs₁.root.trans h.wf.root
    refine ⟨⟨hwf, fun w _ hw hcan => ?_, fun w => ?_, fun w => ?_, fun w hw hlt => ?_, ?_,
      fun w hw => ?_⟩, hshape, fun w => ?_⟩
    · have hw : w < t₁.size := by
        rw [hshape.size] at hw
        rw [hs₁.size]
        exact hw
      have hcan : t₁.canReasonUnsat w = true := by
        unfold canReasonUnsat at hcan ⊢
        simpa only [hnode] using hcan
      rw [hnode]
      exact hset w id hw hcan
    · rw [hnode]
      rcases hstat w with he | he
      · rw [he]
        exact h.statuses w
      · exact .inr he
    · rw [hnode, hpart]
      split
      · exact .inr rfl
      · exact h.parts w
    · rw [hshape.size] at hlt
      obtain ⟨p, hp⟩ := h.parent w hw hlt
      exact ⟨p, (hshape.parent w).trans hp⟩
    · rw [hnode]
      unfold rootUnsat
      rw [hroot]
      show (if (t₁.node 0).status.isUnsat = true then _ else _ : DistributedTree).result = _
      split
      · rename_i hu
        rw [if_pos (by simpa using hu)]
      · rename_i hu
        have hu : (t₁.node 0).status ≠ .unsat := by simpa using hu
        have h0 : (t.node 0).status ≠ .unsat := fun he => by
          rcases hstat 0 with hs | hs
          · exact hu (hs.trans he)
          · exact hu hs
        rw [if_neg hu, hr₁]
        show t.result = _
        rw [h.result, if_neg h0]
    · rw [hshape.size] at hw
      rw [hnode, hpart, if_neg (by omega)]
      exact h.fresh w hw
    · rw [hnode]
      exact hpart w

/-! ## The closed form -/

/-- The subtree relation of the tree. -/
def below (t : DistributedTree) : Nat → Nat → Prop := Below fun v => (t.node v).children

theorem Kept.status_iff (h : Kept t) (hv : v < t.size) :
    (t.node v).status = .unsat ↔ ∀ w, t.below v w → (t.node w).partialStatus = .unsat := by
  constructor
  · intro hu w hw
    have hw : (t.node w).status = .unsat := by
      induction hw with
      | refl => exact hu
      | tail _ hc ih => exact (h.wf.unsat _ ih).2 _ hc
    exact (h.wf.unsat w hw).1
  · intro hall
    -- children have greater numbers than their parents
    induction hk : t.size - v using Nat.strongRecOn generalizing v with
    | ind k ih =>
      apply h.settled v id hv
      refine canReasonUnsat_iff.2 ⟨hall v .refl, fun c hc => ?_⟩
      have hmem := (h.wf.child v c).1 hc
      have hlt := h.wf.parentLt c v hmem.2
      exact ih (t.size - c) (by omega) hmem.1 (fun w hw => hall w (.head hc hw)) rfl

/-- Every node is in the subtree of the root. -/
theorem Kept.below_root (h : Kept t) (hv : v < t.size) : t.below 0 v := by
  induction v using Nat.strongRecOn with
  | ind v ih =>
    rcases Nat.eq_zero_or_pos v with rfl | hpos
    · exact .refl
    · obtain ⟨p, hp⟩ := h.parent v hpos hv
      have hlt := h.wf.parentLt v p hp
      exact .tail (ih p hlt (by omega)) ((h.wf.child p v).2 ⟨hv, hp⟩)

theorem Kept.below_lt (h : Kept t) (hv : v < t.size) (hw : t.below v w) : w < t.size := by
  induction hw with
  | refl => exact hv
  | tail _ hc _ => exact ((h.wf.child _ _).1 hc).1

theorem Kept.result_iff (h : Kept t) :
    t.result = .unsat ↔ ∀ v < t.size, (t.node v).partialStatus = .unsat := by
  have hroot : t.result = .unsat ↔ (t.node 0).status = .unsat := by
    rw [h.result]
    split <;> simp_all
  rw [hroot, h.status_iff h.wf.size]
  exact ⟨fun hall v hv => hall v (h.below_root hv),
    fun hall w hw => hall w (h.below_lt h.wf.size hw)⟩

theorem Kept.step (h : Kept t) {c : TreeCall} (ha : t.Allowed c) (hc : t.call c = .ok t') :
    Kept t' := by
  cases c with
  | splitNode p c file =>
    cases hc
    exact h.splitNode ha.1 ha.2 c file
  | solvedUnsat v => exact (h.solvedUnsat ha.1 ha.2 hc).1

theorem kept_reachable (c : Nat) (f : TaskFile) (hr : (calls c f).Reachable t) : Kept t := by
  have hind : (calls c f).Inductive Kept :=
    ⟨fun _ h0 => h0 ▸ .init c f, fun _ _ _ h hs => h.step hs.1 hs.2⟩
  exact hind.reachable hr

/-! ## The order of the reports -/

/-- The splits of a trace, on a tree of their own. -/
def grow (t : DistributedTree) (ls : List TreeCall) : DistributedTree :=
  ls.foldl (fun t c =>
    match c with
    | .splitNode p c file => t.splitNode p c file
    | .solvedUnsat _ => t) t

theorem grow_filter (t : DistributedTree) (ls : List TreeCall) :
    t.grow (ls.filter TreeCall.isSplit) = t.grow ls := by
  induction ls generalizing t with
  | nil => rfl
  | cons c ls ih =>
    cases c with
    | splitNode p c file => exact ih _
    | solvedUnsat v => exact ih t

theorem SameShape.symm (h : SameShape t t') : SameShape t' t :=
  ⟨h.size.symm, h.root.symm, fun w => (h.parent w).symm, fun w => (h.children w).symm,
    fun w => (h.assignTo w).symm, fun w => (h.file w).symm⟩

theorem SameShape.splitNode (h : SameShape t t') (p c : Nat) (f : TaskFile) :
    SameShape (t.splitNode p c f) (t'.splitNode p c f) := by
  have hs := h.size
  refine ⟨by simp [hs], h.root, fun w => ?_, fun w => ?_, fun w => ?_, fun w => ?_⟩ <;>
    rw [splitNode_node, splitNode_node, hs] <;> split
  · rfl
  · split
    · exact h.parent p
    · exact h.parent w
  · rfl
  · split
    · show _ ++ _ = _ ++ _
      rw [h.children]
    · exact h.children w
  · rfl
  · split
    · exact h.assignTo p
    · exact h.assignTo w
  · rfl
  · split
    · exact h.file p
    · exact h.file w

theorem SameShape.grow (h : SameShape t t') (ls : List TreeCall) :
    SameShape (t.grow ls) (t'.grow ls) := by
  induction ls generalizing t t' with
  | nil => exact h
  | cons c ls ih =>
    cases c with
    | splitNode p c file => exact ih (h.splitNode p c file)
    | solvedUnsat v => exact ih h

/-- What a run leaves: the tree its splits make, and the parts it reports. -/
theorem run_shape {c : Nat} {f : TaskFile} {ls : List TreeCall} (hr : (calls c f).Run t ls t')
    (h : Kept t) :
    Kept t' ∧ SameShape (t.grow ls) t' ∧ ∀ v, (t'.node v).partialStatus =
      if .solvedUnsat v ∈ ls then .unsat else (t.node v).partialStatus := by
  induction hr with
  | nil t => exact ⟨h, .refl t, fun v => by rw [if_neg List.not_mem_nil]⟩
  | @cons t s t' l ls hstep hrun ih =>
    obtain ⟨ha, hc⟩ := hstep
    obtain ⟨hk, hs, hp⟩ := ih (h.step ha hc)
    refine ⟨hk, ?_⟩
    cases l with
    | splitNode p c file =>
      cases hc
      refine ⟨hs, fun v => ?_⟩
      have hv : ((t.splitNode p c file).node v).partialStatus = (t.node v).partialStatus := by
        rw [splitNode_node]
        split
        · rename_i hv
          exact (h.fresh v (Nat.le_of_eq hv.symm)).symm
        · split <;> simp_all
      rw [hp, hv]
      simp
    | solvedUnsat u =>
      obtain ⟨-, hshape, hpart⟩ := h.solvedUnsat ha.1 ha.2 hc
      refine ⟨(hshape.grow ls).trans hs, fun v => ?_⟩
      rw [hp, hpart]
      by_cases hv : v = u <;> simp [hv]

/-- **The leader's tree in closed form.** In every tree the calls can make, a
node is unsat exactly when all parts below it are, the result is unsat exactly
when all parts are, and no assertion fails in the next call. Two runs with the
same splits and the same reports, in whatever order, end in the same tree. -/
theorem tree_closed_form (coordIsolated : Nat) (file : TaskFile) :
    (∀ t, (calls coordIsolated file).Reachable t →
      (∀ v < t.size, (t.node v).status = .unsat ↔
        ∀ w, t.below v w → (t.node w).partialStatus = .unsat) ∧
      (t.result = .unsat ↔ ∀ v < t.size, (t.node v).partialStatus = .unsat) ∧
      ∀ c, t.Allowed c → ∃ t', t.call c = .ok t') ∧
    ∀ ls ls' t t', (calls coordIsolated file).Run (empty.assignRootNode coordIsolated file) ls t →
      (calls coordIsolated file).Run (empty.assignRootNode coordIsolated file) ls' t' →
      ls.filter TreeCall.isSplit = ls'.filter TreeCall.isSplit →
      (∀ v, .solvedUnsat v ∈ ls ↔ .solvedUnsat v ∈ ls') →
      SameShape t t' ∧ t.result = t'.result ∧ ∀ v < t.size,
        (t.node v).status = (t'.node v).status ∧
          (t.node v).partialStatus = (t'.node v).partialStatus := by
  constructor
  · intro t hr
    have h := kept_reachable coordIsolated file hr
    refine ⟨fun v hv => h.status_iff hv, h.result_iff, fun c ha => ?_⟩
    cases c with
    | splitNode p c file => exact ⟨_, rfl⟩
    | solvedUnsat v =>
      obtain ⟨t', ht', -⟩ := nodePartialSolved_ok h.wf ha.1 ha.2 (.inr rfl)
      exact ⟨t', ht'⟩
  · intro ls ls' t t' hrun hrun' hsplits hreports
    obtain ⟨h, hs, hp⟩ := run_shape hrun (.init coordIsolated file)
    obtain ⟨h', hs', hp'⟩ := run_shape hrun' (.init coordIsolated file)
    rw [← grow_filter, hsplits, grow_filter] at hs
    have hshape : SameShape t t' := hs.symm.trans hs'
    have hpart : ∀ v, (t.node v).partialStatus = (t'.node v).partialStatus := by
      intro v
      rw [hp, hp']
      simp only [hreports v]
    have hstatus : ∀ v < t.size, (t.node v).status = (t'.node v).status := by
      intro v hv
      have hiff : (t.node v).status = .unsat ↔ (t'.node v).status = .unsat := by
        have hbelow : t'.below v = t.below v := by
          unfold below
          rw [funext hshape.children]
        rw [h.status_iff hv, h'.status_iff (hshape.size ▸ hv), hbelow]
        simp only [hpart]
      rcases h.statuses v with hu | hu <;> rcases h'.statuses v with hu' | hu' <;> simp_all
    refine ⟨hshape, ?_, fun v hv => ⟨hstatus v hv, hpart v⟩⟩
    rw [h.result, h'.result, hstatus 0 h.wf.size]

end DistributedTree

end AriParti.L4
