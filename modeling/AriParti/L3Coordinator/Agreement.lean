import AriParti.L2Partitioner.Verdicts
import AriParti.L3Coordinator.Session

/-!
# The two trees agree

The coordinator and the partitioner keep a tree each, and each spreads an
unsat mark over its own. What is sent is only where a mark starts. When both
pipes are empty each side knows all starts, so the trees should agree: a node
is UNSAT on one side when it is on the other, and the alive tasks of the
partitioner are the nodes that are still to be solved or being solved.

The rules of the two sides derive the same, although the coordinator waits for
two children and the partitioner asks for no number: the children that are not
announced yet have an UNSAT parent. But the partitioner does not push up the
marks it makes itself. When it refutes a node whose sibling is UNSAT, its
parent stays WAITING there, the coordinator pushes up and sends nothing, and
the parent counts as an alive task until the round ends or a node above it is
refuted.

## Layout

* `Settled`, `Agree`.
* `Joined.transfer`, `Joined.unsat_of_derived`: from one tree to the other.
* `crossed`: a problem with a split that refutes both children.

## Results

* `trees_agree`: in every run in which the partitioner refutes no node whose
  sibling is UNSAT the trees agree in every settled state; and in any run they
  agree in a settled state exactly if the marks of the partitioner are pushed
  up.
-/
namespace AriParti.L3
open AriParti.Core AriParti.L2

/-- The nodes that are to be solved or being solved. -/
def ParallelTree.activeNodes (t : ParallelTree) : Finset Nat :=
  (Finset.range t.size).filter fun v =>
    (t.node v).status = .unsolved ∨ (t.node v).status = .solving

namespace Session
open Context ParallelTree Coordinator

variable {K : Kernel} {maxAlive cores : Nat} {s : Session K}

/-- The round goes on, and both pipes are empty. -/
structure Settled (s : Session K) : Prop extends Live s where
  toCoord : s.toCoord = []
  toParti : s.toParti = []

/-- Each announced node is in the same state on both sides. -/
structure Agree (s : Session K) : Prop where
  node : ∀ n, s.parti.Announced n → ∃ v, s.coord.tree.pid2node n = some v ∧
    ((s.parti.node n).state = .unsat ↔ (s.coord.tree.node v).status = .unsat) ∧
    ((s.parti.node n).state = .waiting ↔ s.coord.tree.Active v) ∧
    ((s.parti.node n).state = .terminated ↔ (s.coord.tree.node v).status = .terminated)
  alive : s.parti.aliveTaskNum = s.coord.tree.activeNodes.card

/-- The partitioner refutes no node whose sibling is UNSAT. -/
def Unpaired (s : Session K) : Label → Prop
  | .parti ls => s.parti.Unpaired ls
  | _ => True

/-! ## From one tree to the other -/

/-- All that is written is read. -/
structure Joined (p : Context K) (c : Coordinator) : Prop where
  inv : p.Inv
  lines : p.Lines
  genealogy : p.Genealogy
  told : p.Told
  follows : c.Follows p.written
  sent : c.sent = p.read

section

variable {p : Context K} {c : Coordinator} {n v : Nat}

theorem Joined.refutedLine (h : Joined p c) : RefutedLine p.written c.sent = p.ToldUnsat := by
  funext n
  unfold RefutedLine ToldUnsat
  rw [h.sent]

theorem Joined.announces (h : Joined p c) (hn : p.Announced n) :
    Announces p.written n (p.node n).parent := by
  obtain ⟨q, hq⟩ := hn
  rw [(announces_node h.lines hq).2]
  exact hq

theorem Joined.number (h : Joined p c) (hn : p.Announced n) :
    ∃ v, c.tree.pid2node n = some v := by
  obtain ⟨v, hv, -⟩ := (h.follows.kept.made n _).1 (h.announces hn)
  exact ⟨v, hv⟩

theorem Joined.announced (h : Joined p c) (hv : c.tree.pid2node n = some v) : p.Announced n :=
  ⟨_, (h.follows.kept.made n _).2 ⟨v, hv, rfl⟩⟩

/-- A node with children has been announced. -/
theorem Joined.parent (h : Joined p c) (hne : p.childrenOf n ≠ []) : p.Announced n :=
  ⟨_, .inl (h.lines.parentTold n hne)⟩

/-- Children are children on the other side. -/
theorem Joined.child (h : Joined p c) {m w : Nat} (hm : m ∈ p.childrenOf n)
    (hv : c.tree.pid2node n = some v) (hw : c.tree.pid2node m = some w) :
    w ∈ (c.tree.node v).children := by
  have hpar : (p.node m).parent = some n := ((h.inv.grown.child n m).1 hm).2
  have ha := h.announces (h.announced hw)
  rw [hpar] at ha
  obtain ⟨w', hw', hparent⟩ := (h.follows.kept.made m _).1 ha
  cases hw.symm.trans hw'
  obtain ⟨u, hu, hpid⟩ := Option.map_eq_some_iff.1 hparent
  obtain ⟨hlt, -⟩ := (h.follows.kept.shape.pids m w).1 hw
  have huw := h.follows.kept.shape.grown.parentLt w u hu
  have hun : c.tree.pid2node n = some u :=
    (h.follows.kept.shape.pids n u).2 ⟨by omega, hpid⟩
  cases hv.symm.trans hun
  exact (h.follows.kept.shape.grown.child v w).2 ⟨hlt, hu⟩

theorem Joined.child_pid (h : Joined p c) {w : Nat} (hw : w ∈ (c.tree.node v).children) :
    (c.tree.node w).pid ∈ p.childrenOf (c.tree.node v).pid := by
  obtain ⟨-, hlt⟩ := h.follows.kept.shape.child_lt hw
  have hp : (c.tree.node w).parent = some v := ((h.follows.kept.shape.grown.child v w).1 hw).2
  have ha := h.follows.kept.announced hlt
  unfold parentPid at ha
  rw [hp, Option.map_some] at ha
  exact (h.inv.grown.child _ _).2 (announces_node h.lines ha)

/-- What the partitioner's rules derive, the coordinator's do: for a node that
is not announced yet, they derive its parent. -/
theorem Joined.transfer (h : Joined p c) (hn : Refuted 0 p.childrenOf p.ToldUnsat n) :
    (∀ v, c.tree.pid2node n = some v → Derived p.ToldUnsat c.tree v) ∧
      (c.tree.pid2node n = none → ∃ q v, (p.node n).parent = some q ∧
        c.tree.pid2node q = some v ∧ Derived p.ToldUnsat c.tree v) := by
  have hshape := h.follows.kept.shape
  refine hn.least (M := fun n =>
    (∀ v, c.tree.pid2node n = some v → Derived p.ToldUnsat c.tree v) ∧
      (c.tree.pid2node n = none → ∃ q v, (p.node n).parent = some q ∧
        c.tree.pid2node q = some v ∧ Derived p.ToldUnsat c.tree v))
    (fun m hm => ⟨fun v hv => ?_, fun hnone => ?_⟩)
    (fun q m ih hm => ?_) fun m hne _ ih => ⟨fun v hv => ?_, fun hnone => ?_⟩
  · obtain ⟨hlt, hpid⟩ := (hshape.pids m v).1 hv
    exact .base ⟨hlt, by rw [hpid]; exact hm⟩
  · rw [← h.refutedLine] at hm
    have := h.follows.kept.known m hm
    rw [hnone] at this
    cases this
  · -- down from `q`
    obtain ⟨v, hv⟩ := h.number (h.parent (List.ne_nil_of_mem hm))
    have hd := ih.1 v hv
    exact ⟨fun w hw => .down hd (h.child hm hv hw),
      fun _ => ⟨q, v, ((h.inv.grown.child q m).1 hm).2, hv, hd⟩⟩
  · -- up to `m`, unless a child that is not announced has it for its reason
    by_cases hall : ∀ k ∈ p.childrenOf m, ∃ w, c.tree.pid2node k = some w
    · obtain ⟨a, b, hab, -⟩ := h.genealogy.children m hne
      have hnd := h.told.twins m
      rw [hab] at hnd
      have hdiff : b ≠ a := by simpa using hnd
      have hma : a ∈ p.childrenOf m := by
        show a ∈ (p.node m).children
        simp [hab]
      have hmb : b ∈ p.childrenOf m := by
        show b ∈ (p.node m).children
        simp [hab]
      obtain ⟨x, hx⟩ := hall a hma
      obtain ⟨y, hy⟩ := hall b hmb
      have hxy : x ≠ y := by
        rintro rfl
        exact hdiff (((hshape.pids b x).1 hy).2.symm.trans ((hshape.pids a x).1 hx).2)
      have hxc := h.child hma hv hx
      have hyc := h.child hmb hv hy
      refine .up (List.ne_nil_of_mem hxc) (two_le_of_mem hxc hyc hxy) fun w hw => ?_
      have hpid := h.child_pid hw
      rw [((hshape.pids m v).1 hv).2] at hpid
      exact (ih _ hpid).1 w (hshape.number (hshape.child_lt hw).2)
    · simp only [not_forall] at hall
      obtain ⟨k, hk, hno⟩ := hall
      have hnone : c.tree.pid2node k = none := by
        rw [Option.eq_none_iff_forall_ne_some]
        exact fun w hw => hno ⟨w, hw⟩
      obtain ⟨q, u, hq, hu, hd⟩ := (ih k hk).2 hnone
      have hkm : (p.node k).parent = some m := ((h.inv.grown.child m k).1 hk).2
      cases hkm.symm.trans hq
      cases hv.symm.trans hu
      exact hd
  · obtain ⟨v, hv⟩ := h.number (h.parent hne)
    rw [hnone] at hv
    cases hv

/-- What the coordinator's rules derive is UNSAT in the partitioner, if its
marks are pushed up. -/
theorem Joined.unsat_of_derived (h : Joined p c) (hp : p.PushedUp)
    (hd : Derived p.ToldUnsat c.tree v) : (p.node (c.tree.node v).pid).state = .unsat := by
  have hshape := h.follows.kept.shape
  refine hd.least (M := fun v => (p.node (c.tree.node v).pid).state = .unsat)
    (fun w hw => ?_) (fun u w ih hw => ?_) fun u hne hk ih => ?_
  · rcases hw.2 with ⟨q, hq⟩ | hq
    · exact (h.lines.unsat _ q hq).2.2
    · exact h.told.unsat _ hq
  · exact h.inv.reasons.down _ ih _ (h.child_pid hw)
  · -- the two children here are the two children there
    obtain ⟨w, hw⟩ := List.exists_mem_of_ne_nil _ hne
    have hchild : p.childrenOf (c.tree.node u).pid ≠ [] := List.ne_nil_of_mem (h.child_pid hw)
    obtain ⟨a, b, hab, -⟩ := h.genealogy.children _ hchild
    let cs := (c.tree.node u).children.map fun w => (c.tree.node w).pid
    have hnodup : cs.Nodup := by
      refine List.Nodup.map_on (fun x hx y hy he => ?_) (hshape.nodup u)
      exact hshape.pid_inj (hshape.child_lt hx).2 (hshape.child_lt hy).2 he
    have hsub : cs.Subperm (p.childrenOf (c.tree.node u).pid) := by
      refine hnodup.subperm fun m hm => ?_
      obtain ⟨x, hx, rfl⟩ := List.mem_map.1 hm
      exact h.child_pid hx
    have hlen : (p.childrenOf (c.tree.node u).pid).length ≤ cs.length := by
      rw [List.length_map, show p.childrenOf (c.tree.node u).pid = [b, a] from hab]
      exact hk
    refine hp _ hchild fun m hm => ?_
    obtain ⟨x, hx, rfl⟩ := List.mem_map.1 ((hsub.perm_of_length_le hlen).mem_iff.2 hm)
    exact ih x hx

/-! ## In a settled state -/

/-- The unsat nodes of the coordinator are what is derived. -/
theorem Joined.unsat_iff (h : Joined p c) (hd : c.isDone = false) (v : Nat) :
    (c.tree.node v).status = .unsat ↔ Derived p.ToldUnsat c.tree v := by
  have hroot := root_open h.follows.kept (isDone_false_iff.1 hd).2
  rw [h.follows.kept.marks.derived hroot, h.refutedLine]

/-- An announced node. -/
theorem Joined.agree_node (h : Joined p c) (hd : c.isDone = false) (hp : p.PushedUp)
    (hn : p.Announced n) : ∃ v, c.tree.pid2node n = some v ∧
      ((p.node n).state = .unsat ↔ (c.tree.node v).status = .unsat) ∧
      ((p.node n).state = .waiting ↔ c.tree.Active v) ∧
      ((p.node n).state = .terminated ↔ (c.tree.node v).status = .terminated) := by
  obtain ⟨v, hv⟩ := h.number hn
  obtain ⟨hlt, hpid⟩ := (h.follows.kept.shape.pids n v).1 hv
  have hunsat : (p.node n).state = .unsat ↔ (c.tree.node v).status = .unsat := by
    rw [h.unsat_iff hd]
    refine ⟨fun hu => (h.transfer (h.told.sound n hu)).1 v hv, fun hder => ?_⟩
    rw [← hpid]
    exact h.unsat_of_derived hp hder
  have hterm : (p.node n).state = .terminated ↔ (c.tree.node v).status = .terminated := by
    constructor
    · intro ht
      obtain ⟨w, hw, hs⟩ := h.follows.ended n (by rw [h.sent]; exact h.told.terminated n ht)
      cases hv.symm.trans hw
      refine hs.resolve_right fun hu => ?_
      rw [hunsat.2 hu] at ht
      cases ht
    · intro ht
      have hline := h.follows.terminated v hlt ht
      rw [h.sent, hpid] at hline
      refine (h.told.ended n hline).resolve_right fun hu => ?_
      rw [hunsat.1 hu] at ht
      cases ht
  refine ⟨v, hv, hunsat, ?_, hterm⟩
  -- the two statuses that are left on each side
  have hstate : (p.node n).state ≠ .unconverted := by
    obtain ⟨q, hq | hq⟩ := hn
    · exact (h.lines.unknown n q hq).2.2
    · rw [(h.lines.unsat n q hq).2.2]
      exact NodeState.noConfusion
  obtain ⟨hsat, herror⟩ := h.follows.queued.plain v hlt
  unfold Active
  cases hs : (p.node n).state <;> cases ht : (c.tree.node v).status <;>
    simp_all

/-- The alive tasks are the active nodes. -/
theorem Joined.agree_alive (h : Joined p c) (hd : c.isDone = false) (hp : p.PushedUp) :
    p.aliveTaskNum = c.tree.activeNodes.card := by
  have hshape := h.follows.kept.shape
  rw [h.inv.counted.alive, eq_comm]
  refine Finset.card_bij (fun v _ => (c.tree.node v).pid) (fun v hv => ?_)
    (fun v hv w hw he => ?_) fun n hn => ?_
  · obtain ⟨hlt, hact⟩ := Finset.mem_filter.1 hv
    have hnum := hshape.number (Finset.mem_range.1 hlt)
    obtain ⟨w, hw, -, hwait, -⟩ := h.agree_node hd hp (h.announced hnum)
    cases hnum.symm.trans hw
    have hs := hwait.2 hact
    exact mem_waitingNodes.2 ⟨h.inv.counted.made _ hs, hs⟩
  · exact hshape.pid_inj (Finset.mem_range.1 (Finset.mem_filter.1 hv).1)
      (Finset.mem_range.1 (Finset.mem_filter.1 hw).1) he
  · obtain ⟨-, hs⟩ := mem_waitingNodes.1 hn
    have hann : p.Announced n := ⟨_, .inl (h.lines.told n (.inl hs))⟩
    obtain ⟨v, hv, -, hwait, -⟩ := h.agree_node hd hp hann
    obtain ⟨hlt, hpid⟩ := (hshape.pids n v).1 hv
    exact ⟨v, Finset.mem_filter.2 ⟨Finset.mem_range.2 hlt, hwait.1 hs⟩, hpid⟩

end

/-- Before its first call the process has announced nothing. -/
theorem agree_empty (h : s.coord.Follows s.readLines) (he : s.parti = .empty) : s.Agree := by
  have hlines : s.readLines = [] := by
    unfold readLines
    rw [he]
    exact List.take_nil
  have hsize : s.coord.tree.size = 0 := by
    by_contra hpos
    rcases h.kept.announced (Nat.pos_of_ne_zero hpos) with ha | ha <;> rw [hlines] at ha <;>
      cases ha
  refine ⟨fun n hn => ?_, ?_⟩
  · rw [he] at hn
    obtain ⟨q, hq | hq⟩ := hn <;> cases hq
  · rw [he, eq_comm]
    refine Finset.card_eq_zero.2 ?_
    unfold activeNodes
    rw [hsize]
    rfl

/-- In a settled state all is read. -/
theorem Linked.joined (h : s.Linked maxAlive cores) (hs : s.Settled) :
    s.parti = .empty ∨ Joined s.parti s.coord := by
  obtain ⟨⟨hrun, hgen⟩, htold⟩ := told_inductive.reachable h.parti
  by_cases he : s.parti = .empty
  · exact .inl he
  obtain ⟨hi, hl⟩ := hrun.resolve_left he
  have hread : s.readLines = s.parti.written := by
    have hdrop := hs.toCoord
    rw [toCoord_eq hs.running] at hdrop
    exact List.take_of_length_le (List.drop_eq_nil_iff.1 (List.map_eq_nil_iff.1 hdrop))
  have hsent : s.coord.sent = s.parti.read := by
    rw [toParti_eq h, hs.toParti, List.append_nil]
  exact .inr ⟨hi, hl, hgen.resolve_left he, htold, hread ▸ h.follows, hsent⟩

/-- **Exactly.** In a settled state the trees agree if and only if the marks of
the partitioner are pushed up. -/
theorem agree_iff (hr : (session K maxAlive cores).Reachable s) (hs : s.Settled) :
    s.Agree ↔ s.parti.PushedUp := by
  have h := (linked_inductive K maxAlive cores).reachable hr hs.toLive
  rcases h.joined hs with he | hj
  · refine iff_of_true (agree_empty h.follows he) ?_
    rw [he]
    exact fun n hne => absurd rfl hne
  refine ⟨fun ha n hne hall => ?_, fun hp =>
    ⟨fun n hn => hj.agree_node hs.undone hp hn, hj.agree_alive hs.undone hp⟩⟩
  obtain ⟨v, hv, hunsat, -⟩ := ha.node n (hj.parent hne)
  have href : Refuted 0 s.parti.childrenOf s.parti.ToldUnsat n :=
    .up hne (Nat.zero_le _) fun c hc => hj.told.sound c (hall c hc)
  exact hunsat.2 ((hj.unsat_iff hs.undone v).2 ((hj.transfer href).1 v hv))

/-- The condition on the lines keeps the marks pushed up. -/
theorem pushedUp_inductive (K : Kernel) (maxAlive cores : Nat) :
    ((session K maxAlive cores).restrict Unpaired).Inductive fun s =>
      (s.Live → s.Linked maxAlive cores) ∧ (s.Live → s.parti.PushedUp) := by
  refine ((linked_inductive K maxAlive cores).of_restrict Unpaired).under (fun s hs _ => ?_)
    fun s l s' hlink hI ⟨hg, hs⟩ hlive' => ?_
  · rw [show s = start from hs]
    exact fun n hne => absurd rfl hne
  have hlive := Step.live hs hlive'
  have h := hI hlive
  cases hs with
  | parti _ hp hw => exact step_pushedUp (hlink hlive).parti hp hw hg h
  | @read line rest _ hphase hpipe =>
    have hmem : line ∈ s.coord.sent := by
      rw [toParti_eq (hlink hlive), hpipe]
      exact List.mem_append_right _ List.mem_cons_self
    have hann := (hlink hlive).announced hmem
    have hw : (s.parti.readLine line).written = s.parti.written ++ [] :=
      ((parseLine_recolors line).written).trans (List.append_nil _).symm
    have hstep : L2.Step K maxAlive s.parti (.readLine line) (s.parti.readLine line) :=
      .readLine line hphase hann
    exact step_pushedUp (hlink hlive).parti hstep hw
      (fun n m p hn => absurd hn List.not_mem_nil) h
  | line | processDone | receiveDone | alone | original => exact h

/-! ## Runs -/

/-- The coordinator after these lines. -/
def linesRead (ls : List P2C) : Option Coordinator :=
  ls.foldlM (fun c l => c.processPartitionerMsg (.node l)) startSolving

/-- The process has run, and then the coordinator reads all that was written. -/
theorem reachable_settled {G : Session K → Label → Prop} {p : Context K} {c : Coordinator}
    (hcoord : ∀ s l, G s (.coord (.line l)))
    (hr : ((session K maxAlive cores).restrict G).Reachable ⟨startSolving, p, 0⟩)
    (hrun : ∀ v, p.phase ≠ .done v) (hc : linesRead p.written = some c) (hd : c.isDone = false) :
    ((session K maxAlive cores).restrict G).Reachable ⟨c, p, p.written.length⟩ ∧
      Settled (⟨c, p, p.written.length⟩ : Session K) := by
  obtain ⟨hstatus, hsent⟩ := lines_same hc
  have h := reachable_lines hcoord hr rfl rfl hrun rfl hc
  refine ⟨?_, ⟨hstatus, hd, hrun⟩, ?_, ?_⟩
  · rwa [List.drop_zero, Nat.zero_add] at h
  · rw [toCoord_eq hrun, List.drop_length]
    rfl
  · show c.sent.drop _ = []
    rw [hsent]
    exact List.drop_nil

/-- **The trees agree** in every settled state of a run in which the
partitioner refutes no node whose sibling is UNSAT. In a settled state of any
run they agree exactly if each node of the partitioner whose children are all
UNSAT is UNSAT. -/
theorem trees_agree (K : Kernel) (maxAlive cores : Nat) :
    (∀ s, ((session K maxAlive cores).restrict Unpaired).Reachable s → s.Settled → s.Agree) ∧
      ∀ s, (session K maxAlive cores).Reachable s → s.Settled →
        (s.Agree ↔ s.parti.PushedUp) := by
  refine ⟨fun s hr hs => ?_, fun s hr hs => agree_iff hr hs⟩
  have hp := ((pushedUp_inductive K maxAlive cores).reachable hr).2 hs.toLive
  exact (agree_iff hr.of_restrict hs).2 hp

/-- The root of `deadEnd` is split, its right child refuted, and the coordinator
has read both lines. -/
theorem trees_agree_deadEnd :
    ∃ s, ((session deadKernel 8 1).restrict Unpaired).Reachable s ∧ s.Settled ∧
      s.parti = deadSplit ∧ s.Agree ∧ (s.Agree ↔ s.parti.PushedUp) := by
  have hroot : (rootConverted (K := deadKernel) deadRoot deadRootTask).written = [] := by
    decide
  have h₀ : ((session deadKernel 8 1).restrict Unpaired).Reachable
      ⟨startSolving, rootConverted (K := deadKernel) deadRoot deadRootTask, 0⟩ := by
    refine reachable_parti (fun s ls hls n m p hn => ?_) (deadRoot_reachable fun _ => rfl)
    have := hls _ hn
    rw [hroot] at this
    cases this
  have hw : deadSplit.written = [.newUnknownNode 0 none, .newUnsatNode 2 (some 0)] := by
    decide
  have hlines : deadSplit.written =
      (rootConverted (K := deadKernel) deadRoot deadRootTask).written ++
        [.newUnknownNode 0 none, .newUnsatNode 2 (some 0)] := by
    rw [hroot, hw]
    rfl
  -- the root has no child before the split, and one of the new ones is refuted
  have hG : Unpaired (⟨startSolving, rootConverted (K := deadKernel) deadRoot deadRootTask, 0⟩ :
      Session deadKernel) (.parti [.newUnknownNode 0 none, .newUnsatNode 2 (some 0)]) := by
    intro n m p hn hne hm
    have hn : n = 2 ∧ p = 0 := by simpa using hn
    rcases hm with hm | ⟨hm, -⟩
    · have hm : m = 2 ∧ p = 0 := by simpa using hm
      exact hne (hm.1.trans hn.1.symm)
    · have hnone : (rootConverted (K := deadKernel) deadRoot deadRootTask).childrenOf 0 = [] := by
        decide
      rw [hn.2] at hm
      exact absurd (hnone ▸ hm) List.not_mem_nil
  have h₁ := h₀.step ⟨hG, .parti rfl deadSplit_step hlines⟩
  obtain ⟨c, hc, hd⟩ : ∃ c, linesRead deadSplit.written = some c ∧ c.isDone = false := by
    rw [hw]
    refine ⟨_, rfl, ?_⟩
    decide
  have hphase : deadSplit.phase = .poll := by decide
  obtain ⟨hr, hs⟩ := @reachable_settled deadKernel 8 1 Unpaired deadSplit c
    (fun _ _ => trivial) h₁ (fun v hv => by rw [hphase] at hv; cases hv) hc hd
  obtain ⟨hagree, hiff⟩ := trees_agree deadKernel 8 1
  exact ⟨_, hr, hs, rfl, hagree _ hr hs, hiff _ hr.of_restrict hs⟩

/-! ## Two children refuted by one split -/

/-- `x` is real, the others are Boolean. Once `0 ≤ x` holds, `5 ≤ x` and
`x < 5` are both refuted. -/
def crossed : L1.Problem :=
  .ofAtoms 4 (fun _ => false) (fun x => x != 0) []
    [[.bool 3 false, .ineq 0 0 true false],
      [.bool 1 false, .ineq 0 0 false true, .ineq 0 5 true false],
      [.bool 1 true, .ineq 0 0 false true, .ineq 0 5 true false],
      [.bool 2 false, .ineq 0 0 false true, .ineq 0 1 false false],
      [.bool 2 true, .ineq 0 0 false true, .ineq 0 1 false false]] rfl

abbrev crossedKernel : Kernel := paving crossed L1.defaults L1.defaultManager L1.stable

def crossedRoot : L1.Content := L1.initRoot crossed L1.defaults L1.defaultManager

def crossedRootTask : L1.Task :=
  ⟨14, 5, [[.ineq 0 0 true false, .bool 3 false], [.ineq 0 1 false false, .bool 2 false],
    [.ineq 0 1 false false, .bool 2 true], [.ineq 0 5 true false, .ineq 0 0 false true, .bool 1 false],
    [.ineq 0 5 true false, .ineq 0 0 false true, .bool 1 true]], []⟩

theorem crossed_root_task :
    L1.convertNodeToTask crossed L1.stable crossedRoot = some crossedRootTask := by
  decide

/-- What a visit of the clause with this number makes of a node. -/
def crossedVisit (n : L1.Content) (i : Nat) : L1.Content :=
  n.propagateClause crossed (crossed.clauses.getD i [])

def crossedLeft : L1.Content := L1.childOf crossed crossedRoot 0 0 true false

def crossedRight : L1.Content := crossedVisit (L1.childOf crossed crossedRoot 0 0 false true) 0

def crossedTask : L1.Task :=
  ⟨8, 4, [[.ineq 0 5 true false, .bool 1 false], [.ineq 0 5 true false, .bool 1 true],
    [.ineq 0 1 false false, .bool 2 false], [.ineq 0 1 false false, .bool 2 true]],
    [.ineq 0 0 true false]⟩

theorem crossed_task :
    L1.convertNodeToTask crossed L1.stable crossedLeft = some crossedTask := by
  decide

/-- The root is announced and split at `0 ≤ x`. -/
def crossedSplit : Context crossedKernel :=
  (rootConverted (K := crossedKernel) crossedRoot crossedRootTask).announce
    ⟨0, 0, crossedRootTask⟩ ([0] : List Nat) (some (crossedLeft, crossedRight))

/-- The children of the left child, each refuted by two clauses. -/
def crossedRefuted : L1.Content × L1.Content :=
  (crossedVisit (crossedVisit (L1.childOf crossed crossedLeft 0 5 true false) 3) 4,
    crossedVisit (crossedVisit (L1.childOf crossed crossedLeft 0 5 false true) 1) 2)

/-- The left child is announced and split at `5 ≤ x`. -/
def crossedAnnounced : Context crossedKernel :=
  (leafConverted crossedSplit ⟨1, 0, 5, 14⟩ crossedTask).announce
    ⟨1, 1, crossedTask⟩ ([0] : List Nat) (some crossedRefuted)

theorem crossedVisit_visit {n : L1.Content} {i : Nat} (hi : i < 5)
    (hn : n.inconsistent = false) : L1.Visit crossed L1.defaults L1.defaultManager n (crossedVisit n i) := by
  have hmem : ∀ i < 5, crossed.clauses.getD i [] ∈ crossed.clauses := by decide
  exact .clause hn (hmem i hi)

theorem crossedAnnounced_reachable :
    ((machine crossedKernel 8).restrict Silent).Reachable crossedAnnounced := by
  have h₀ : ((machine crossedKernel 8).restrict Silent).Reachable
      (rootConverted (K := crossedKernel) crossedRoot crossedRootTask) :=
    rootConverted_reachable (by exact fun _ => rfl) (rfl : crossedKernel.init crossedRoot)
      (by decide) Relation.ReflTransGen.refl (by decide) crossed_root_task
  have hroot : L1.Branch crossed [] crossedRoot crossedRootTask [0]
      (some (crossedLeft, L1.childOf crossed crossedRoot 0 0 false true)) :=
    L1.Branch.cut (x := 0) (by decide) (.lit (by decide))
  have split : L2.Step crossedKernel 8
      (rootConverted (K := crossedKernel) crossedRoot crossedRootTask) .tau crossedSplit :=
    .announce rfl rfl hroot ⟨Relation.ReflTransGen.refl,
      .single (crossedVisit_visit (by decide) (by decide))⟩
  have h₁ : ((machine crossedKernel 8).restrict Silent).Reachable
      (leafConverted crossedSplit ⟨1, 0, 5, 14⟩ crossedTask) :=
    leafConverted_reachable (by exact fun _ => rfl) (h₀.step ⟨rfl, split⟩) rfl
      (by decide) (by unfold L2.IsTop; decide) (by decide)
      (by decide) (by decide) crossed_task
  have hleft : L1.Branch crossed [0] crossedLeft crossedTask [0]
      (some (L1.childOf crossed crossedLeft 0 5 true false,
        L1.childOf crossed crossedLeft 0 5 false true)) :=
    L1.Branch.cut (x := 0) (by decide) (.lit (by decide))
  have announce : L2.Step crossedKernel 8
      (leafConverted crossedSplit ⟨1, 0, 5, 14⟩ crossedTask) .tau crossedAnnounced := by
    refine .announce rfl rfl hleft ⟨?_, ?_⟩
    · exact .tail (.single (crossedVisit_visit (by decide) (by decide)))
        (crossedVisit_visit (by decide) (by decide))
    · exact .tail (.single (crossedVisit_visit (by decide) (by decide)))
        (crossedVisit_visit (by decide) (by decide))
  exact h₁.step ⟨rfl, announce⟩

/-- Both children of node 1 are reported unsat, the coordinator has read all
and sends nothing, and node 1 is WAITING on one side and UNSAT on the other. -/
theorem trees_agree_crossed :
    ∃ s, (session crossedKernel 8 1).Reachable s ∧ s.Settled ∧ ¬ s.Agree ∧ s.parti.Announced 1 ∧
      (s.parti.node 1).state = .waiting ∧ s.coord.tree.pid2node 1 = some 1 ∧
      (s.coord.tree.node 1).status = .unsat ∧ s.parti.aliveTaskNum = 2 ∧
      s.coord.tree.activeNodes.card = 1 := by
  have hw : crossedAnnounced.written = [.newUnknownNode 0 none, .newUnknownNode 1 (some 0),
      .newUnsatNode 3 (some 1), .newUnsatNode 4 (some 1)] := by
    decide
  have hread : (linesRead crossedAnnounced.written).any (fun c => !c.isDone &&
      c.tree.pid2node 1 == some 1 && (c.tree.node 1).status == .unsat &&
      c.tree.activeNodes.card == 1) = true := by
    rw [hw]
    decide
  obtain ⟨c, hc, hp⟩ := (Option.any_eq_true _ _).1 hread
  simp only [Bool.and_eq_true, Bool.not_eq_true', beq_iff_eq] at hp
  obtain ⟨⟨⟨hd, hpid⟩, hu⟩, hcard⟩ := hp
  have hphase : crossedAnnounced.phase = .poll := by decide
  have hstate : (crossedAnnounced.node 1).state = .waiting := by decide
  have halive : crossedAnnounced.aliveTaskNum = 2 := by decide
  have hann : crossedAnnounced.Announced 1 := by
    refine ⟨some 0, .inl ?_⟩
    rw [hw]
    decide
  obtain ⟨hr, hs⟩ := @reachable_settled crossedKernel 8 1 (fun _ _ => True) _ c
    (fun _ _ => trivial) (reachable_parti (fun _ _ _ => trivial) crossedAnnounced_reachable)
    (fun v hv => by rw [hphase] at hv; cases hv) hc hd
  refine ⟨_, hr.of_restrict, hs, fun ha => ?_, hann, hstate, hpid, hu, halive, hcard⟩
  have h := ha.alive
  rw [show Context.aliveTaskNum _ = 2 from halive, show Finset.card _ = 1 from hcard] at h
  cases h

end Session

end AriParti.L3
