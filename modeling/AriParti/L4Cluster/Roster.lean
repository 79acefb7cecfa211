import AriParti.L4Cluster.Handlers

/-!
# Where every coordinator is in the leader's books

Each distributed coordinator is in the leader's queue, or the target of one
request the leader waits for, or at work on a tree node. The proof counts: the
number of its places in the queue, of the unanswered requests for it and of
its assignments add up to one (`Roster.balance`), in every run, also with
coordinators that fail and with answers that arrive late.

## Results

* `base_inductive`: live coordinators have thrown nothing away, and each side
  sends only its own kinds of messages.
* `roster_inductive`: the balance, from pre-partition to shutdown.
* `coordinator_in_one_place`: **no coordinator is lost or double-booked**.
-/
namespace AriParti.L4
open AriParti.Core AriParti.L3

/-! ## What travels where -/

def C2L.isSplitReply : C2L → Bool
  | .splitSucceed _ _ _ => true
  | .splitFailed _ _ => true
  | _ => false

def C2L.isPrePartition : C2L → Bool
  | .prePartitionDone _ _ => true
  | _ => false

structure Base (n : Nat) (s : State) : Prop where
  drained : Drained s
  isoUp : ∀ m ∈ s.toL n, m.isSplitReply = false
  distUp : ∀ c < n, ∀ m ∈ s.toL c, m.isPrePartition = false

theorem LeaderMove.base {n : Nat} {s s' : State} {l : Lbl} (h : LeaderMove n s l s')
    (hB : Base n s) : Base n s' where
  drained c ha := by
    rw [h.coords.coord] at ha ⊢
    exact hB.drained c ha
  isoUp m hm := hB.isoUp m (h.coords.mem hm)
  distUp c hc m hm := hB.distUp c hc m (h.coords.mem hm)

theorem CoordStep.up {c : Nat} {l l' : Link} (h : CoordStep c l l') {m : C2L} (hm : m ∈ l'.up) :
    m ∈ l.up ∨ m.isPrePartition = false := by
  cases h with
  | declined _ _ | granted _ _ _ | done _ _ =>
    rcases List.mem_append.1 hm with hm | hm
    · exact .inl hm
    · exact .inr (by rw [List.mem_singleton.1 hm]; rfl)
  | transferred _ _ | assigned _ _ | received _ => exact .inl hm
  | died hu =>
    rcases hu with rfl | rfl
    · exact .inl hm
    · rcases List.mem_append.1 hm with hm | hm
      · exact .inl hm
      · exact .inr (by rw [List.mem_singleton.1 hm]; rfl)

theorem CoordStep.drained {c : Nat} {l l' : Link} (h : CoordStep c l l')
    (hl : l.co.alive = true → l.co.drained = []) (ha : l'.co.alive = true) :
    l'.co.drained = [] := by
  cases h <;> first | exact hl ha | cases ha

theorem CoordMove.base {n c : Nat} {s s' : State} {l : Lbl} (h : CoordMove n c s l s') (hc : c < n)
    (hB : Base n s) : Base n s' where
  drained d ha := by
    by_cases hd : d = c
    · subst hd
      exact (h.link hB.drained).drained (hB.drained d) ha
    · have := congrArg Link.co (h.link_ne hd)
      simp only [link_co] at this
      rw [this] at ha ⊢
      exact hB.drained d ha
  isoUp m hm := by
    have := congrArg Link.up (h.link_ne (d := n) (Nat.ne_of_gt hc))
    simp only [link_up] at this
    exact hB.isoUp m (this ▸ hm)
  distUp d hd m hm := by
    by_cases hdc : d = c
    · subst hdc
      rcases (h.link hB.drained).up hm with hm | hm
      · exact hB.distUp d hd m hm
      · exact hm
    · have := congrArg Link.up (h.link_ne hdc)
      simp only [link_up] at this
      exact hB.distUp d hd m (this ▸ hm)

theorem sendFiles_same (n : Nat) (fs : List TaskFile) (i : Nat) (s : State) :
    (s.sendFiles n i fs).leader = s.leader ∧ (s.sendFiles n i fs).coord = s.coord ∧
      (s.sendFiles n i fs).toC = s.toC ∧ (s.sendFiles n i fs).toL = s.toL ∧
      (s.sendFiles n i fs).received = s.received := by
  induction fs generalizing i s with
  | nil => exact ⟨rfl, rfl, rfl, rfl, rfl⟩
  | cons f fs ih => exact ih _ _

/-- What a move of the isolated coordinator adds to its channel. -/
theorem IsoMove.toL {n : Nat} {s s' : State} {l : Lbl} (h : IsoMove n s l s') :
    s'.toL n = s.toL n ∨ ∃ m, s'.toL n = s.toL n ++ [m] ∧ m.isSplitReply = false := by
  cases h with
  | started _ _ _ => exact .inl rfl
  | @delivered _ rest outgoing _ _ _ =>
    exact .inl (congrFun (sendFiles_same n outgoing 0 (s.pop n rest)).2.2.2.1 n)
  | dropped _ => exact .inl rfl
  | raised _ _ => exact .inr ⟨.notifyError, by simp [raiseError, die, State.post, State.pop,
      State.setCoord], rfl⟩
  | @prePartitioned pids F _ _ _ _ =>
    exact .inr ⟨.prePartitionDone pids.length (F.outgoing n pids),
      by simp [State.post, State.setCoord], rfl⟩
  | @done r _ _ _ =>
    exact .inr ⟨.notifyResult r, by simp [solvingRoundDone, State.post, State.setCoord], rfl⟩
  | failed _ => exact .inr ⟨.notifyError, by simp [State.post, State.setCoord], rfl⟩

theorem IsoMove.base {n : Nat} {s s' : State} {l : Lbl} (h : IsoMove n s l s') (hB : Base n s) :
    Base n s' where
  drained d ha := by
    by_cases hd : d = n
    · subst hd
      cases h <;>
        simp_all [raiseError, die, State.post, State.pop, State.setCoord, solvingRoundDone,
          startSolving] <;> exact hB.drained d ‹_›
    · have := congrArg Link.co (h.link_ne hd)
      simp only [link_co] at this
      rw [this] at ha ⊢
      exact hB.drained d ha
  isoUp m hm := by
    rcases h.toL with ht | ⟨m', ht, hm'⟩
    · exact hB.isoUp m (ht ▸ hm)
    · rw [ht] at hm
      rcases List.mem_append.1 hm with hm | hm
      · exact hB.isoUp m hm
      · rwa [List.mem_singleton.1 hm]
  distUp d hd m hm := by
    have := congrArg Link.up (h.link_ne (Nat.ne_of_lt hd))
    simp only [link_up] at this
    exact hB.distUp d hd m (this ▸ hm)

theorem base_inductive (n : Nat) : (lts n).Inductive (Base n) where
  init := by
    intro s hs
    rw [hs]
    exact ⟨fun _ _ => rfl, fun _ hm => (List.not_mem_nil hm).elim,
      fun _ _ _ hm => (List.not_mem_nil hm).elim⟩
  step := by
    intro s l s' hB hs
    rcases step_cases hs with h | ⟨c, hc, h⟩ | h
    · exact h.base hB
    · exact h.base hc hB
    · exact h.base hB

/-! ## Before pre-partition -/

/-- A distributed coordinator nobody has talked to yet. -/
structure QuietLink (l : Link) : Prop where
  info : l.info = initInfo
  down : l.down = []
  phase : l.co.phase = .idle
  up : ∀ m ∈ l.up, m = .notifyError

/-- All it can do is fail. -/
theorem CoordStep.quiet {c : Nat} {l l' : Link} (h : CoordStep c l l') (hq : QuietLink l) :
    QuietLink l' := by
  obtain ⟨h1, h2, h3, h4⟩ := hq
  cases h with
  | declined hm _ => rw [h2] at hm; cases hm
  | granted hm _ _ => rw [h2] at hm; cases hm
  | transferred hm _ => rw [h2] at hm; cases hm
  | assigned hm _ => rw [h2] at hm; cases hm
  | died hu =>
    refine ⟨h1, h2, h3, fun m hm => ?_⟩
    rcases hu with rfl | rfl
    · exact h4 m hm
    · exact (List.mem_append.1 hm).elim (h4 m) List.mem_singleton.1
  | received hp => rw [h3] at hp; cases hp
  | done hp hr => rw [h3] at hp; cases hp

theorem QuietLink.pending {l : Link} (h : QuietLink l) (t : Nat) : l.pending t = 0 := by
  have hup : l.up.countP (C2L.answersFor t) = 0 :=
    List.countP_eq_zero.2 fun m hm => by rw [h.up m hm]; simp [C2L.answersFor]
  simp [Link.pending, h.down, hup]

/-! ## The books in the main loop -/

def Link.isAssigned (l : Link) : Nat := l.info.assigned.isSome.toNat

structure Roster (n : Nat) (s : State) : Prop where
  nextLt : 0 < n → s.leader.nextSplitRank < n
  idleLt : ∀ t ∈ s.leader.idleCoordinators, t < n
  pendingLt : ∀ c < n, ∀ t, n ≤ t → (s.link c).pending t = 0
  balance : ∀ t < n,
    s.leader.idleCoordinators.count t + unanswered n s t + (s.link t).isAssigned = 1
  idleIff : ∀ c < n,
    (s.leader.coordinators c).status = .idle ↔ (s.leader.coordinators c).assigned = none
  node : ∀ c < n, ∀ v, (s.leader.coordinators c).assigned = some v →
    0 < v ∧ v < s.leader.tree.size ∧ (s.leader.tree.node v).assignTo = c ∧
      (s.leader.tree.node v).partialStatus = .unsolved

/-- The leader's books, by phase of the leader. -/
structure RosterInv (n : Nat) (s : State) : Prop where
  boot : s.leader.phase = .boot → s.leader.tree = .empty ∧ s.leader.coordinators n = initInfo
  wait : s.leader.phase = .waitPrePartition →
    s.leader.tree = DistributedTree.empty.assignRootNode n .input ∧
      s.leader.coordinators n = ⟨.solving, some 0, 1, 0⟩
  quiet : s.leader.phase = .boot ∨ s.leader.phase = .waitPrePartition →
    (∀ c < n, QuietLink (s.link c)) ∧ s.leader.idleCoordinators = [] ∧ s.leader.nextSplitRank = 0
  main : s.leader.phase = .main → Roster n s

theorem RosterInv.of_main {n : Nat} {s : State} (hp : s.leader.phase = .main) (h : Roster n s) :
    RosterInv n s := by
  constructor <;> intro hp' <;> simp_all

theorem RosterInv.of_stopped {n : Nat} {s : State} {o : Outcome}
    (hp : s.leader.phase = .stopped o) : RosterInv n s := by
  constructor <;> intro hp' <;> simp_all

theorem Roster.congr {n : Nat} {s s' : State} (h : Roster n s) (hl : s'.leader = s.leader)
    (hp : ∀ c < n, ∀ t, (s'.link c).pending t = (s.link c).pending t) : Roster n s' where
  nextLt := by rw [hl]; exact h.nextLt
  idleLt := by rw [hl]; exact h.idleLt
  pendingLt c hc t ht := by rw [hp c hc]; exact h.pendingLt c hc t ht
  balance t ht := by
    have := h.balance t ht
    rw [unanswered_congr fun c hc => hp c hc t]
    simpa [Link.isAssigned, link_info, hl] using this
  idleIff := by rw [hl]; exact h.idleIff
  node := by rw [hl]; exact h.node

theorem RosterInv.congr {n : Nat} {s s' : State} (h : RosterInv n s) (hl : s'.leader = s.leader)
    (hq : ∀ c < n, QuietLink (s.link c) → QuietLink (s'.link c))
    (hp : ∀ c < n, ∀ t, (s'.link c).pending t = (s.link c).pending t) : RosterInv n s' where
  boot := by rw [hl]; exact h.boot
  wait := by rw [hl]; exact h.wait
  quiet := by
    rw [hl]
    exact fun hp => ⟨fun c hc => hq c hc ((h.quiet hp).1 c hc), (h.quiet hp).2⟩
  main := by
    intro hm
    rw [hl] at hm
    exact (h.main hm).congr hl hp

theorem CoordMove.roster {n c : Nat} {s s' : State} {l : Lbl} (h : CoordMove n c s l s')
    (hD : Drained s) (hR : RosterInv n s) : RosterInv n s' := by
  refine hR.congr h.leader (fun d _ hq => ?_) fun d _ t => ?_
  all_goals by_cases hd : d = c
  · subst hd; exact (h.link hD).quiet hq
  · rw [h.link_ne hd]; exact hq
  · subst hd; exact (h.link hD).pending t
  · rw [h.link_ne hd]

theorem IsoMove.roster {n : Nat} {s s' : State} {l : Lbl} (h : IsoMove n s l s')
    (hR : RosterInv n s) : RosterInv n s' := by
  refine hR.congr h.leader (fun d hd hq => ?_) fun d hd t => ?_
  all_goals rw [h.link_ne (Nat.ne_of_lt hd)]
  exact hq

/-! ## The moves of the leader -/

section LeaderMoves

variable {n : Nat} {s : State}

def Link.popUp (l : Link) (rest : List C2L) : Link := { l with up := rest }

/-- Reading a message takes away what it answered. -/
theorem Link.pending_pop {l : Link} {m : C2L} {rest : List C2L} (hm : l.up = m :: rest) (t : Nat) :
    l.pending t = (l.popUp rest).pending t + (m.answersFor t).toNat := by
  cases h : m.answersFor t <;> simp [Link.pending, Link.popUp, hm, h]
  omega

/-- `unanswered` after the leader has read a message of `c` and changed no
request. -/
theorem unanswered_pop {s' : State} {c : Nat} (hc : c < n) {m : C2L} {rest : List C2L}
    (hm : s.toL c = m :: rest)
    (hself : ∀ t, (s'.link c).pending t = ((s.link c).popUp rest).pending t)
    (hrest : ∀ d, d ≠ c → ∀ t, (s'.link d).pending t = (s.link d).pending t) (t : Nat) :
    unanswered n s' t + (m.answersFor t).toNat = unanswered n s t := by
  have h := sum_range_change (f := fun d => (s.link d).pending t)
    (g := fun d => (s'.link d).pending t) hc fun d hd => hrest d hd t
  have hpop := Link.pending_pop (l := s.link c) hm t
  have hself := hself t
  simp only [unanswered] at h ⊢
  omega

/-- After the leader has read a message there is still no request to a
coordinator outside the cluster. -/
theorem Roster.pendingLt_pop (hR : Roster n s) {s' : State} {src : Nat} {m : C2L}
    {rest : List C2L} (hm : s.toL src = m :: rest)
    (hself : ∀ t, (s'.link src).pending t = ((s.link src).popUp rest).pending t)
    (hrest : ∀ d, d ≠ src → ∀ t, (s'.link d).pending t = (s.link d).pending t) :
    ∀ c < n, ∀ t, n ≤ t → (s'.link c).pending t = 0 := by
  intro c hc t ht
  have hzero := hR.pendingLt c hc t ht
  by_cases hcs : c = src
  · subst hcs
    have hpop := Link.pending_pop (l := s.link c) hm t
    rw [hself]
    omega
  · rw [hrest c hcs]
    exact hzero

/-- The target of an unread answer is a distributed coordinator without a
node. -/
theorem Roster.target (hR : Roster n s) {src t : Nat} {m : C2L} {rest : List C2L} (hsrc : src < n)
    (hm : s.toL src = m :: rest) (ha : m.answersFor t = true) :
    t < n ∧ (s.leader.coordinators t).assigned = none := by
  have hpop := Link.pending_pop (l := s.link src) hm t
  rw [ha, Bool.toNat_true] at hpop
  have ht : t < n := by
    by_contra hge
    have := hR.pendingLt src hsrc t (by omega)
    omega
  refine ⟨ht, ?_⟩
  have hle : (s.link src).pending t ≤ unanswered n s t :=
    Finset.single_le_sum (f := fun d => (s.link d).pending t) (fun _ _ => Nat.zero_le _)
      (Finset.mem_range.2 hsrc)
  have hb := hR.balance t ht
  simp only [Link.isAssigned, link_info] at hb
  cases hv : (s.leader.coordinators t).assigned with
  | none => rfl
  | some v =>
    simp only [hv, Option.isSome_some, Bool.toNat_true] at hb
    omega

/-- The books after `split_failed`: the target is back in the queue. -/
theorem Roster.splitFailed (hR : Roster n s) {src t tag : Nat} {rest : List C2L} (hsrc : src < n)
    (hm : s.toL src = .splitFailed t tag :: rest) :
    Roster n (processSplitFailed (s.popUp src rest) src t) := by
  set s' := processSplitFailed (s.popUp src rest) src t with hs'
  have hlink : ∀ d, (s'.link d).down = (s.link d).down ∧
      (s'.link d).up = (if d = src then rest else s.toL d) ∧
      (s'.link d).info.assigned = (s.link d).info.assigned ∧
      ((s'.link d).info.status = .idle ↔ (s.link d).info.status = .idle) := by
    intro d
    rw [hs', processSplitFailed]
    by_cases hd : d = src
    · subst hd
      by_cases hsp : (s.leader.coordinators d).status = .splitting <;>
        simp [State.link, State.down, State.popUp, State.pushIdle, State.setInfo, hsp]
    · by_cases hsp : (s.leader.coordinators src).status = .splitting <;>
        simp [State.link, State.down, State.popUp, State.pushIdle, State.setInfo, hsp, hd]
  have hleader : s'.leader.idleCoordinators = s.leader.idleCoordinators ++ [t] ∧
      s'.leader.nextSplitRank = s.leader.nextSplitRank ∧ s'.leader.tree = s.leader.tree := by
    rw [hs', processSplitFailed]
    split <;> exact ⟨rfl, rfl, rfl⟩
  have hself : ∀ x, (s'.link src).pending x = ((s.link src).popUp rest).pending x := by
    intro x
    simp [Link.pending, Link.popUp, (hlink src).1, (hlink src).2.1]
  have hrest : ∀ d, d ≠ src → ∀ x, (s'.link d).pending x = (s.link d).pending x := by
    intro d hd x
    simp only [Link.pending, (hlink d).1, (hlink d).2.1, if_neg hd]
    rfl
  have ht : t < n := (hR.target hsrc hm (by simp [C2L.answersFor])).1
  constructor
  case nextLt => rw [hleader.2.1]; exact hR.nextLt
  case idleLt =>
    rw [hleader.1]
    exact fun x hx => (List.mem_append.1 hx).elim (hR.idleLt x)
      fun hx => by rw [List.mem_singleton.1 hx]; exact ht
  case pendingLt => exact hR.pendingLt_pop hm hself hrest
  case balance =>
    intro x hx
    have hu := unanswered_pop hsrc hm hself hrest x
    have hb := hR.balance x hx
    have ha : (s'.link x).isAssigned = (s.link x).isAssigned := by
      simp only [Link.isAssigned, (hlink x).2.2.1]
    have hc : [t].count x = (t == x).toNat := by
      cases h : t == x <;> simp [List.count_singleton, h]
    rw [ha, hleader.1, List.count_append, hc]
    simp only [C2L.answersFor] at hu
    omega
  case idleIff =>
    intro c hc
    have h1 := (hlink c).2.2.2
    have h2 := (hlink c).2.2.1
    simp only [link_info] at h1 h2
    rw [h1, h2]
    exact hR.idleIff c hc
  case node =>
    intro c hc v hv
    have h2 := (hlink c).2.2.1
    simp only [link_info] at h2
    rw [hleader.2.2]
    exact hR.node c hc v (h2 ▸ hv)

/-- The books after `split_succeed`: the target holds the new node. -/
theorem Roster.splitSucceeded (hR : Roster n s) {src t tag : Nat} {f : TaskFile} {rest : List C2L}
    {s' : State} (hsrc : src < n) (hm : s.toL src = .splitSucceed t tag f :: rest)
    (h : processSplitSucceed (s.popUp src rest) src t f = .ok s') : Roster n s' := by
  obtain ⟨hst, hidle, hsp, p, hp, hs'⟩ := processSplitSucceed_ok h
  simp only [State.popUp] at hidle hsp hp
  have hself : ∀ x, (s'.link src).pending x = ((s.link src).popUp rest).pending x := by
    intro x
    simp [hs', Link.pending, Link.popUp, State.link, State.down, State.send, State.setTree,
      State.setInfo, State.popUp, hst, L2C.asksFor]
  have hrest : ∀ d, d ≠ src → ∀ x, (s'.link d).pending x = (s.link d).pending x := by
    intro d hd x
    by_cases hdt : d = t
    · subst hdt
      simp [hs', Link.pending, State.link, State.down, State.send, State.setTree,
        State.setInfo, State.popUp, hd, L2C.asksFor]
    · simp [hs', Link.pending, State.link, State.down, State.send, State.setTree,
        State.setInfo, State.popUp, hd, hdt]
  have ht : t < n := (hR.target hsrc hm (by simp [C2L.answersFor])).1
  have hinfo : ∀ d, s'.leader.coordinators d =
      if d = src then { s.leader.coordinators src with
        status := .solving, splitCount := (s.leader.coordinators src).splitCount + 1 }
      else if d = t then
        ⟨.solving, some s.leader.tree.size, (s.leader.coordinators t).solvingRound + 1, 0⟩
      else s.leader.coordinators d := by
    intro d
    simp [hs', State.setInfo, State.setTree, State.send, State.popUp, Function.update_apply]
  have htree : s'.leader.tree = s.leader.tree.splitNode p t f := by rw [hs']; rfl
  have hq : s'.leader.idleCoordinators = s.leader.idleCoordinators ∧
      s'.leader.nextSplitRank = s.leader.nextSplitRank := by rw [hs']; exact ⟨rfl, rfl⟩
  constructor
  case nextLt => rw [hq.2]; exact hR.nextLt
  case idleLt => rw [hq.1]; exact hR.idleLt
  case pendingLt => exact hR.pendingLt_pop hm hself hrest
  case balance =>
    intro x hx
    have hu := unanswered_pop hsrc hm hself hrest x
    have hb := hR.balance x hx
    rw [hq.1]
    simp only [Link.isAssigned, link_info, C2L.answersFor] at hu hb ⊢
    rw [hinfo]
    by_cases hxs : x = src
    · subst hxs
      have hne : (t == x) = false := by simpa using Ne.symm hst
      simp only [hne, Bool.toNat_false, if_true] at hu ⊢
      omega
    · by_cases hxt : x = t
      · -- the target had no node, and now it has one instead of the answer
        subst hxt
        have hnone := (hR.idleIff x hx).1 hidle
        simp only [hnone, beq_self_eq_true, Bool.toNat_true, if_neg hxs, if_true] at hu hb ⊢
        simp only [Option.isSome_none, Bool.toNat_false] at hb
        simp only [Option.isSome_some, Bool.toNat_true]
        omega
      · have hne : (t == x) = false := by simpa using Ne.symm hxt
        simp only [hne, Bool.toNat_false, if_neg hxs, if_neg hxt] at hu ⊢
        omega
  case idleIff =>
    intro c hc
    rw [hinfo]
    by_cases hcs : c = src
    · subst hcs
      simp [hp]
    · by_cases hct : c = t
      · simp [hct, Ne.symm hst]
      · simp only [if_neg hcs, if_neg hct]
        exact hR.idleIff c hc
  case node =>
    intro c hc v hv
    rw [hinfo] at hv
    rw [htree, DistributedTree.splitNode_size, DistributedTree.splitNode_node]
    have old : (s.leader.coordinators c).assigned = some v → 0 < v ∧ v < s.leader.tree.size + 1 ∧
        (if v = s.leader.tree.size then ⟨some p, [], .unsolved, .unsolved, t, f⟩
          else if v = p then { s.leader.tree.node p with
            children := (s.leader.tree.node p).children ++ [s.leader.tree.size] }
          else s.leader.tree.node v : DistributedNode).assignTo = c ∧
        (if v = s.leader.tree.size then ⟨some p, [], .unsolved, .unsolved, t, f⟩
          else if v = p then { s.leader.tree.node p with
            children := (s.leader.tree.node p).children ++ [s.leader.tree.size] }
          else s.leader.tree.node v : DistributedNode).partialStatus = .unsolved := by
      intro hv
      obtain ⟨h1, h2, h3, h4⟩ := hR.node c hc v hv
      rw [if_neg (by omega)]
      by_cases hvp : v = p
      · subst hvp; exact ⟨h1, by omega, by simpa using h3, by simpa using h4⟩
      · rw [if_neg hvp]; exact ⟨h1, by omega, h3, h4⟩
    by_cases hcs : c = src
    · subst hcs
      exact old (by simpa using hv)
    · by_cases hct : c = t
      · subst hct
        simp only [if_neg hcs, if_true, Option.some.injEq] at hv
        subst hv
        obtain ⟨-, h2, -⟩ := hR.node src hsrc p hp
        exact ⟨by omega, by omega, by simp, by simp⟩
      · simp only [if_neg hcs, if_neg hct] at hv
        exact old hv

/-- The books after a result: its coordinator is back in the queue. -/
theorem Roster.notified (hR : Roster n s) {src v : Nat} {r : NodeStatus} {rest : List C2L}
    {t : DistributedTree} (hsrc : src < n) (hm : s.toL src = .notifyResult r :: rest)
    (hv : (s.leader.coordinators src).assigned = some v)
    (ht : s.leader.tree.nodePartialSolved v r = .ok t) :
    Roster n (setCoordinatorIdle ((s.popUp src rest).setTree t) src) := by
  set s' := setCoordinatorIdle ((s.popUp src rest).setTree t) src with hs'
  obtain ⟨hshape, hpart⟩ := DistributedTree.nodePartialSolved_shape ht
  have hself : ∀ x, (s'.link src).pending x = ((s.link src).popUp rest).pending x := by
    intro x
    simp [hs', setCoordinatorIdle, Link.pending, Link.popUp, State.link, State.down,
      State.setTree, State.setInfo, State.popUp, State.pushIdle]
  have hrest : ∀ d, d ≠ src → ∀ x, (s'.link d).pending x = (s.link d).pending x := by
    intro d hd x
    simp [hs', setCoordinatorIdle, Link.pending, State.link, State.down,
      State.setTree, State.setInfo, State.popUp, State.pushIdle, hd]
  have hinfo : ∀ d, s'.leader.coordinators d =
      if d = src then (s.leader.coordinators src).nodeSolved else s.leader.coordinators d := by
    intro d
    simp [hs', setCoordinatorIdle, State.setInfo, State.setTree, State.pushIdle, State.popUp,
      Function.update_apply]
  have hq : s'.leader.idleCoordinators = s.leader.idleCoordinators ++ [src] := rfl
  constructor
  case nextLt => exact hR.nextLt
  case idleLt =>
    rw [hq]
    exact fun x hx => (List.mem_append.1 hx).elim (hR.idleLt x)
      fun hx => by rw [List.mem_singleton.1 hx]; exact hsrc
  case pendingLt => exact hR.pendingLt_pop hm hself hrest
  case balance =>
    intro x hx
    have hu := unanswered_pop hsrc hm hself hrest x
    have hb := hR.balance x hx
    rw [hq, List.count_append]
    simp only [Link.isAssigned, link_info, C2L.answersFor, Bool.toNat_false] at hu hb ⊢
    rw [hinfo]
    by_cases hxs : x = src
    · subst hxs
      simp only [hv, Option.isSome_some, Bool.toNat_true] at hb
      simp [CoordinatorInfo.nodeSolved]
      omega
    · have hne : [src].count x = 0 := by simp [Ne.symm hxs]
      simp only [if_neg hxs, hne]
      omega
  case idleIff =>
    intro c hc
    rw [hinfo]
    split
    · simp [CoordinatorInfo.nodeSolved]
    · exact hR.idleIff c hc
  case node =>
    intro c hc w hw
    rw [hinfo] at hw
    split at hw
    · cases hw
    · rename_i hcs
      obtain ⟨h1, h2, h3, h4⟩ := hR.node c hc w hw
      have hwv : w ≠ v := by
        rintro rfl
        exact hcs (h3.symm.trans (hR.node src hsrc w hv).2.2.1)
      have htree : s'.leader.tree = t := rfl
      rw [htree, hshape.size, hshape.assignTo, hpart w hwv]
      exact ⟨h1, h2, h3, h4⟩

/-- The books after a request: its target waits for the answer. -/
theorem Roster.requested (hR : Roster n s) {s' : State} {t : Nat} {rest : List Nat} {c₀ : Nat}
    (hi : s.leader.idleCoordinators = t :: rest) (hc₀ : s.leader.nextSplitRank = c₀)
    (hs : (s.leader.coordinators c₀).status = .solving)
    (hs' : s' = ((nextIdle n s rest).setInfo c₀
        { s.leader.coordinators c₀ with status := .splitting }).send c₀
        (.requestSplit t (s.leader.coordinators c₀).solvingRound)) : Roster n s' := by
  have htn : t < n := hR.idleLt t (by rw [hi]; exact List.mem_cons_self)
  have hc₀n : c₀ < n := hc₀ ▸ hR.nextLt (by omega)
  have hself : ∀ x, (s'.link c₀).pending x = (s.link c₀).pending x + (t == x).toNat := by
    intro x
    cases htx : t == x <;>
      simp [hs', Link.pending, State.link, State.down, State.setInfo, State.send, nextIdle,
        L2C.asksFor, htx]
    omega
  have hrest : ∀ d, d ≠ c₀ → ∀ x, (s'.link d).pending x = (s.link d).pending x := by
    intro d hd x
    simp [hs', Link.pending, State.link, State.down, State.setInfo, State.send, nextIdle, hd]
  have hinfo : ∀ d, s'.leader.coordinators d =
      if d = c₀ then { s.leader.coordinators c₀ with status := .splitting }
      else s.leader.coordinators d := by
    intro d
    simp [hs', State.setInfo, State.send, nextIdle, Function.update_apply]
  have hasg : ∀ d, (s'.leader.coordinators d).assigned = (s.leader.coordinators d).assigned := by
    intro d
    rw [hinfo]
    split
    · rename_i hd; rw [hd]
    · rfl
  constructor
  case nextLt => rw [hs']; exact fun hn => Nat.mod_lt _ hn
  case idleLt =>
    rw [hs']
    exact fun x hx => hR.idleLt x (by rw [hi]; exact List.mem_cons_of_mem _ hx)
  case pendingLt =>
    intro c hc x hx
    by_cases hcc : c = c₀
    · subst hcc
      have hne : (t == x) = false := by simp; omega
      rw [hself, hne, hR.pendingLt _ hc x hx]
      rfl
    · rw [hrest c hcc]; exact hR.pendingLt c hc x hx
  case balance =>
    intro x hx
    have hb := hR.balance x hx
    have hu := sum_range_change (f := fun d => (s.link d).pending x)
      (g := fun d => (s'.link d).pending x) hc₀n fun d hd => hrest d hd x
    have hx := hself x
    have hq : s'.leader.idleCoordinators = rest := by rw [hs']; rfl
    rw [hq]
    rw [hi, List.count_cons] at hb
    have htx : (if (t == x) = true then 1 else 0) = (t == x).toNat := by
      cases t == x <;> rfl
    simp only [Link.isAssigned, link_info, hasg, unanswered] at hb hu ⊢
    omega
  case idleIff =>
    intro c hc
    rw [hasg, ← hR.idleIff c hc, hinfo]
    split
    · rename_i hcc
      rw [hcc, hs]
      simp
    · rfl
  case node =>
    intro c hc v hv
    rw [hasg] at hv
    rw [hs']
    exact hR.node c hc v hv

/-- The queue can be rotated. -/
theorem Roster.rotated (hR : Roster n s) {t : Nat} {rest : List Nat}
    (hi : s.leader.idleCoordinators = t :: rest) :
    Roster n ((nextIdle n s rest).pushIdle t) where
  nextLt hn := Nat.mod_lt _ hn
  idleLt x hx := hR.idleLt x (by
    rw [hi]
    rcases List.mem_append.1 hx with hx | hx
    · exact List.mem_cons_of_mem _ hx
    · rw [List.mem_singleton.1 hx]; exact List.mem_cons_self)
  pendingLt := hR.pendingLt
  balance x hx := by
    have hb := hR.balance x hx
    rw [hi, List.count_cons] at hb
    have hq : ((nextIdle n s rest).pushIdle t).leader.idleCoordinators.count x =
        rest.count x + if (t == x) = true then 1 else 0 := by
      simp only [State.pushIdle, nextIdle, List.count_append, List.count_singleton]
    rw [hq]
    exact hb
  idleIff := hR.idleIff
  node := hR.node

/-- Pre-partition starts from the tree that has only the root and from
coordinators nobody has talked to, and raises nothing. -/
theorem prePartition_start (num : Nat) (files : List TaskFile) (rest : List C2L)
    (hq : ∀ c < n, QuietLink (s.link c))
    (htree : s.leader.tree = DistributedTree.empty.assignRootNode n .input)
    (hiso : s.leader.coordinators n = ⟨.solving, some 0, 1, 0⟩) :
    ∃ s₁ t, PreLoop n (if num = 0 then 1 else num) files n
        ((s.popUp n rest).send n .assignIsolated) s₁ ∧
      s₁.leader.tree.nodePartialSolved 0 .unsat = .ok t ∧ t.WF ∧
      prePartition n (s.popUp n rest) num files = .ok (s₁.setTree t) := by
  refine prePartition_ok (fun c hc => (hq c hc).info) (by simp [State.popUp, hiso]) ?_ ?_ ?_ ?_ ?_
  all_goals simp only [State.popUp, htree]
  · exact DistributedTree.wf_assignRootNode n .input
  all_goals rfl

/-- The books when the main loop starts: the ranks below the number of nodes
are at work, the others in the queue. -/
theorem Roster.prePartitioned {num : Nat} {files : List TaskFile} {rest : List C2L} {s' : State}
    (hq : ∀ c < n, QuietLink (s.link c)) (hidle : s.leader.idleCoordinators = [])
    (hnext : s.leader.nextSplitRank = 0)
    (htree : s.leader.tree = DistributedTree.empty.assignRootNode n .input)
    (hiso : s.leader.coordinators n = ⟨.solving, some 0, 1, 0⟩)
    (h : prePartition n (s.popUp n rest) num files = .ok s') : Roster n (setPhase s' .main) := by
  obtain ⟨s₁, t, hl, ht, -, hok⟩ := prePartition_start num files rest
    hq htree hiso
  rw [hok] at h
  cases h
  set k := if num = 0 then 1 else num
  obtain ⟨hshape, hpart⟩ := DistributedTree.nodePartialSolved_shape ht
  have hcoord : ∀ c, s₁.coord c = s.coord c := fun c => congrFun hl.same.coord c
  have hup : ∀ c < n, s₁.toL c = s.toL c := fun c hc => by
    rw [hl.same.toL]
    simp [State.send, State.popUp, Nat.ne_of_lt hc]
  have hpend : ∀ c < n, ∀ x, ((setPhase (s₁.setTree t) .main).link c).pending x = 0 := by
    intro c hc x
    have hquiet := (hq c hc).pending x
    have hdown := (hq c hc).down
    simp only [Link.pending, link_down, link_up, State.down, Nat.add_eq_zero_iff] at hquiet hdown
    have htoC : s₁.toC c = [] ∨ s₁.toC c = [.assignNode n (c + 1)] := by
      have hempty : ((s.popUp n rest).send n .assignIsolated).toC c = [] := by
        simp [State.send, State.popUp, Nat.ne_of_lt hc, (List.append_eq_nil_iff.1 hdown).2]
      by_cases hk : c < k
      · right; rw [(hl.given c hc hc hk).2, hempty]; rfl
      · left; rw [(hl.kept c hc (by omega)).2, hempty]
    have hd : (setPhase (s₁.setTree t) .main).down c = (s₁.coord c).drained ++ s₁.toC c := rfl
    have hu : (setPhase (s₁.setTree t) .main).toL c = s.toL c := hup c hc
    simp only [Link.pending, link_down, link_up, hd, hu, hcoord, (List.append_eq_nil_iff.1 hdown).1,
      List.nil_append, hquiet.2, Nat.add_zero]
    rcases htoC with h | h <;> rw [h] <;> rfl
  have hinfo : ∀ c < n, ((setPhase (s₁.setTree t) .main).leader.coordinators c) =
      if c < k then ⟨.solving, some (c + 1), 1, 0⟩ else initInfo := by
    intro c hc
    split
    · rename_i hk; exact (hl.given c hc hc hk).1
    · rename_i hk
      exact (hl.kept c hc (by omega)).1.trans (hq c hc).info
  have hqueue : (setPhase (s₁.setTree t) .main).leader.idleCoordinators =
      (List.range n).filter (fun c => decide (k ≤ c)) := by
    have := hl.idle
    simp only [State.send, State.popUp, hidle, List.nil_append] at this
    exact this
  constructor
  case nextLt =>
    intro hn
    have := hl.next
    simp only [State.send, State.popUp, hnext] at this
    simp only [setPhase, State.setTree, this, hn]
  case idleLt =>
    intro x hx
    rw [hqueue] at hx
    exact List.mem_range.1 (List.mem_filter.1 hx).1
  case pendingLt => exact fun c hc x _ => hpend c hc x
  case balance =>
    intro c hc
    have hu : unanswered n (setPhase (s₁.setTree t) .main) c = 0 :=
      Finset.sum_eq_zero fun d hd => hpend d (Finset.mem_range.1 hd) c
    have hnodup : ((List.range n).filter (fun c => decide (k ≤ c))).Nodup :=
      List.nodup_range.filter _
    rw [hu, hqueue]
    simp only [Link.isAssigned, link_info, hinfo c hc]
    by_cases hk : c < k
    · rw [List.count_eq_zero_of_not_mem (by simp; omega), if_pos hk]
      rfl
    · rw [List.count_eq_one_of_mem hnodup (by simp; omega), if_neg hk]
      rfl
  case idleIff =>
    intro c hc
    rw [hinfo c hc]
    split <;> simp [initInfo]
  case node =>
    intro c hc v hv
    rw [hinfo c hc] at hv
    split at hv
    · rename_i hk
      have hlt : c < min n k := by omega
      cases hv
      have htt : (setPhase (s₁.setTree t) .main).leader.tree = t := rfl
      rw [htt, hshape.size, hshape.assignTo, hpart _ (by omega), hl.size, hl.node c hlt]
      exact ⟨by omega, by omega, rfl, rfl⟩
    · cases hv

end LeaderMoves

theorem LeaderMove.roster {n : Nat} {s s' : State} {l : Lbl} (h : LeaderMove n s l s')
    (hB : Base n s) (hR : RosterInv n s) : RosterInv n s' := by
  cases h with
  | booted hp h =>
    obtain ⟨htree, hinfo⟩ := hR.boot hp
    obtain ⟨hq, hi, hn⟩ := hR.quiet (.inl hp)
    rw [leaderBoot_ok h]
    constructor
    case boot => intro hp'; cases hp'
    case wait =>
      intro _
      simp [setPhase, State.setInfo, State.setTree, State.send, htree, hinfo, initInfo,
        DistributedTree.empty]
    case quiet =>
      refine fun _ => ⟨fun c hc => ?_, hi, hn⟩
      have hne := Nat.ne_of_lt hc
      rw [link_setPhase, link_setInfo, Function.update_of_ne hne, link_setTree, link_send,
        Function.update_of_ne hne]
      exact hq c hc
    case main => intro hp'; cases hp'
  | prePartitioned hp hm h =>
    obtain ⟨htree, hiso⟩ := hR.wait hp
    obtain ⟨hq, hi, hn⟩ := hR.quiet (.inr hp)
    exact .of_main rfl (.prePartitioned hq hi hn htree hiso h)
  | @splitSucceeded src t tag f rest _ hp hsrc hm h =>
    have hlt : src < n := by
      refine Nat.lt_of_le_of_ne hsrc fun heq => ?_
      have := hB.isoUp (.splitSucceed t tag f) (by rw [← heq, hm]; exact List.mem_cons_self)
      cases this
    refine .of_main ?_ ((hR.main hp).splitSucceeded hlt hm h)
    obtain ⟨-, -, -, p, -, hs'⟩ := processSplitSucceed_ok h
    rw [hs']
    exact hp
  | @splitFailed src t tag rest hp hsrc hm =>
    have hlt : src < n := by
      refine Nat.lt_of_le_of_ne hsrc fun heq => ?_
      have := hB.isoUp (.splitFailed t tag) (by rw [← heq, hm]; exact List.mem_cons_self)
      cases this
    refine .of_main ?_ ((hR.main hp).splitFailed hlt hm)
    rw [processSplitFailed]
    split <;> exact hp
  | notified hp hsrc hm hv ht hd => exact .of_main hp ((hR.main hp).notified hsrc hm hv ht)
  | queueEmpty hp hi => exact hR
  | requested hp hi hs => exact .of_main hp ((hR.main hp).requested hi rfl hs rfl)
  | rotated hp hi => exact .of_main hp ((hR.main hp).rotated hi)
  | timedOut hp => exact .of_stopped (stop_phase n _ _)
  | coordinatorError hp hm => exact .of_stopped (stop_phase n _ _)
  | verdict hp hsrc hm hv ht hd => exact .of_stopped (stop_phase n _ _)
  | isoVerdict hp hm => exact .of_stopped (stop_phase n _ _)
  | crashed h => exact .of_stopped (stop_phase n _ _)

theorem roster_inductive (n : Nat) :
    (lts n).Inductive (fun s => Base n s ∧ RosterInv n s) := by
  refine (base_inductive n).under ?_ ?_
  · intro s hs
    rw [hs]
    constructor
    case boot => exact fun _ => ⟨rfl, rfl⟩
    case wait => intro h; cases h
    case quiet =>
      exact fun _ => ⟨fun c hc => ⟨rfl, rfl, by simp [State.link, init, initCoord, Nat.ne_of_lt hc],
        fun m hm => (List.not_mem_nil hm).elim⟩, rfl, rfl⟩
    case main => intro h; cases h
  · intro s l s' hB hR hs
    rcases step_cases hs with h | ⟨c, hc, h⟩ | h
    · exact h.roster hB hR
    · exact h.roster hB.drained hR
    · exact h.roster hR

/-! ## The three situations of a coordinator -/

/-- `t` occurs exactly once in the queue, and is idle. -/
def InQueue (s : State) (t : Nat) : Prop :=
  s.leader.idleCoordinators.count t = 1 ∧ (s.leader.coordinators t).status = .idle ∧
    (s.leader.coordinators t).assigned = none

/-- `t` is the target of exactly one request without an answer, or of one
answer the leader has not read; it is idle and not in the queue. -/
def IsTarget (n : Nat) (s : State) (t : Nat) : Prop :=
  unanswered n s t = 1 ∧ t ∉ s.leader.idleCoordinators ∧
    (s.leader.coordinators t).status = .idle ∧ (s.leader.coordinators t).assigned = none

/-- `t` works on a tree node assigned to it, whose result the leader has not
processed. -/
def HasNode (s : State) (t : Nat) : Prop :=
  ∃ v, (s.leader.coordinators t).assigned = some v ∧ v < s.leader.tree.size ∧
    (s.leader.tree.node v).assignTo = t ∧ (s.leader.tree.node v).partialStatus = .unsolved

/-- **No coordinator is lost or double-booked.** Between pre-partition and
shutdown every distributed coordinator is in exactly one of the three
situations, and in none of them twice. -/
theorem coordinator_in_one_place (n : Nat) (s : State) (hr : (lts n).Reachable s)
    (hp : s.leader.phase = .main) (t : Nat) (ht : t < n) :
    (InQueue s t ∧ unanswered n s t = 0 ∧ ¬HasNode s t) ∨
      (IsTarget n s t ∧ ¬HasNode s t) ∨
      (HasNode s t ∧ t ∉ s.leader.idleCoordinators ∧ unanswered n s t = 0) := by
  have hR := ((roster_inductive n).reachable hr).2.main hp
  have hb := hR.balance t ht
  have hi := hR.idleIff t ht
  simp only [Link.isAssigned, link_info] at hb
  cases ha : (s.leader.coordinators t).assigned with
  | none =>
    have hno : ¬HasNode s t := by
      rintro ⟨v, hv, -⟩
      rw [ha] at hv
      cases hv
    simp only [ha, Option.isSome_none, Bool.toNat_false, Nat.add_zero] at hb
    by_cases hq : s.leader.idleCoordinators.count t = 0
    · exact .inr (.inl ⟨⟨by omega, List.count_eq_zero.1 hq, hi.2 ha, ha⟩, hno⟩)
    · exact .inl ⟨⟨by omega, hi.2 ha, ha⟩, by omega, hno⟩
  | some v =>
    simp only [ha, Option.isSome_some, Bool.toNat_true] at hb
    obtain ⟨-, h2, h3, h4⟩ := hR.node t ht v ha
    exact .inr (.inr ⟨⟨v, ha, h2, h3, h4⟩, List.count_eq_zero.1 (by omega), by omega⟩)

/-- Two coordinators right after pre-partition has found one node. -/
theorem coordinator_in_one_place_two : ∃ s, (lts 2).Reachable s ∧
    ((InQueue s 1 ∧ unanswered 2 s 1 = 0 ∧ ¬HasNode s 1) ∨
      (IsTarget 2 s 1 ∧ ¬HasNode s 1) ∨
      (HasNode s 1 ∧ 1 ∉ s.leader.idleCoordinators ∧ unanswered 2 s 1 = 0)) := by
  obtain ⟨s, hr, hp⟩ := LTS.exists_reachable_of_exec (init 2) (step 2)
    [.leaderBoot, .coordRead 2 .decline, .isoPre [10], .leaderRecv 2]
    (fun s => s.leader.phase == .main) (by decide)
  exact ⟨s, hr, coordinator_in_one_place 2 s hr (by simpa using hp) 1 (by decide)⟩

end AriParti.L4
